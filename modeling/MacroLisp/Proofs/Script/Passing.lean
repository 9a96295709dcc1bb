import MacroLisp.Proofs.Script.Independence

/-!
# What it takes to pass

The tests of a script and what they expect are read off its forms, and every other form is setup. A
script begins if each form of its setup has a value, one after the other. A test passes if its body,
in a new child of the global scope and in the state that the whole setup leaves behind, has a value
that equals the expected datum or fails with a fault of the expected kind. A script has results if
and only if it begins and every body comes to an end, and then each test has one result, in order,
that is passed if and only if the test passes.
-/

namespace MacroLisp

namespace Expectation

/-- A node that is `(expect datum)` or `(expect-error Kind)`. -/
inductive Written : Node → Expectation → Prop where
  | value (datum : Node) (place span : Span) :
      Written (.list [.symbol "expect" place, datum] span) (.value datum)
  | fault {name : String} {kind : FaultKind} (hname : FaultKind.ofName? name = some kind)
      (place place' span : Span) :
      Written (.list [.symbol "expect-error" place, .symbol name place'] span) (.fault kind)

def Met : Expectation → Outcome Node → Prop
  | value datum, .value found => (found == datum) = true
  | fault kind, .fault f => f.kind = kind
  | _, _ => False

end Expectation

/-- A form that is `(test "name" expectation body...)`, whatever symbol it is headed by. -/
inductive Test.Written : Node → Test → Prop where
  | intro {expected : Node} {expectation : Expectation}
      (h : Expectation.Written expected expectation) (head : Node) (name : String) (place : Span)
      (body : List Node) (span : Span) :
      Written (.list (head :: .string name place :: expected :: body) span)
        ⟨name, expectation, body, span⟩

section Reading

theorem exists_of_map_eq_ok {ε α β : Type} {f : α → β} {x : Except ε α} {b : β}
    (h : x.map f = .ok b) : ∃ a, x = .ok a ∧ f a = b := by
  cases x with
  | error e => cases h
  | ok a => exact ⟨a, rfl, Except.ok.inj h⟩

theorem Node.symbol?_eq_some_iff {node : Node} {name : String} :
    node.symbol? = some name ↔ ∃ span, node = .symbol name span := by
  constructor
  · intro h
    unfold Node.symbol? at h
    split at h
    · cases h
      exact ⟨_, rfl⟩
    · cases h
  · rintro ⟨span, rfl⟩
    rfl

theorem Node.string?_eq_some_iff {node : Node} {text : String} :
    node.string? = some text ↔ ∃ span, node = .string text span := by
  constructor
  · intro h
    unfold Node.string? at h
    split at h
    · cases h
      exact ⟨_, rfl⟩
    · cases h
  · rintro ⟨span, rfl⟩
    rfl

theorem Expectation.ofNode_eq_ok_iff {node : Node} {expectation : Expectation} :
    ofNode node = .ok expectation ↔ Written node expectation := by
  constructor
  · intro h
    unfold ofNode at h
    split at h
    · split at h
      · next hhead =>
        obtain ⟨place, rfl⟩ := Node.symbol?_eq_some_iff.1 hhead
        cases h
        exact .value ..
      · next hhead =>
        obtain ⟨place, rfl⟩ := Node.symbol?_eq_some_iff.1 hhead
        split at h
        · cases h
        · next hdatum =>
          obtain ⟨place', rfl⟩ := Node.symbol?_eq_some_iff.1 hdatum
          split at h
          · next hkind =>
            cases h
            exact .fault hkind ..
          · cases h
      · cases h
    · cases h
  · rintro (⟨datum, place, span⟩ | ⟨hname, place, place', span⟩)
    · rfl
    · simp only [ofNode, Node.symbol?, hname]

theorem Test.ofItems_eq_ok_iff {form : Node} {test : Test} :
    ofItems (form.items?.getD []) form.span = .ok test ↔ Written form test := by
  constructor
  · intro h
    cases form with
    | atom value span => cases h
    | list items span =>
      change ofItems items span = .ok test at h
      unfold ofItems at h
      split at h
      · split at h
        · cases h
        · next hname =>
          obtain ⟨place, rfl⟩ := Node.string?_eq_some_iff.1 hname
          obtain ⟨expectation, hexpected, rfl⟩ := exists_of_map_eq_ok h
          exact .intro (Expectation.ofNode_eq_ok_iff.1 hexpected) ..
      · cases h
  · rintro ⟨hexpected, head, name, place, body, span⟩
    have hread := Expectation.ofNode_eq_ok_iff.2 hexpected
    change (Expectation.ofNode _).map _ = _
    rw [hread]
    rfl

/-- The forms headed by `test` are the tests, the others are the setup, both in their order. -/
theorem Script.split_eq_ok_iff {forms setup : List Node} {tests : List Test} :
    split forms = .ok (setup, tests) ↔
      setup = forms.filter (fun form => !form.isHeadedBy "test") ∧
        List.Forall₂ Test.Written (forms.filter fun form => form.isHeadedBy "test") tests := by
  induction forms generalizing setup tests with
  | nil =>
    constructor
    · intro h
      cases h
      exact ⟨rfl, .nil⟩
    · rintro ⟨rfl, htests⟩
      cases htests
      rfl
  | cons form forms ih =>
    unfold split
    by_cases hform : form.isHeadedBy "test" = true
    · rw [if_pos hform, List.filter_cons_of_neg (by simp [hform]),
        List.filter_cons_of_pos hform]
      constructor
      · intro h
        split at h
        · cases h
        · next test htest =>
          obtain ⟨⟨setup', tests'⟩, hsplit, hsame⟩ := exists_of_map_eq_ok h
          obtain ⟨rfl, rfl⟩ := Prod.mk.inj hsame
          obtain ⟨hsetup, htests⟩ := ih.1 hsplit
          exact ⟨hsetup, .cons (Test.ofItems_eq_ok_iff.1 htest) htests⟩
      · rintro ⟨hsetup, htests⟩
        cases htests with
        | cons htest htests =>
          rw [Test.ofItems_eq_ok_iff.2 htest, ih.2 ⟨hsetup, htests⟩]
          rfl
    · rw [if_neg hform, List.filter_cons_of_pos (by simp [hform]),
        List.filter_cons_of_neg hform]
      constructor
      · intro h
        obtain ⟨⟨setup', tests'⟩, hsplit, hsame⟩ := exists_of_map_eq_ok h
        obtain ⟨rfl, rfl⟩ := Prod.mk.inj hsame
        obtain ⟨hsetup, htests⟩ := ih.1 hsplit
        exact ⟨congrArg (form :: ·) hsetup, htests⟩
      · rintro ⟨rfl, htests⟩
        rw [ih.2 ⟨rfl, htests⟩]
        rfl

end Reading

/-- The forms have values one after the other, each in the state that the one before it left. -/
inductive Script.SetsUp (depth : Nat) (global : Scope) : EvalState → List Node → EvalState → Prop where
  | nil (s : EvalState) : SetsUp depth global s [] s
  | cons {s t u : EvalState} {form value : Node} {forms : List Node}
      (hform : eval options depth form global s = (.value value, t))
      (hforms : SetsUp depth global t forms u) : SetsUp depth global s (form :: forms) u

def Test.outcome (test : Test) (depth : Nat) (global : Scope) (s : EvalState) : Outcome Node :=
  let (scope, store) := s.store.newChild global
  ((eval Script.options depth).body scope test.span test.body { s with store }).1

def Test.Passes (test : Test) (depth : Nat) (global : Scope) (s : EvalState) : Prop :=
  test.expectation.Met (test.outcome depth global s)

/-- What a result says of a test whose body has come to an end. -/
structure Test.Reported (depth : Nat) (global : Scope) (file : String) (s : EvalState) (test : Test)
    (result : TestResult) : Prop where
  file : result.file = file
  name : result.name = test.name
  finished : (test.outcome depth global s).Finished
  passed : result.passed = true ↔ test.Passes depth global s

/-- The source is a script with the given tests whose setup leads to the given state. -/
def Script.Begins (depth : Nat) (source : Source) (tests : List Test) (s : EvalState) : Prop :=
  ∃ forms, Reader.read source = .ok forms ∧
    List.Forall₂ Test.Written (forms.filter fun form => form.isHeadedBy "test") tests ∧
    SetsUp depth (Engine.new none).global ((Engine.new none).initialState source)
      (forms.filter fun form => !form.isHeadedBy "test") s

section Running

theorem exists_forall₂_iff {α β : Type} {R : α → β → Prop} {P : β → Prop} {xs : List α} :
    (∃ ys, List.Forall₂ R xs ys ∧ ∀ y ∈ ys, P y) ↔ ∀ x ∈ xs, ∃ y, R x y ∧ P y := by
  induction xs with
  | nil => exact ⟨fun _ => List.forall_mem_nil _, fun _ => ⟨[], .nil, List.forall_mem_nil _⟩⟩
  | cons x xs ih =>
    rw [List.forall_mem_cons, ← ih]
    constructor
    · rintro ⟨_, hxy | ⟨hxy, hrest⟩, hall⟩
      obtain ⟨hy, hys⟩ := List.forall_mem_cons.1 hall
      exact ⟨⟨_, hxy, hy⟩, _, hrest, hys⟩
    · rintro ⟨⟨y, hxy, hy⟩, ys, hrest, hys⟩
      exact ⟨y :: ys, .cons hxy hrest, List.forall_mem_cons.2 ⟨hy, hys⟩⟩

variable {depth : Nat} {global : Scope} {source : Source} {file : String} {s t : EvalState}
  {test : Test} {tests : List Test} {result : TestResult} {results : List TestResult}

theorem Script.runSetup_eq_iff {forms : List Node} :
    runSetup depth global forms s = (.value (), t) ↔ SetsUp depth global s forms t := by
  constructor
  · intro h
    induction forms generalizing s with
    | nil =>
      cases h
      exact .nil _
    | cons form forms ih =>
      obtain ⟨value, mid, hform, hforms⟩ := Eval.bind_eq_value h
      exact .cons hform (ih hforms)
  · intro h
    induction h with
    | nil s => rfl
    | cons hform _ ih =>
      rw [runSetup, Eval.bind_apply, hform]
      exact ih

theorem Test.verdict_eq_none_iff (outcome : Except Fault Node) :
    test.verdict source outcome = none ↔ test.expectation.Met (.ofExcept outcome) := by
  unfold Test.verdict
  generalize test.expectation = expectation
  cases expectation with
  | value datum =>
    cases outcome with
    | ok found =>
      by_cases hsame : (found == datum) = true
      · simp only [hsame, if_true, Outcome.ofExcept, Expectation.Met]
      · simp only [hsame, if_false, Outcome.ofExcept, Expectation.Met, reduceCtorEq,
          Bool.false_eq_true]
    | error f => exact ⟨nofun, False.elim⟩
  | fault kind =>
    cases outcome with
    | ok found => exact ⟨nofun, False.elim⟩
    | error f =>
      by_cases hkind : f.kind = kind
      · simp only [hkind, if_true, Outcome.ofExcept, Expectation.Met]
      · simp only [hkind, if_false, Outcome.ofExcept, Expectation.Met, reduceCtorEq]

theorem Eval.attempt_outcome_iff {α : Type} {x : Eval α} {r : Except Fault α} :
    (attempt x s).1 = .value r ↔ (x s).1 = .ofExcept r := by
  unfold attempt
  obtain ⟨o, t⟩ := x s
  cases o <;> cases r <;> simp [Outcome.ofExcept]

theorem Script.runTest_eq_value_iff :
    (runTest depth global source file test s).1 = .value result ↔
      ∃ outcome, test.outcome depth global s = .ofExcept outcome ∧
        result = ⟨file, test.name, test.verdict source outcome⟩ := by
  constructor
  · intro h
    obtain ⟨scope, hscope, h⟩ := Eval.bind_outcome_iff.1 h
    cases hscope
    obtain ⟨outcome, houtcome, h⟩ := Eval.bind_outcome_iff.1 h
    cases h
    exact ⟨outcome, Eval.attempt_outcome_iff.1 houtcome, rfl⟩
  · rintro ⟨outcome, houtcome, rfl⟩
    refine Eval.bind_outcome_iff.2 ⟨_, rfl, Eval.bind_outcome_iff.2 ⟨outcome, ?_, rfl⟩⟩
    exact Eval.attempt_outcome_iff.2 houtcome

theorem Script.reported_of_runTest
    (h : (runTest depth global source file test s).1 = .value result) :
    test.Reported depth global file s result := by
  obtain ⟨outcome, houtcome, rfl⟩ := runTest_eq_value_iff.1 h
  refine ⟨rfl, rfl, ?_, ?_⟩
  · rw [houtcome]
    cases outcome <;> trivial
  · rw [TestResult.passed, Option.isNone_iff_eq_none, Test.verdict_eq_none_iff, Test.Passes, houtcome]

theorem Script.passes_iff :
    test.Passes depth global s ↔
      ∃ result, (runTest depth global source file test s).1 = .value result ∧
        result.passed = true := by
  constructor
  · intro h
    have hresult (outcome : Except Fault Node)
        (houtcome : test.outcome depth global s = .ofExcept outcome) :
        ∃ result, (runTest depth global source file test s).1 = .value result ∧
          result.passed = true := by
      have hrun : (runTest depth global source file test s).1 = .value _ :=
        runTest_eq_value_iff.2 ⟨outcome, houtcome, rfl⟩
      exact ⟨_, hrun, (reported_of_runTest hrun).passed.2 h⟩
    cases houtcome : test.outcome depth global s with
    | value found => exact hresult (.ok found) houtcome
    | fault f => exact hresult (.error f) houtcome
    | unfinished =>
      rw [Test.Passes, houtcome] at h
      cases hexpectation : test.expectation <;> rw [hexpectation] at h <;> exact h.elim
  · rintro ⟨result, hrun, hpassed⟩
    exact (reported_of_runTest hrun).passed.1 hpassed

theorem Eval.bind_ne_fault {α β : Type} {x : Eval α} {f : α → Eval β} {fault : Fault}
    (hx : (x s).1 ≠ .fault fault) (hf : ∀ a t, (f a t).1 ≠ .fault fault) :
    ((x >>= f) s).1 ≠ .fault fault := by
  rw [bind_apply]
  rcases hresult : x s with ⟨a | e | _, t⟩
  · exact hf a t
  · refine fun hfault => hx ?_
    cases hfault
    rw [hresult]
  · exact nofun

theorem Eval.attempt_ne_fault {α : Type} (x : Eval α) (fault : Fault) :
    (attempt x s).1 ≠ .fault fault := by
  unfold attempt
  obtain ⟨o, t⟩ := x s
  cases o <;> exact nofun

theorem Script.runTests_ne_fault (fault : Fault) :
    (runTests depth global source file tests s).1 ≠ .fault fault := by
  induction tests generalizing s with
  | nil => exact nofun
  | cons test tests ih =>
    refine Eval.bind_ne_fault (Eval.bind_ne_fault nofun fun scope t => ?_) fun result t =>
      Eval.bind_ne_fault ih fun _ _ => nofun
    exact Eval.bind_ne_fault (Eval.attempt_ne_fault _ fault) fun _ _ => nofun

theorem Script.read_eq_ok_iff {script : Script} :
    Script.read source = .ok script ↔ script.source = source ∧
      ∃ forms, Reader.read source = .ok forms ∧ split forms = .ok (script.setup, script.tests) := by
  obtain ⟨source', setup, tests⟩ := script
  unfold Script.read
  constructor
  · intro h
    split at h
    · cases h
    · next forms hforms =>
      split at h
      · cases h
      · next hsplit =>
        cases h
        exact ⟨rfl, forms, hforms, hsplit⟩
  · rintro ⟨rfl, forms, hforms, hsplit⟩
    simp only [hforms, hsplit]

theorem Script.run_eq_of_setsUp {script : Script}
    (hs : SetsUp depth (Engine.new none).global ((Engine.new none).initialState script.source)
      script.setup s) : script.run depth file =
        (runTests depth (Engine.new none).global script.source file script.tests s).1 := by
  unfold Script.run
  dsimp only
  rw [Eval.bind_apply, runSetup_eq_iff.2 hs]

theorem Script.run_eq_value_iff {script : Script} (hread : Script.read source = .ok script) :
    script.run depth file = .value results ↔
      ∃ s, SetsUp depth (Engine.new none).global ((Engine.new none).initialState script.source)
          script.setup s ∧
        List.Forall₂ (fun test result =>
          (runTest depth (Engine.new none).global script.source file test s).1 = .value result)
          script.tests results := by
  obtain ⟨-, hsetup, htests⟩ := Script.read_isWritten hread
  constructor
  · intro h
    obtain ⟨done, hdone, h⟩ := Eval.bind_outcome_iff.1 h
    have hstate : runSetup depth (Engine.new none).global script.setup
        ((Engine.new none).initialState script.source) = (.value done, _) := Prod.ext hdone rfl
    exact ⟨_, runSetup_eq_iff.1 hstate,
      (runTests_iff (ready_of_runSetup hsetup hstate) htests (.refl _) results).1 h⟩
  · rintro ⟨s, hs, h⟩
    have hready := ready_of_runSetup hsetup (runSetup_eq_iff.2 hs)
    exact (run_eq_of_setsUp hs).trans ((runTests_iff hready htests (.refl s) results).2 h)

theorem Script.read_of_begins {forms : List Node} (hforms : Reader.read source = .ok forms)
    (htests : List.Forall₂ Test.Written (forms.filter fun form => form.isHeadedBy "test") tests) :
    Script.read source = .ok ⟨source, forms.filter fun form => !form.isHeadedBy "test", tests⟩ :=
  read_eq_ok_iff.2 ⟨rfl, forms, hforms, split_eq_ok_iff.2 ⟨rfl, htests⟩⟩

/-- A source has results if and only if it begins as a script and each of its tests has one. -/
theorem Script.runSource_eq_value_iff :
    runSource depth source = .value results ↔
      ∃ tests s, Begins depth source tests s ∧
        List.Forall₂ (fun test result =>
          (runTest depth (Engine.new none).global source source.name test s).1 = .value result)
          tests results := by
  unfold runSource
  constructor
  · intro h
    split at h
    · cases h
    · next script hread =>
      obtain ⟨s, hs, hresults⟩ := (run_eq_value_iff hread).1 h
      obtain ⟨rfl, forms, hforms, hsplit⟩ := read_eq_ok_iff.1 hread
      obtain ⟨hsetup, htests⟩ := split_eq_ok_iff.1 hsplit
      rw [hsetup] at hs
      exact ⟨script.tests, s, ⟨forms, hforms, htests, hs⟩, hresults⟩
  · rintro ⟨tests, s, ⟨forms, hforms, htests, hs⟩, hresults⟩
    have hread := read_of_begins hforms htests
    rw [hread]
    exact (run_eq_value_iff hread).2 ⟨s, hs, hresults⟩

theorem Script.runSource_ne_fault (h : Begins depth source tests s) (fault : Fault) :
    runSource depth source ≠ .fault fault := by
  obtain ⟨forms, hforms, htests, hs⟩ := h
  have hrun : Script.run depth source.name ⟨source, _, tests⟩ = _ := run_eq_of_setsUp hs
  unfold runSource
  rw [read_of_begins hforms htests]
  dsimp only
  rw [hrun]
  exact runTests_ne_fault fault

/-- All tests of a source are run and pass. -/
theorem Script.runSource_passed_iff :
    (∃ results, runSource depth source = .value results ∧ ∀ result ∈ results, result.passed = true) ↔
      ∃ tests s, Begins depth source tests s ∧
        ∀ test ∈ tests, test.Passes depth (Engine.new none).global s := by
  have hall (tests : List Test) (s : EvalState) :
      (∀ test ∈ tests, test.Passes depth (Engine.new none).global s) ↔
        ∃ results, List.Forall₂ (fun test result =>
          (runTest depth (Engine.new none).global source source.name test s).1 = .value result)
          tests results ∧ ∀ result ∈ results, result.passed = true := by
    rw [exists_forall₂_iff]
    exact forall₂_congr fun _ _ => passes_iff
  constructor
  · rintro ⟨results, h, hpassed⟩
    obtain ⟨tests, s, hbegins, hresults⟩ := runSource_eq_value_iff.1 h
    exact ⟨tests, s, hbegins, (hall tests s).2 ⟨results, hresults, hpassed⟩⟩
  · rintro ⟨tests, s, hbegins, hpasses⟩
    obtain ⟨results, hresults, hpassed⟩ := (hall tests s).1 hpasses
    exact ⟨results, runSource_eq_value_iff.2 ⟨tests, s, hbegins, hresults⟩, hpassed⟩

end Running

end MacroLisp
