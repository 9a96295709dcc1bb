import MacroLisp.Proofs.Evaluation.Status
import MacroLisp.Proofs.Likeness.Engine
import MacroLisp.Proofs.Scope.Confinement
import MacroLisp.Proofs.Spans.Node
import MacroLisp.Script

/-!
# Tests are independent of each other

The setup of a script leaves a state in which nothing names a place where nothing is. A test adds
frames and closures to this state, changes none of those that are there, and puts the source back,
also when it fails in the middle of a call. So whatever tests came before, a test meets the state of
the setup with more frames and closures behind it, and those that it makes find other places. Its
run is like the one right after the setup, and the verdict on it is the same.
-/

namespace MacroLisp

section Kept

variable {α : Type} {xs ys zs : Array α}

/-- What is in the first array is in the second one, at the same place. -/
def Kept (xs ys : Array α) : Prop := ∀ i < xs.size, ys[i]? = xs[i]?

theorem Kept.size_le (h : Kept xs ys) : xs.size ≤ ys.size := by
  by_contra hlt
  have hlast := h ys.size (by omega)
  rw [Array.getElem?_eq_none (Nat.le_refl _), Array.getElem?_eq_getElem (by omega)] at hlast
  cases hlast

theorem Kept.trans (h : Kept xs ys) (h' : Kept ys zs) : Kept xs zs :=
  fun i hi => (h' i (Nat.lt_of_lt_of_le hi h.size_le)).trans (h i hi)

theorem kept_push (xs : Array α) (x : α) : Kept xs (xs.push x) := by
  intro i hi
  rw [Array.getElem?_push, if_neg (Nat.ne_of_lt hi)]

end Kept

structure EvalState.Extends (s t : EvalState) : Prop where
  frames : Kept s.store.frames t.store.frames
  closures : Kept s.store.closures t.store.closures
  source : s.source = t.source

theorem EvalState.Extends.refl (s : EvalState) : s.Extends s :=
  ⟨fun _ _ => rfl, fun _ _ => rfl, rfl⟩

theorem EvalState.Extends.trans {s t u : EvalState} (h : s.Extends t) (h' : t.Extends u) :
    s.Extends u :=
  ⟨h.frames.trans h'.frames, h.closures.trans h'.closures, h.source.trans h'.source⟩

/-- Closures stay where they are, and the source is put back. -/
def lasting : Effect := fun _ s t => Kept s.store.closures t.store.closures ∧ s.source = t.source

theorem lasting_closed : lasting.Closed where
  refl _ _ := ⟨fun _ _ => rfl, rfl⟩
  trans hst htu := ⟨hst.1.trans htu.1, hst.2.trans htu.2⟩
  bindName _ _ _ _ := ⟨fun _ _ => rfl, rfl⟩
  inChild h := h
  newClosure _ closure s := ⟨kept_push s.store.closures closure, rfl⟩
  emit _ _ _ _ := ⟨fun _ _ => rfl, rfl⟩
  record _ _ _ := ⟨fun _ _ => rfl, rfl⟩
  within h := ⟨h.1, rfl⟩

section Resumption

/-- What was there at the first size stands for itself, and what is made from the two sizes on
stands for each other. -/
def Pairing.resumed {m n : Nat} (h : m ≤ n) : Pairing :=
  .extended (fun i j => i = j ∧ i < m) (fun hij => ⟨hij.2, hij.1 ▸ Nat.lt_of_lt_of_le hij.2 h⟩)
    (fun hij hij' => by rw [hij.1, hij'.1]) False

/-- The first run is in the first store and the second one, of the same program, in the second. -/
def Comparison.resumed {s t : Store} (hframes : Kept s.frames t.frames)
    (hclosures : Kept s.closures t.closures) : Comparison where
  located := True
  logged := False
  names _ := True
  frames := .resumed hframes.size_le
  closures := .resumed hclosures.size_le
  word _ := trivial
  rest _ _ _ := trivial

abbrev Comparison.setup : Comparison := .itself (fun _ => True) (fun _ => trivial) fun _ _ _ => trivial

variable {s t : EvalState}

theorem Pairing.at_resumed {m n i j : Nat} (h : m ≤ n) :
    (Pairing.resumed h).At m i j ↔ (Pairing.identity False).At m i j := by
  constructor
  · rintro ⟨⟨rfl, hi⟩ | ⟨k, rfl, rfl⟩, hlt | hearly⟩
    · exact ⟨rfl, Or.inl hi⟩
    · exact hearly.elim
    · omega
    · exact hearly.elim
  · rintro ⟨rfl, hlt | hearly⟩
    · exact ⟨Or.inl ⟨rfl, hlt⟩, Or.inl hlt⟩
    · exact hearly.elim

theorem Links.resumed {α : Type} {R R' : α → α → Prop} {xs ys : Array α}
    (h : Links (.identity False) R xs xs) (hkept : Kept xs ys) (hR : ∀ {x y}, R x y → R' x y) :
    Links (.resumed hkept.size_le) R' xs ys where
  ahead k := Or.inr ⟨k, rfl, rfl⟩
  each i j hij := by
    have hsame := (Pairing.at_resumed hkept.size_le).1 hij
    have hlt : i < xs.size := hsame.2.resolve_right id
    obtain rfl : i = j := hsame.1
    rw [hkept i hlt]
    exact rel_imp (h.each i i hsame) hR

theorem Comparison.setup_within (hframes : Kept s.store.frames t.store.frames)
    (hclosures : Kept s.store.closures t.store.closures) :
    (Comparison.setup.likeness s.store).Within
      ((Comparison.resumed hframes hclosures).likeness s.store) where
  located := id
  names := id
  frames := (Pairing.at_resumed hframes.size_le).2
  closures := (Pairing.at_resumed hclosures.size_le).2

theorem EvalState.Like.resumed (h : s.Like .setup s) (hst : s.Extends t) :
    s.Like (.resumed hst.frames hst.closures) t := by
  have hwithin := Comparison.setup_within hst.frames hst.closures
  exact ⟨⟨h.store.frames.resumed hst.frames fun hfg => hfg.mono hwithin,
    h.store.closures.resumed hst.closures fun hfg => hfg.mono hwithin⟩, fun _ => hst.source, nofun,
    nofun⟩

end Resumption

def Expectation.IsWritten : Expectation → Prop
  | value datum => datum.IsWritten
  | fault _ => True

structure Test.IsWritten (test : Test) : Prop where
  body : ∀ form ∈ test.body, form.IsWritten
  expectation : test.expectation.IsWritten

section Written

abbrev Found {α : Type} : (α → Prop) → Except Complaint α → Prop := Checked fun _ => True

theorem Expectation.ofNode_isWritten {node : Node} (h : node.IsWritten) :
    Found IsWritten (ofNode node) := by
  unfold ofNode
  split
  · next head datum span =>
    have hdatum : datum.IsWritten := by
      cases h with
      | list hitems => exact hitems datum (by simp)
    split
    · exact hdatum
    · split
      · trivial
      · split <;> trivial
    · trivial
  · trivial

theorem Test.ofItems_isWritten {items : List Node} (h : ∀ item ∈ items, item.IsWritten)
    (span : Span) : Found IsWritten (ofItems items span) := by
  unfold ofItems
  split
  · next first name expectation body =>
    have hexpectation := Expectation.ofNode_isWritten (h expectation (by simp))
    split
    · trivial
    · exact checked_map hexpectation fun e he => ⟨fun form hform => h form (by simp [hform]), he⟩
  · trivial

theorem Script.split_isWritten {forms : List Node} (h : ∀ form ∈ forms, form.IsWritten) :
    Found (fun s => (∀ form ∈ s.1, form.IsWritten) ∧ ∀ test ∈ s.2, test.IsWritten)
      (split forms) := by
  induction forms with
  | nil => exact ⟨nofun, nofun⟩
  | cons form forms ih =>
    obtain ⟨hform, hforms⟩ := List.forall_mem_cons.1 h
    have hitems : ∀ item ∈ form.items?.getD [], item.IsWritten := by
      cases hform with
      | atom => exact nofun
      | list hitems => exact hitems
    have htest := Test.ofItems_isWritten hitems form.span
    unfold split
    split
    · generalize Test.ofItems _ _ = x at htest ⊢
      cases x with
      | error c => trivial
      | ok test =>
        exact checked_map (ih hforms) fun s hs => ⟨hs.1, List.forall_mem_cons.2 ⟨htest, hs.2⟩⟩
    · exact checked_map (ih hforms) fun s hs => ⟨List.forall_mem_cons.2 ⟨hform, hs.1⟩, hs.2⟩

theorem Script.read_isWritten {source : Source} {script : Script} (h : read source = .ok script) :
    script.source = source ∧ (∀ form ∈ script.setup, form.IsWritten) ∧
      ∀ test ∈ script.tests, test.IsWritten := by
  unfold read at h
  cases hforms : Reader.read source with
  | error fault =>
    rw [hforms] at h
    cases h
  | ok forms =>
    rw [hforms] at h
    have hsplit := split_isWritten (Reader.read_isWritten hforms)
    dsimp only at h
    generalize split forms = parts at h hsplit
    cases parts with
    | error c => cases h
    | ok parts =>
      cases h
      exact ⟨rfl, hsplit⟩

end Written

section Verdicts

variable {L : Likeness}

/-- Like outcomes of the body get the same verdict, where faults have to agree on their places. -/
theorem Test.verdict_eq {test : Test} (htest : test.IsWritten) (source : Source)
    {r r' : Except Fault Node}
    (h : (Outcome.ofExcept r).Like True (Node.Like L) (.ofExcept r')) :
    test.verdict source r = test.verdict source r' := by
  have hdatum := htest.expectation
  unfold verdict
  cases r with
  | ok found =>
    cases r' with
    | error fault => cases h
    | ok found' =>
      cases h with
      | value h =>
        generalize test.expectation = expectation at hdatum ⊢
        cases expectation with
        | value datum =>
          have hlike : datum.Like L datum := Node.IsWritten.like hdatum
          simp only [h.beq_eq hlike, h.pretty_eq]
        | fault kind => simp only [h.pretty_eq]
  | error fault =>
    cases r' with
    | ok found => cases h
    | error fault' =>
      cases h with
      | fault h => rw [h.eq]

end Verdicts

section Tests

variable {depth : Nat} {global : Scope} {source : Source} {file : String} {test : Test}
  {s t : EvalState}

theorem runTest_hasEffect {R : Effect} (hR : R.Closed) {outside : Scope} :
    Eval.HasEffect R outside (Script.runTest depth global source file test) := by
  refine Eval.hasEffect_newScope_bind hR global fun scope => ?_
  have hbody := body_hasEffect hR (eval_hasEffect hR Script.options depth) scope test.span test.body
  exact Eval.hasEffect_bind hR (Eval.hasEffect_attempt hbody) fun _ => Eval.hasEffect_act hR (.pure _)

theorem runTest_extends (s : EvalState) :
    s.Extends (Script.runTest depth global source file test s).2 := by
  -- seen from a scope whose frame is yet to come, a test is confined to what it makes
  have hframes : Eval.HasEffect confinement ⟨s.store.frames.size, []⟩
      (Script.runTest depth global source file test) := runTest_hasEffect confinement_closed
  have hlasting : Eval.HasEffect lasting global (Script.runTest depth global source file test) :=
    runTest_hasEffect lasting_closed
  obtain ⟨hclosures, hsource⟩ := hlasting s
  exact ⟨Store.untouched_of_confinedTo (hframes s), hclosures, hsource⟩

theorem runTest_like {c : Comparison} (hlocated : c.located = True) {L : Likeness}
    (htest : test.IsWritten) (hglobal : global.Like L global) :
    Eval.Like c L (fun _ => Eq) (Script.runTest depth global source file test)
      (Script.runTest depth global source file test) := by
  refine Eval.like_bind (Eval.like_newScope hglobal) fun M scope scope' hM hscope => ?_
  have hforms : List.Forall₂ (Node.Like M) test.body test.body :=
    List.forall₂_same.2 fun form hform => Node.IsWritten.like (htest.body form hform)
  have hbody := body_like (eval_like (c := c) Script.options depth) hscope
    (fun _ => rfl : M.Agree test.span test.span) hforms
  refine Eval.like_bind (Eval.like_attempt hbody) fun N r r' hN hr => ?_
  rw [hlocated] at hr
  exact Eval.like_pure fun _ _ => by rw [test.verdict_eq htest source hr]

theorem runSetup_like {c : Comparison} {L : Likeness} (hglobal : global.Like L global)
    {forms : List Node} (hforms : ∀ form ∈ forms, form.IsWritten) :
    Eval.Like c L (fun _ _ _ => True) (Script.runSetup depth global forms)
      (Script.runSetup depth global forms) := by
  induction forms with
  | nil => exact Eval.like_pure fun _ _ => trivial
  | cons form forms ih =>
    obtain ⟨hform, hforms⟩ := List.forall_mem_cons.1 hforms
    have heval := eval_like (c := c) Script.options depth (Node.IsWritten.like hform) hglobal
    exact Eval.like_bind heval fun M _ _ hM _ => (ih hforms).mono hM

/-- A state in which the tests of a script can begin: what it names is there. -/
structure Ready (global : Scope) (s : EvalState) : Prop where
  state : s.Like .setup s
  global : global.Like (Comparison.setup.likeness s.store) global

theorem ready_of_runSetup {forms : List Node} (hforms : ∀ form ∈ forms, form.IsWritten)
    (h : Script.runSetup depth (Engine.new none).global forms ((Engine.new none).initialState source) =
      (.value (), s)) : Ready (Engine.new none).global s := by
  have hengine : (Engine.new none).Like .setup (Engine.new none) :=
    Engine.new_like (fun _ => rfl) (fun _ => rfl) none
  have hsetup : Eval.Like .setup _ (fun _ _ _ => True)
      (Script.runSetup depth (Engine.new none).global forms) _ := runSetup_like hengine.global hforms
  obtain ⟨-, hstate, hgrown⟩ := hsetup _ _ (hengine.initialState source) (.refl _)
  rw [h] at hstate hgrown
  exact ⟨hstate, hengine.global.mono hgrown⟩

/-- What other tests have left behind makes no difference. -/
theorem runTest_eq (hs : Ready global s) (htest : test.IsWritten) (hst : s.Extends t) :
    (Script.runTest depth global source file test t).1 =
      (Script.runTest depth global source file test s).1 := by
  have hwithin := Comparison.setup_within hst.frames hst.closures
  -- both runs begin with what is in `s`, and what the second one finds besides has no name in it
  obtain ⟨houtcome, -, -⟩ := runTest_like (c := .resumed hst.frames hst.closures) rfl htest
    (hs.global.mono hwithin) s t (hs.state.resumed hst) (.refl _)
  exact houtcome.eq.symm

theorem runTests_iff (hs : Ready global s) {tests : List Test} (htests : ∀ test ∈ tests, test.IsWritten)
    (hst : s.Extends t) (results : List TestResult) :
    (Script.runTests depth global source file tests t).1 = .value results ↔
      List.Forall₂ (fun test result => (Script.runTest depth global source file test s).1 =
        .value result) tests results := by
  induction tests generalizing t results with
  | nil =>
    constructor
    · intro h
      cases h
      exact .nil
    · intro h
      cases h
      rfl
  | cons test tests ih =>
    obtain ⟨htest, htests⟩ := List.forall_mem_cons.1 htests
    -- `s` is fixed: each test is compared with a run right after the setup
    have hsame : (Script.runTest depth global source file test t).1 = _ := runTest_eq hs htest hst
    have hext : s.Extends (Script.runTest depth global source file test t).2 :=
      hst.trans (runTest_extends t)
    rw [Script.runTests, Eval.bind_outcome_iff, hsame]
    constructor
    · rintro ⟨result, hresult, h⟩
      obtain ⟨rest, hrest, h⟩ := Eval.bind_outcome_iff.1 h
      cases h
      exact .cons hresult ((ih htests hext rest).1 hrest)
    · rintro (_ | ⟨hresult, hrest⟩)
      exact ⟨_, hresult, Eval.bind_outcome_iff.2 ⟨_, (ih htests hext _).2 hrest, rfl⟩⟩

end Tests

section Scripts

variable {depth : Nat} {file : String} {source : Source} {script : Script}

theorem exists_ready (hread : Script.read source = .ok script)
    (hsetup : { script with tests := [] }.run depth file = .value []) :
    ∃ s, Ready (Engine.new none).global s ∧ ∀ tests, { script with tests }.run depth file =
      (Script.runTests depth (Engine.new none).global script.source file tests s).1 := by
  obtain ⟨-, hforms, -⟩ := Script.read_isWritten hread
  obtain ⟨done, houtcome, -⟩ := Eval.bind_outcome_iff.1 hsetup
  have hstate : Script.runSetup depth (Engine.new none).global script.setup
      ((Engine.new none).initialState script.source) = (.value done, _) := Prod.ext houtcome rfl
  refine ⟨_, ready_of_runSetup hforms hstate, fun tests => ?_⟩
  unfold Script.run
  dsimp only
  rw [Eval.bind_apply, hstate]

theorem forall₂_iff_of_mem {α β : Type} {R S : α → β → Prop} {xs : List α} {ys : List β}
    (h : ∀ x ∈ xs, ∀ y, R x y ↔ S x y) : List.Forall₂ R xs ys ↔ List.Forall₂ S xs ys := by
  rw [List.forall₂_iff_zip, List.forall₂_iff_zip]
  refine and_congr_right fun _ => ⟨fun hR x y hxy => ?_, fun hS x y hxy => ?_⟩
  · exact (h x (List.of_mem_zip hxy).1 y).1 (hR hxy)
  · exact (h x (List.of_mem_zip hxy).1 y).2 (hS hxy)

/-- After a setup that succeeds, each test of a script has the result that it has alone. So any of
the tests, in any order, have the results that they have in the whole script. -/
theorem tests_independent (hread : Script.read source = .ok script)
    (hsetup : { script with tests := [] }.run depth file = .value []) :
    (∀ (tests : List Test) (results : List TestResult), (∀ test ∈ tests, test ∈ script.tests) →
      ({ script with tests }.run depth file = .value results ↔
        List.Forall₂ (fun test result =>
          { script with tests := [test] }.run depth file = .value [result]) tests results)) ∧
    ∀ results : List TestResult, script.run depth file = .value results →
      results.length = script.tests.length ∧
      ∀ kept : List (Test × TestResult), (∀ pair ∈ kept, pair ∈ script.tests.zip results) →
        { script with tests := kept.map Prod.fst }.run depth file =
          .value (kept.map Prod.snd) := by
  obtain ⟨-, -, hwritten⟩ := Script.read_isWritten hread
  obtain ⟨s, hs, hrun⟩ := exists_ready hread hsetup
  have hrun_iff {tests : List Test} (htests : ∀ test ∈ tests, test ∈ script.tests)
      (results : List TestResult) :
      (Script.runTests depth (Engine.new none).global script.source file tests s).1 = .value results ↔
        List.Forall₂ (fun test result => (Script.runTest depth (Engine.new none).global script.source
          file test s).1 = .value result) tests results :=
    runTests_iff hs (fun test htest => hwritten test (htests test htest)) (.refl s) results
  refine ⟨fun tests results htests => ?_, fun results h => ?_⟩
  · rw [hrun, hrun_iff htests]
    refine forall₂_iff_of_mem fun test htest result => ?_
    rw [hrun, hrun_iff (List.forall_mem_singleton.2 (htests test htest)), List.forall₂_cons]
    exact ⟨fun h => ⟨h, .nil⟩, And.left⟩
  · have hall := (hrun_iff (fun _ => id) results).1 ((hrun script.tests).symm.trans h)
    refine ⟨hall.length_eq.symm, fun kept hkept => ?_⟩
    have htests : ∀ test ∈ kept.map Prod.fst, test ∈ script.tests :=
      List.forall_mem_map.2 fun pair hpair => (List.of_mem_zip (hkept pair hpair)).1
    rw [hrun, hrun_iff htests, List.forall₂_map_left_iff, List.forall₂_map_right_iff,
      List.forall₂_same]
    exact fun pair hpair => (List.forall₂_iff_zip.1 hall).2 (hkept pair hpair)

/-- The first test binds a global name anew, in its own scope, and then calls a value that is no
function; the second one still finds the global value. -/
def rebindingSource : Source := ⟨"t", "(def x nil)
(test \"a\" (expect-error TypeError) (def x true) (x))
(test \"b\" (expect nil) x)"⟩

def Outcome.tally? : Outcome (List TestResult) → Option (Nat × Nat)
  | .value results => some (results.length, results.countP fun result => !result.passed)
  | _ => none

theorem Outcome.exists_of_tally? {o : Outcome (List TestResult)} {count failed : Nat}
    (h : o.tally? = some (count, failed)) : ∃ results, o = .value results ∧
      results.length = count ∧ (results.countP fun result => !result.passed) = failed := by
  cases o with
  | value results =>
    cases h
    exact ⟨results, rfl, rfl, rfl⟩
  | fault f => cases h
  | unfinished => cases h

theorem tests_independent_rebinding : ∃ script results, Script.read rebindingSource = .ok script ∧
    { script with tests := [] }.run 6 "t" = .value [] ∧ script.run 6 "t" = .value results ∧
    results.length = 2 ∧ (∀ result ∈ results, result.passed = true) ∧
    { script with tests := script.tests.reverse }.run 6 "t" = .value results.reverse := by
  have hcheck : (Script.read rebindingSource).toOption.map (fun script =>
      (({ script with tests := [] }.run 6 "t").tally?, (script.run 6 "t").tally?)) =
        some (some (0, 0), some (2, 0)) := by decide +kernel
  cases hread : Script.read rebindingSource with
  | error fault =>
    rw [hread] at hcheck
    cases hcheck
  | ok script =>
    rw [hread] at hcheck
    simp only [Except.toOption, Option.map_some, Option.some.injEq, Prod.mk.injEq] at hcheck
    obtain ⟨setup, hsetup, hnone, -⟩ := Outcome.exists_of_tally? hcheck.1
    obtain rfl := List.length_eq_zero_iff.1 hnone
    obtain ⟨results, hrun, htwo, hfailed⟩ := Outcome.exists_of_tally? hcheck.2
    have hpassed : ∀ result ∈ results, result.passed = true := by
      simpa [List.countP_eq_zero] using hfailed
    obtain ⟨hlength, hkept⟩ := (tests_independent hread hsetup).2 results hrun
    have hreverse := hkept (script.tests.zip results).reverse fun pair => List.mem_reverse.1
    rw [List.map_reverse, List.map_reverse, List.map_fst_zip hlength.ge,
      List.map_snd_zip hlength.le] at hreverse
    exact ⟨script, results, rfl, hsetup, hrun, htwo, hpassed, hreverse⟩

end Scripts

end MacroLisp
