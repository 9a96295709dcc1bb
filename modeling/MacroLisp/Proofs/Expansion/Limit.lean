import MacroLisp.Engine
import MacroLisp.Proofs.Expansion.Course

/-!
# The expansion limit

A limit only cuts off: what ends in anything but the fault of the limit ends in the same way under
every greater limit and without one. The limit holds for each expansion by itself, also for those
nested in the looks at heads and in the calls of another one. If none of these is cut off, an
expansion is cut off exactly if it makes more rounds than the limit allows. It then fails after the
look at the head that begins the first round too many, and the macro is not called.
-/

namespace MacroLisp

open Eval

def Fault.IsExpansionLimit (f : Fault) : Prop := ∃ limit head, f.cause = .expansionLimit limit head

theorem exceeded?_eq_none_iff {limit : Option Nat} {tracing : Bool} {steps : Nat} :
    EvalOptions.exceeded? ⟨limit, tracing⟩ steps = none ↔ ∀ m ∈ limit, steps < m := by
  simp only [EvalOptions.exceeded?, Option.filter_eq_none_iff, decide_eq_true_eq, Nat.not_lt]
  rfl

theorem exceeded?_of_lt {n steps : Nat} {tracing : Bool} (h : steps < n) :
    EvalOptions.exceeded? ⟨some n, tracing⟩ steps = none := by
  simpa only [exceeded?_eq_none_iff, Option.mem_some_iff, forall_eq'] using h

section Laxer

variable {n : Nat} {limit : Option Nat} {tracing : Bool} {scope : Scope} {s t : EvalState}

theorem follow_laxer (h : ∀ m ∈ limit, n ≤ m) :
    EvalOptions.Follow Fault.IsExpansionLimit Eq ⟨some n, tracing⟩ ⟨limit, tracing⟩ where
  below steps hsteps := by
    rw [exceeded?_eq_none_iff] at hsteps ⊢
    exact fun m hm => Nat.lt_of_lt_of_le (hsteps n rfl) (h m hm)
  beyond _ limit _ := Or.inr fun head _ _ => ⟨limit, head, rfl⟩
  record step trace trace' htrace := by rw [htrace]

/-- What is not cut off in one run converges to the same in a run that follows it. -/
theorem converges_of_follows {α : Type} {cut : Fault → Prop} {X Y : Nat → Eval α} {o : Outcome α}
    (h : ∀ d, Follows cut Eq (X d) (Y d)) (hX : Converges X s o t) (ho : ¬ o.CutOff cut) :
    Converges Y s o t := by
  obtain ⟨hfin, d, hd⟩ := hX
  refine ⟨hfin, d, ?_⟩
  rcases h d s s ⟨rfl, rfl, rfl, rfl⟩ with hcut | ⟨houtcome, hstate⟩
  · rw [hd] at hcut
    exact absurd hcut ho
  · rw [hd] at houtcome hstate
    exact Prod.ext houtcome hstate.eq.symm

end Laxer

def Engine.withLimit (engine : Engine) (limit : Option Nat) : Engine :=
  { engine with expansionLimit := limit }

theorem run_withLimit {n : Nat} {limit : Option Nat} {d d' : Nat} (h : ∀ m ∈ limit, n ≤ m)
    (hd : d ≤ d') (engine : Engine) (source : Source)
    (ho : ¬ ((engine.withLimit (some n)).run d source).outcome.CutOff Fault.IsExpansionLimit) :
    ((engine.withLimit limit).run d' source).outcome =
        ((engine.withLimit (some n)).run d source).outcome ∧
      ((engine.withLimit limit).run d' source).emitted =
        ((engine.withLimit (some n)).run d source).emitted ∧
      ((engine.withLimit limit).run d' source).engine.store =
        ((engine.withLimit (some n)).run d source).engine.store := by
  unfold Engine.run Engine.perform at ho ⊢
  cases hread : Reader.read source with
  | error fault => exact ⟨rfl, rfl, rfl⟩
  | ok forms =>
    rw [hread] at ho
    have hoptions : EvalOptions.Follow Fault.IsExpansionLimit Eq ⟨some n, false⟩ ⟨limit, false⟩ :=
      follow_laxer h
    have hforms := body_follows (eval_follows hoptions hd) engine.global source.whole forms
    have hinitial : (engine.initialState source).Alike Eq (engine.initialState source) :=
      ⟨rfl, rfl, rfl, rfl⟩
    rcases hforms _ _ hinitial with hcut | ⟨houtcome, hstate⟩
    · exact absurd hcut ho
    · exact ⟨houtcome, hstate.emitted.symm, hstate.store.symm⟩

section Nested

variable {n : Nat} {tracing : Bool} {scope : Scope} {p q : Node × EvalState} {s t : EvalState}

/-- Under the limit the computation ends, and not with the fault of a limit. -/
def WithinLimit {α : Type} (n : Nat) (tracing : Bool) (X : EvalOptions → Nat → Eval α)
    (s : EvalState) : Prop :=
  ∃ o t, Converges (X ⟨some n, tracing⟩) s o t ∧ ¬ o.CutOff Fault.IsExpansionLimit

/-- No expansion that is nested in the look at the head exceeds the limit. -/
def LookWithin (n : Nat) (tracing : Bool) (scope : Scope) (p : Node × EvalState) : Prop :=
  ∀ head tail span, p.1 = .list (head :: tail) span → head.specialForm? = none →
    WithinLimit n tracing (fun o d => eval o d head scope) p.2

/-- No expansion that is nested in the look at the head or in the macro call exceeds the limit. -/
def StepWithin (n : Nat) (tracing : Bool) (scope : Scope) (p : Node × EvalState) : Prop :=
  LookWithin n tracing scope p ∧
    ∀ head tail span callable place t, p.1 = .list (head :: tail) span →
      Converges (fun d => eval ⟨none, tracing⟩ d head scope) p.2
        (.value (.atom (.expander callable) place)) t →
      WithinLimit n tracing (fun o d => callable.apply (eval o d) tail scope span) t

theorem WithinLimit.converges {α : Type} {X : EvalOptions → Nat → Eval α} {o : Outcome α}
    (h : WithinLimit n tracing X s) (hdeep : Deepens (X ⟨none, tracing⟩))
    (hfollows : ∀ d,
      Follows Fault.IsExpansionLimit Eq (X ⟨some n, tracing⟩ d) (X ⟨none, tracing⟩ d))
    (hnone : Converges (X ⟨none, tracing⟩) s o t) : Converges (X ⟨some n, tracing⟩) s o t := by
  obtain ⟨o', t', hsome, ho'⟩ := h
  obtain ⟨rfl, rfl⟩ := (converges_of_follows hfollows hsome ho').unique hdeep hnone
  exact hsome

theorem follow_unlimited : EvalOptions.Follow Fault.IsExpansionLimit Eq ⟨some n, tracing⟩
    ⟨none, tracing⟩ :=
  follow_laxer fun _ h => by cases h

theorem LookWithin.converges {head : Node} {tail : List Node} {span : Span} {o : Outcome Node}
    (h : LookWithin n tracing scope (.list (head :: tail) span, s))
    (plain : head.specialForm? = none)
    (hnone : Converges (fun d => eval ⟨none, tracing⟩ d head scope) s o t) :
    Converges (fun d => eval ⟨some n, tracing⟩ d head scope) s o t :=
  (h head tail span rfl plain).converges (eval_deepens ⟨none, tracing⟩ scope head)
    (fun d => eval_follows follow_unlimited (Nat.le_refl d) head scope) hnone

theorem Round.limited {d : Nat} (h : Round ⟨none, tracing⟩ (eval ⟨none, tracing⟩ d) scope p q)
    (hwithin : StepWithin n tracing scope p) :
    ∃ d, Round ⟨some n, tracing⟩ (eval ⟨some n, tracing⟩ d) scope p q := by
  cases h with
  | @intro head tail span callable place output s t u plain probe call =>
    have hprobe : Converges (fun d => eval ⟨none, tracing⟩ d head scope) s
        (.value (.atom (.expander callable) place)) t := ⟨trivial, d, probe⟩
    have houtput : Converges (fun d => callable.apply (eval ⟨none, tracing⟩ d) tail scope span) t
        (.value output) u := ⟨trivial, d, call⟩
    obtain ⟨-, d₁, hlook⟩ := hwithin.1.converges plain hprobe
    obtain ⟨-, d₂, hcall⟩ := (hwithin.2 head tail span callable place t rfl hprobe).converges
      (callable_deepens ⟨none, tracing⟩ callable tail scope span)
      (fun d => callable_follows (eval_follows follow_unlimited (Nat.le_refl d)) callable tail scope
        span) houtput
    exact ⟨max d₁ d₂, .intro plain
      ((eval_deepens _ scope head).reach hlook trivial (Nat.le_max_left d₁ d₂))
      ((callable_deepens _ callable tail scope span).reach hcall trivial (Nat.le_max_right d₁ d₂))⟩

theorem MakesRounds.limited {k : Nat} (h : MakesRounds ⟨none, tracing⟩ scope k p q)
    (hwithin : ∀ i < k, ∀ m, MakesRounds ⟨none, tracing⟩ scope i p m →
      StepWithin n tracing scope m) : MakesRounds ⟨some n, tracing⟩ scope k p q := by
  obtain ⟨d, h⟩ := h
  induction h with
  | zero p => exact ⟨0, .zero p⟩
  | @succ k p m r first rest ih =>
    have hlater (i : Nat) (hi : i < k) (m' : Node × EvalState)
        (hrounds : MakesRounds ⟨none, tracing⟩ scope i m m') : StepWithin n tracing scope m' := by
      obtain ⟨d', hrounds⟩ := hrounds
      exact hwithin (i + 1) (Nat.succ_lt_succ hi) m' ⟨max d d', .succ
        (first.deepen (Nat.le_max_left d d')) (hrounds.deepen (Nat.le_max_right d d'))⟩
    obtain ⟨d₁, hfirst⟩ := first.limited (hwithin 0 (Nat.succ_pos k) p ⟨0, .zero p⟩)
    obtain ⟨d₂, hrest⟩ := ih hlater
    exact ⟨max d₁ d₂, .succ (hfirst.deepen (Nat.le_max_left d₁ d₂))
      (hrest.deepen (Nat.le_max_right d₁ d₂))⟩

theorem ComesToRest.limited (h : ComesToRest ⟨none, tracing⟩ scope p t)
    (hwithin : LookWithin n tracing scope p) : ComesToRest ⟨some n, tracing⟩ scope p t := by
  obtain ⟨d, h⟩ := h
  cases h with
  | still h => exact ⟨0, .still h⟩
  | @probe head tail span value s t plain probe hvalue =>
    have hprobe : Converges (fun d => eval ⟨none, tracing⟩ d head scope) s (.value value) t :=
      ⟨trivial, d, probe⟩
    obtain ⟨-, d', hlook⟩ := hwithin.converges plain hprobe
    exact ⟨d', .probe plain hlook hvalue⟩

theorem MakesRounds.lookWithin {k : Nat} {r : Node} (h : MakesRounds ⟨some n, tracing⟩ scope k p q)
    (hk : k ≤ n)
    (hvalue : Converges (fun d => expand ⟨some n, tracing⟩ d p.1 scope) p.2 (.value r) t) :
    LookWithin n tracing scope q := by
  intro head tail span hq plain
  obtain ⟨d, hrounds⟩ := h
  obtain ⟨-, d', hd'⟩ := hvalue
  have hdeep := (expand_deepens ⟨some n, tracing⟩ scope p.1).reach hd' trivial
    (show d' ≤ d + d' + 1 + k by omega)
  have hrounds' := hrounds.deepen (show d ≤ d + d' + 1 + k by omega)
  unfold expand at hdeep
  rw [hrounds'.expandFrom_eq (fun i hi => exceeded?_of_lt (by omega)), hq,
    expandFrom_list plain] at hdeep
  rcases hlook : eval ⟨some n, tracing⟩ (d + d' + 1 + k) head scope q.2 with ⟨value | f | _, u⟩
  · exact ⟨.value value, u, ⟨trivial, _, hlook⟩, id⟩
  · rw [hlook] at hdeep
    cases hdeep
  · rw [hlook] at hdeep
    cases hdeep

/-- After as many rounds as the limit allows, the next macro that is found is not called. -/
theorem MakesRounds.exceeds {head : Node} {tail : List Node} {span : Span} {callable : Callable}
    {place : Span} {v w : EvalState}
    (h : MakesRounds ⟨some n, tracing⟩ scope n p (.list (head :: tail) span, v))
    (plain : head.specialForm? = none)
    (hlook : Converges (fun d => eval ⟨some n, tracing⟩ d head scope) v
      (.value (.atom (.expander callable) place)) w) :
    Converges (fun d => expand ⟨some n, tracing⟩ d p.1 scope) p.2
      (.fault (.located (.expansionLimit n head.pretty) w.source span)) w := by
  obtain ⟨d, hrounds⟩ := h
  obtain ⟨-, d', hd'⟩ := hlook
  refine ⟨trivial, d + d' + 1 + n, ?_⟩
  have hrounds' := hrounds.deepen (show d ≤ d + d' + 1 + n by omega)
  have hlook' := (eval_deepens ⟨some n, tracing⟩ scope head).reach hd' trivial
    (show d' ≤ d + d' + 1 + n by omega)
  have hexceeded : EvalOptions.exceeded? ⟨some n, tracing⟩ (0 + n) = some n := by
    simp [EvalOptions.exceeded?]
  show expandFrom ⟨some n, tracing⟩ _ (d + d' + 1 + n) 0 p.1 scope p.2 = _
  rw [hrounds'.expandFrom_eq (fun i hi => exceeded?_of_lt (by omega)), expandFrom_list plain,
    hlook']
  simp only [hexceeded]

/-- Rounds beyond the limit: the expansion fails where the first of them would call its macro. -/
theorem MakesRounds.cut_off {k : Nat} (h : MakesRounds ⟨none, tracing⟩ scope k p q)
    (hwithin : ∀ i < k, ∀ m, MakesRounds ⟨none, tracing⟩ scope i p m →
      StepWithin n tracing scope m) (hk : n < k) :
    ∃ head tail span callable place v w,
      MakesRounds ⟨none, tracing⟩ scope n p (.list (head :: tail) span, v) ∧
      Converges (fun d => eval ⟨none, tracing⟩ d head scope) v
        (.value (.atom (.expander callable) place)) w ∧
      Converges (fun d => expand ⟨some n, tracing⟩ d p.1 scope) p.2
        (.fault (.located (.expansionLimit n head.pretty) w.source span)) w := by
  obtain ⟨d, hrounds⟩ := h
  obtain ⟨m, next, hbefore, hround⟩ := hrounds.split hk
  have hstep : StepWithin n tracing scope m := hwithin n hk m ⟨d, hbefore⟩
  have hlimited : MakesRounds ⟨some n, tracing⟩ scope n p m :=
    MakesRounds.limited ⟨d, hbefore⟩ fun i hi => hwithin i (Nat.lt_trans hi hk)
  cases hround with
  | @intro head tail span callable place _ v w _ plain probe _ =>
    have hlook : Converges (fun d => eval ⟨none, tracing⟩ d head scope) v
        (.value (.atom (.expander callable) place)) w := ⟨trivial, d, probe⟩
    exact ⟨head, tail, span, callable, place, v, w, ⟨d, hbefore⟩, hlook,
      hlimited.exceeds plain (hstep.1.converges plain hlook)⟩

end Nested

/-- The limit only cuts off. What an input comes to under a limit, other than the fault of the
limit, it comes to under every greater limit and under none. And if no expansion that is nested in
the rounds of an expansion exceeds the limit, the expansion succeeds under the limit exactly if it
makes no more rounds than the limit allows and no expansion nested in the last look, at the head of
the result, exceeds it. With more rounds, it fails in the state after the look at the head that
begins the first round too many. -/
theorem limit_cuts_off (n : Nat) :
    (∀ (engine : Engine) (source : Source) (limit : Option Nat) (d d' : Nat),
      (∀ m ∈ limit, n ≤ m) → d ≤ d' →
      ¬ ((engine.withLimit (some n)).run d source).outcome.CutOff Fault.IsExpansionLimit →
      ((engine.withLimit limit).run d' source).outcome =
          ((engine.withLimit (some n)).run d source).outcome ∧
        ((engine.withLimit limit).run d' source).emitted =
          ((engine.withLimit (some n)).run d source).emitted ∧
        ((engine.withLimit limit).run d' source).engine.store =
          ((engine.withLimit (some n)).run d source).engine.store) ∧
    ∀ tracing scope k p q, MakesRounds ⟨none, tracing⟩ scope k p q →
      (∀ i < k, ∀ m, MakesRounds ⟨none, tracing⟩ scope i p m → StepWithin n tracing scope m) →
      (∀ t, ComesToRest ⟨none, tracing⟩ scope q t →
        Converges (fun d => expand ⟨none, tracing⟩ d p.1 scope) p.2 (.value q.1) t ∧
        ((∃ r u, Converges (fun d => expand ⟨some n, tracing⟩ d p.1 scope) p.2 (.value r) u) ↔
          k ≤ n ∧ LookWithin n tracing scope q) ∧
        ∀ r u, Converges (fun d => expand ⟨some n, tracing⟩ d p.1 scope) p.2 (.value r) u →
          r = q.1 ∧ u = t) ∧
      (n < k → ∃ head tail span callable place v w,
        MakesRounds ⟨none, tracing⟩ scope n p (.list (head :: tail) span, v) ∧
        Converges (fun d => eval ⟨none, tracing⟩ d head scope) v
          (.value (.atom (.expander callable) place)) w ∧
        Converges (fun d => expand ⟨some n, tracing⟩ d p.1 scope) p.2
          (.fault (.located (.expansionLimit n head.pretty) w.source span)) w) := by
  refine ⟨fun engine source limit d d' hlimit hd ho => run_withLimit hlimit hd engine source ho,
    fun tracing scope k p q hrounds hwithin => ?_⟩
  refine ⟨fun t hrest => ?_, hrounds.cut_off hwithin⟩
  have hnone : Converges (fun d => expand ⟨none, tracing⟩ d p.1 scope) p.2 (.value q.1) t :=
    hrounds.expand_converges hrest fun _ _ => rfl
  refine ⟨hnone, ⟨?_, ?_⟩, ?_⟩
  · rintro ⟨r, u, hvalue⟩
    have hk : k ≤ n := by
      refine Nat.le_of_not_lt fun hk => ?_
      -- with more rounds the expansion fails, and it has one outcome only
      obtain ⟨_, _, _, _, _, _, _, -, -, hfault⟩ := hrounds.cut_off hwithin hk
      cases (hvalue.unique (expand_deepens _ scope p.1) hfault).1
    exact ⟨hk, (hrounds.limited hwithin).lookWithin hk hvalue⟩
  · rintro ⟨hk, hlook⟩
    exact ⟨q.1, t, (hrounds.limited hwithin).expand_converges (hrest.limited hlook) fun i hi =>
      exceeded?_of_lt (Nat.lt_of_lt_of_le hi hk)⟩
  · intro r u hvalue
    have hsame : Converges (fun d => expand ⟨none, tracing⟩ d p.1 scope) p.2 (.value r) u :=
      converges_of_follows (fun d => expand_follows follow_unlimited (Nat.le_refl d) p.1 scope)
        hvalue id
    obtain ⟨heq, hu⟩ := hnone.unique (expand_deepens _ scope p.1) hsame
    cases heq
    exact ⟨rfl, hu⟩

/-- In a scope where `m` is the macro of `list`, the expansion of `(m list "a")` makes one round. It
succeeds under the limit 1 and fails under the limit 0. -/
theorem limit_cuts_off_once :
    let p : Span := ⟨0, 0⟩
    let expander := Node.atom (.expander (.primitive .list)) p
    let frame : Frame := ⟨[("m", expander), ("list", .atom (.function (.primitive .list)) p)]⟩
    let s : EvalState := ⟨⟨#[frame], #[]⟩, ⟨"t", ""⟩, #[], #[]⟩
    let scope : Scope := ⟨0, []⟩
    let call := Node.list [.symbol "m" p, .symbol "list" p, .string "a" p] p
    let source : Source := ⟨"t", "(defmacro m list) (m str \"a\")"⟩
    let engine := Engine.new none
    ((engine.withLimit none).run 7 source).outcome =
        ((engine.withLimit (some 1)).run 6 source).outcome ∧
      (∃ r u, Converges (fun d => expand ⟨some 1, false⟩ d call scope) s (.value r) u) ∧
      ∃ head span w, Converges (fun d => expand ⟨some 0, false⟩ d call scope) s
        (.fault (.located (.expansionLimit 0 head) w.source span)) w := by
  intro p expander frame s scope call source engine
  have hvalue : ((engine.withLimit (some 1)).run 6 source).outcome.satisfies (fun _ => true) := by
    decide +kernel
  have hround : MakesRounds ⟨none, false⟩ scope 1 (call, s)
      (.list [.symbol "list" p, .string "a" p] p, s) := by
    have hlook : eval ⟨none, false⟩ 1 (.symbol "m" p) scope s = (.value expander, s) := rfl
    exact ⟨1, .succ (.intro rfl hlook rfl) (.zero _)⟩
  have hrest : ComesToRest ⟨none, false⟩ scope
      (.list [.symbol "list" p, .string "a" p] p, s) s := by
    have hlook : eval ⟨none, false⟩ 1 (.symbol "list" p) scope s =
      (.value (.atom (.function (.primitive .list)) p), s) := rfl
    exact ⟨1, .probe rfl hlook rfl⟩
  have hwithin (n : Nat) : ∀ i < 1, ∀ m, MakesRounds ⟨none, false⟩ scope i (call, s) m →
      StepWithin n false scope m := by
    intro i hi m hrounds
    obtain rfl : i = 0 := Nat.lt_one_iff.1 hi
    obtain ⟨_, _ | _⟩ := hrounds
    refine ⟨fun head tail span hform _ => ?_, fun head tail span callable place t hform hlook => ?_⟩
    · cases hform
      exact ⟨.value expander, s, ⟨trivial, 1, rfl⟩, id⟩
    · cases hform
      have hexpander : Converges (fun d => eval ⟨none, false⟩ d (.symbol "m" p) scope) s
          (.value expander) s := ⟨trivial, 1, rfl⟩
      obtain ⟨heq, rfl⟩ := hexpander.unique (eval_deepens _ scope (.symbol "m" p)) hlook
      change _ = Outcome.value (Node.atom (.expander (.primitive .list)) p) at heq
      cases heq
      exact ⟨.value (.list [.symbol "list" p, .string "a" p] p), s, ⟨trivial, 0, rfl⟩, id⟩
  obtain ⟨hsame, hallowed⟩ := limit_cuts_off 1
  have hstop := ((limit_cuts_off 0).2 false scope 1 _ _ hround (hwithin 0)).2 Nat.one_pos
  obtain ⟨head, _, span, _, _, _, w, -, -, hfault⟩ := hstop
  refine ⟨(hsame engine source none 6 7 (fun _ h => by cases h) (by decide)
    (Outcome.not_cutOff_of_satisfies hvalue)).1, ?_,
    head.pretty, span, w, hfault⟩
  refine ((hallowed false scope 1 _ _ hround (hwithin 1)).1 s hrest).2.1.2 ⟨Nat.le_refl 1, ?_⟩
  intro head tail span hform _
  cases hform
  exact ⟨.value (.atom (.function (.primitive .list)) p), s, ⟨trivial, 1, rfl⟩, id⟩

/-- Without a limit the expansion of `((m))` makes no round, since `(m)` comes to no macro. Under
the limit 0 it fails all the same: to look at the head is to expand `(m)`. -/
theorem look_exceeds_limit :
    let p : Span := ⟨0, 0⟩
    let frame : Frame := ⟨[("m", .atom (.expander (.primitive .list)) p)]⟩
    let s : EvalState := ⟨⟨#[frame], #[]⟩, ⟨"t", ""⟩, #[], #[]⟩
    let scope : Scope := ⟨0, []⟩
    let form := Node.list [.list [.symbol "m" p] p] p
    MakesRounds ⟨none, false⟩ scope 0 (form, s) (form, s) ∧
      (∀ i < 0, ∀ m, MakesRounds ⟨none, false⟩ scope i (form, s) m → StepWithin 0 false scope m) ∧
      ComesToRest ⟨none, false⟩ scope (form, s) s ∧
      ¬ ∃ r u, Converges (fun d => expand ⟨some 0, false⟩ d form scope) s (.value r) u := by
  intro p frame s scope form
  have hlook : eval ⟨none, false⟩ 3 (.list [.symbol "m" p] p) scope s = (.value (.list [] p), s) :=
    rfl
  have hrest : ComesToRest ⟨none, false⟩ scope (form, s) s := ⟨3, .probe rfl hlook rfl⟩
  refine ⟨⟨0, .zero _⟩, fun i hi => absurd hi (Nat.not_lt_zero i), hrest, ?_⟩
  rintro ⟨r, u, hvalue⟩
  have hfault : Converges (fun d => expand ⟨some 0, false⟩ d form scope) s
      (.fault (.located (.expansionLimit 0 (Node.symbol "m" p).pretty) ⟨"t", ""⟩ p)) s :=
    ⟨trivial, 3, rfl⟩
  cases (hvalue.unique (expand_deepens _ scope form) hfault).1

end MacroLisp
