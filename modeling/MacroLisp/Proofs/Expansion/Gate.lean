import MacroLisp.Proofs.Evaluation.Composition

/-!
# Expansion behind a gate

A gate is passed before every step of every expansion, however deeply the expansion is nested in an
evaluation. The expansion limit is a gate, and so is a watch, which raises an alarm where a form is
about to be rewritten once too often. Either the watch makes no difference to an evaluation, or
every alarm is raised at the same form and in the same state.
-/

namespace MacroLisp

open Eval

/-- What is done before a step, given the number of steps so far and the head and span of the call.
-/
def Gate : Type := Nat → Node → Span → Eval Unit

/-- A macro call that is one step too many, and the source that it is expanded in. -/
structure Overrun where
  head : Node
  call : Span
  source : Source

def Overrun.fault (o : Overrun) (limit : Nat) : Fault :=
  .located (.expansionLimit limit o.head.pretty) o.source o.call

theorem Overrun.kind_fault (o : Overrun) (limit : Nat) : (o.fault limit).kind = .eval := rfl

abbrev Alarm : Type := Overrun → Fault

def Eval.raise (alarm : Alarm) (head : Node) (call : Span) : Eval Unit := fun s =>
  (.fault (alarm ⟨head, call, s.source⟩), s)

namespace Gate

/-- After so many steps no other one is let through. -/
def watch (n : Nat) (alarm : Alarm) : Gate := fun steps head call =>
  if n ≤ steps then Eval.raise alarm head call else pure ()

def limit (expansionLimit : Option Nat) : Gate := fun steps head call =>
  match EvalOptions.exceeded? ⟨expansionLimit, false⟩ steps with
  | some n => Eval.fail (.expansionLimit n head.pretty) call
  | none => pure ()

def andThen (first second : Gate) : Gate := fun steps head call => do
  first steps head call
  second steps head call

theorem watch_fault (n : Nat) : watch n (·.fault n) = limit (some n) := by
  funext steps head call
  by_cases h : n ≤ steps
  · have hexceeded : EvalOptions.exceeded? ⟨some n, false⟩ steps = some n :=
      if_pos (decide_eq_true (Nat.lt_succ_of_le h))
    simp only [watch, limit, hexceeded, if_pos h]
    rfl
  · have hexceeded : EvalOptions.exceeded? ⟨some n, false⟩ steps = none :=
      if_neg fun hlt => h (Nat.le_of_lt_succ (of_decide_eq_true hlt))
    simp only [watch, limit, hexceeded, if_neg h]

theorem limit_andThen_watch (n : Nat) (alarm : Alarm) :
    (limit (some n)).andThen (watch n alarm) = limit (some n) := by
  rw [← watch_fault]
  funext steps head call
  by_cases h : n ≤ steps
  · simp only [andThen, watch, if_pos h]
    rfl
  · simp only [andThen, watch, if_neg h, pure_bind]

end Gate

def expandBehind (gate : Gate) (tracing : Bool) (eval : Evaluator) : Nat → Nat → Evaluator
  | 0, _, _, _ => Eval.unfinished
  | fuel + 1, steps, node, scope =>
    match node with
    | .list (head :: tail) span =>
      if head.specialForm?.isSome then pure node
      else do
        match ← eval head scope with
        | .atom (.expander callable) _ => do
          gate steps head span
          let output ← callable.apply eval tail scope span
          Eval.recordIf tracing ⟨head.pretty, node, output⟩
          expandBehind gate tracing eval fuel (steps + 1) output scope
        | _ => pure node
    | _ => pure node

def evalBehind (gate : Gate) (tracing : Bool) : Nat → Evaluator
  | 0, _, _ => Eval.unfinished
  | depth + 1, node, scope =>
    evalWith (evalBehind gate tracing depth)
      (expandBehind gate tracing (evalBehind gate tracing depth) depth 0) node scope

theorem expandFrom_eq_expandBehind (options : EvalOptions) (ev : Evaluator) (fuel steps : Nat) :
    expandFrom options ev fuel steps =
      expandBehind (.limit options.expansionLimit) options.tracing ev fuel steps := by
  induction fuel generalizing steps with
  | zero => rfl
  | succ fuel ih =>
    funext node scope
    match node with
    | .atom _ _ | .list [] _ => rfl
    | .list (head :: tail) span =>
      refine congrArg (ite _ _) (congrArg (ev head scope >>= ·) (funext fun value => ?_))
      match value with
      | .list _ _ => rfl
      | .atom value _ =>
        cases value with
        | expander callable =>
          have hlimit : EvalOptions.exceeded? ⟨options.expansionLimit, false⟩ steps =
            options.exceeded? steps := rfl
          simp only [Gate.limit, hlimit]
          cases options.exceeded? steps with
          | some limit => rfl
          | none => simp only [pure_bind, ih]
        | nil | bool | number | string | symbol | function => rfl

/-- The evaluator expands behind its limit. -/
theorem eval_eq_evalBehind (options : EvalOptions) (depth : Nat) :
    eval options depth = evalBehind (.limit options.expansionLimit) options.tracing depth := by
  induction depth with
  | zero => rfl
  | succ depth ih =>
    funext node scope
    rw [eval, evalBehind, ih, expandFrom_eq_expandBehind]

section Families

variable {ι : Type} {P : (α : Type) → (ι → Eval α) → Prop} (hP : Compositional P) {gate : ι → Gate}
  (hgate : ∀ steps head call, P Unit fun i => gate i steps head call) {ev : ι → Evaluator}
  (hev : Evaluator.Family (fun _ => P) ev) (tracing : Bool)

include hP hgate

include hev in
theorem expandBehind_family (fuel steps : Nat) :
    Evaluator.Family (fun _ => P) fun i => expandBehind (gate i) tracing (ev i) fuel steps := by
  induction fuel generalizing steps with
  | zero => exact fun _ _ => hP.const _
  | succ fuel ih =>
    intro node scope
    match node with
    | .atom _ _ | .list [] _ => exact hP.const _
    | .list (head :: tail) span =>
      refine ite_family _ (hP.const _) (hP.bind (hev head scope) fun value => ?_)
      match value with
      | .list _ _ => exact hP.const _
      | .atom value _ =>
        cases value with
        | expander callable =>
          refine hP.bind (hgate steps head span) fun _ => ?_
          have hcall := callable_family hP.passable hev scope callable tail scope span
          refine hP.bind hcall fun output => ?_
          exact hP.bind (hP.const _) fun _ => ih (steps + 1) output scope
        | nil | bool | number | string | symbol | function => exact hP.const _

theorem evalBehind_family (depth : Nat) :
    Evaluator.Family (fun _ => P) fun i => evalBehind (gate i) tracing depth := by
  induction depth with
  | zero => exact fun _ _ => hP.const _
  | succ depth ih =>
    have hex := expandBehind_family hP hgate ih tracing depth 0
    exact evalWith_family hP.passable ih hex

end Families

section Watching

variable {α : Type}

def Gate.ofAlarm (n : Nat) : Option Alarm → Gate
  | none => limit none
  | some alarm => watch n alarm

/-- From every state, either no alarm makes a difference, or every alarm is raised for the same
overrun and in the same state. -/
def Watched (x : Option Alarm → Eval α) : Prop :=
  ∀ s, (∀ alarm, x (some alarm) s = x none s) ∨
    ∃ o t, ∀ alarm, x (some alarm) s = (.fault (alarm o), t)

theorem watched_compositional : Compositional fun _ => Watched where
  const _ _ := Or.inl fun _ => rfl
  bind {α β x f} hx hf s := by
    -- the first part raises every alarm, or none matters to it and the second part decides
    rcases hx s with hsame | ⟨o, t, hraised⟩
    · rcases hnone : x none s with ⟨a | f' | _, t⟩
      · rcases hf a t with hsame' | ⟨o, u, hraised⟩
        · exact Or.inl fun alarm => by simp only [bind_apply, hsame, hnone, hsame']
        · exact Or.inr ⟨o, u, fun alarm => by simp only [bind_apply, hsame, hnone, hraised]⟩
      · exact Or.inl fun alarm => by simp only [bind_apply, hsame, hnone]
      · exact Or.inl fun alarm => by simp only [bind_apply, hsame, hnone]
    · exact Or.inr ⟨o, t, fun alarm => by simp only [bind_apply, hraised]⟩
  within source x hx s := by
    rcases hx { s with source } with hsame | ⟨o, t, hraised⟩
    · exact Or.inl fun alarm => by simp only [within, hsame]
    · exact Or.inr ⟨o, { t with source := s.source }, fun alarm => by simp only [within, hraised]⟩

theorem watched_ofAlarm (n steps : Nat) (head : Node) (call : Span) :
    Watched fun i => Gate.ofAlarm n i steps head call := by
  intro s
  by_cases h : n ≤ steps
  · refine Or.inr ⟨⟨head, call, s.source⟩, s, fun alarm => ?_⟩
    simp only [Gate.ofAlarm, Gate.watch, if_pos h, raise]
  · refine Or.inl fun alarm => ?_
    simp only [Gate.ofAlarm, Gate.watch, if_neg h]
    rfl

end Watching

end MacroLisp
