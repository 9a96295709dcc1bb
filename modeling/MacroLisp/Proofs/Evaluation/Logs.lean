import MacroLisp.Proofs.Evaluation.Composition

/-!
# Evaluations do not read their logs

What was printed and traced before is never looked at: with other emissions and steps before its
own, an evaluation comes to the same outcome, and its own emissions and steps are the same. So what
two evaluations in a row print is what the one prints and then what the other prints.
-/

namespace MacroLisp

/-- The state with these emissions and steps before its own. -/
def EvalState.behind (emitted : Array Emission) (trace : Array ExpansionStep) (s : EvalState) :
    EvalState :=
  { s with emitted := emitted ++ s.emitted, trace := trace ++ s.trace }

namespace Eval

variable {α β : Type}

def IgnoresLogs (x : Eval α) : Prop :=
  ∀ emitted trace s, x (s.behind emitted trace) = ((x s).1, (x s).2.behind emitted trace)

theorem ignoresLogs_act {scope : Scope} {x : Eval α} (h : Act scope x) : IgnoresLogs x := by
  cases h with
  | emit text span =>
    intro emitted trace s
    simp only [emit, EvalState.behind, Array.append_push]
  | pure | unfinished | fail | source | lookup | names | closure? | bindName | newClosure =>
    exact fun _ _ _ => rfl

theorem ignoresLogs_bind {x : Eval α} {f : α → Eval β} (hx : IgnoresLogs x)
    (hf : ∀ a, IgnoresLogs (f a)) : IgnoresLogs (x >>= f) := by
  intro emitted trace s
  rw [bind_apply, bind_apply, hx emitted trace s]
  generalize x s = r
  obtain ⟨o, t⟩ := r
  cases o with
  | value a => exact hf a emitted trace t
  | fault f => rfl
  | unfinished => rfl

theorem ignoresLogs_recordIf (tracing : Bool) (step : ExpansionStep) :
    IgnoresLogs (recordIf tracing step) := by
  cases tracing with
  | false => exact fun _ _ _ => rfl
  | true =>
    intro emitted trace s
    simp only [recordIf, if_true, record, EvalState.behind, Array.append_push]

theorem ignoresLogs_within (source : Source) {x : Eval α} (hx : IgnoresLogs x) :
    IgnoresLogs (within source x) := by
  intro emitted trace s
  have h := hx emitted trace { s with source }
  unfold within
  rw [EvalState.behind] at h ⊢
  rw [h]
  rfl

theorem ignoresLogs_passable :
    Passable (fun _ : Unit => Door.plain) fun _ _ x => IgnoresLogs (x ()) where
  act := ignoresLogs_act
  unreadable _ := fun _ _ _ => rfl
  bind := ignoresLogs_bind
  inChild _ := ignoresLogs_bind fun _ _ _ => rfl
  enter closure := ignoresLogs_within closure.source

end Eval

open Eval

def Evaluator.IgnoresLogs (ev : Evaluator) : Prop := ∀ node scope, Eval.IgnoresLogs (ev node scope)

section Evaluators

variable {ev : Evaluator}

theorem Evaluator.IgnoresLogs.family (h : ev.IgnoresLogs) :
    Evaluator.Family (fun _ _ x => Eval.IgnoresLogs (x ())) fun _ => ev := h

theorem body_ignoresLogs (hev : ev.IgnoresLogs) (scope : Scope) (span : Span) (forms : List Node) :
    Eval.IgnoresLogs (ev.body scope span forms) :=
  body_passes ignoresLogs_passable hev.family scope span forms

theorem callable_ignoresLogs (hev : ev.IgnoresLogs) (callable : Callable) (args : List Node)
    (scope : Scope) (call : Span) : Eval.IgnoresLogs (callable.apply ev args scope call) :=
  callable_family ignoresLogs_passable hev.family scope callable args scope call

theorem eval_ignoresLogs (options : EvalOptions) (depth : Nat) :
    (eval options depth).IgnoresLogs :=
  eval_family ignoresLogs_passable options (fun _ => ignoresLogs_recordIf options.tracing) depth

end Evaluators

end MacroLisp
