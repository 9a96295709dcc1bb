import MacroLisp.Proofs.Evaluation.Composition

/-!
# What a run does to the state

An effect relates the states before and after a computation in a scope. If it is reflexive and
transitive and holds of every single write, then every evaluation has it, finished or not and
whatever its outcome. What is written in a fresh child of any scope is seen from the outside by the
rule `inChild`, which is all that functions and bodies with bindings need.
-/

namespace MacroLisp

/-- The states before and after a computation in a scope. -/
abbrev Effect := Scope → EvalState → EvalState → Prop

/-- The relation holds of each write that the program has, and of any sequence of writes. -/
structure Effect.Closed (R : Effect) : Prop where
  refl : ∀ scope s, R scope s s
  trans : ∀ {scope s t u}, R scope s t → R scope t u → R scope s u
  bindName : ∀ scope name value s, R scope s (Eval.bindName scope name value s).2
  inChild : ∀ {scope parent s u},
    R (s.store.newChild parent).1 (Eval.newScope parent s).2 u → R scope s u
  newClosure : ∀ scope closure s, R scope s (Eval.newClosure closure s).2
  emit : ∀ scope text span s, R scope s (Eval.emit text span s).2
  record : ∀ scope step s, R scope s (Eval.record step s).2
  within : ∀ {scope source s u},
    R scope { s with source } u → R scope s { u with source := s.source }

namespace Eval

variable {α β : Type} {R : Effect} {scope : Scope}

def HasEffect (R : Effect) (scope : Scope) (x : Eval α) : Prop := ∀ s, R scope s (x s).2

variable (hR : R.Closed)

include hR

theorem hasEffect_of_still {x : Eval α} (h : ∀ s, (x s).2 = s) : HasEffect R scope x := by
  intro s
  rw [h s]
  exact hR.refl scope s

omit hR in
theorem hasEffect_attempt {x : Eval α} (hx : HasEffect R scope x) :
    HasEffect R scope (attempt x) := by
  intro s
  have hs := hx s
  unfold attempt
  generalize x s = r at hs ⊢
  obtain ⟨_ | _ | _, t⟩ := r <;> exact hs

theorem hasEffect_act {x : Eval α} (h : Act scope x) : HasEffect R scope x := by
  cases h with
  | bindName name value => exact hR.bindName scope name value
  | newClosure closure => exact hR.newClosure scope closure
  | emit text span => exact hR.emit scope text span
  | pure | unfinished | fail | source | lookup | names | closure? =>
    exact hasEffect_of_still hR fun _ => rfl

theorem hasEffect_bind {x : Eval α} {f : α → Eval β} (hx : HasEffect R scope x)
    (hf : ∀ a, HasEffect R scope (f a)) : HasEffect R scope (x >>= f) := by
  intro s
  have hs := hx s
  rw [bind_apply]
  generalize x s = r at hs ⊢
  obtain ⟨o, t⟩ := r
  cases o with
  | value a => exact hR.trans hs (hf a t)
  | fault f => exact hs
  | unfinished => exact hs

theorem hasEffect_newScope_bind (parent : Scope) {f : Scope → Eval β}
    (hf : ∀ child, HasEffect R child (f child)) : HasEffect R scope (newScope parent >>= f) :=
  fun s => hR.inChild (hf (s.store.newChild parent).1 _)

theorem hasEffect_recordIf (tracing : Bool) (step : ExpansionStep) :
    HasEffect R scope (recordIf tracing step) := by
  cases tracing with
  | false => exact hasEffect_act hR (.pure ())
  | true => exact hR.record scope step

theorem hasEffect_passable :
    Passable (fun _ : Unit => Door.plain) fun scope _ x => HasEffect R scope (x ()) where
  act := hasEffect_act hR
  unreadable _ := hasEffect_of_still hR fun _ => rfl
  bind := hasEffect_bind hR
  inChild parent _ _ := hasEffect_newScope_bind hR parent
  enter closure _ hx s := hR.within (hx { s with source := closure.source })

end Eval

open Eval

/-- Every evaluation has the effect in its own scope. -/
def Evaluator.HasEffect (R : Effect) (ev : Evaluator) : Prop :=
  ∀ node scope, Eval.HasEffect R scope (ev node scope)

section Evaluators

variable {R : Effect} {ev : Evaluator}

theorem Evaluator.HasEffect.family (h : ev.HasEffect R) :
    Evaluator.Family (fun scope _ x => Eval.HasEffect R scope (x ())) fun _ => ev := h

variable (hR : R.Closed)

include hR

theorem body_hasEffect (hev : ev.HasEffect R) (scope : Scope) (span : Span) (forms : List Node) :
    Eval.HasEffect R scope (ev.body scope span forms) :=
  body_passes (hasEffect_passable hR) hev.family scope span forms

theorem callable_hasEffect (hev : ev.HasEffect R) {outside : Scope} (callable : Callable)
    (args : List Node) (scope : Scope) (call : Span) :
    Eval.HasEffect R outside (callable.apply ev args scope call) :=
  callable_family (hasEffect_passable hR) hev.family outside callable args scope call

theorem eval_hasEffect (options : EvalOptions) (depth : Nat) : (eval options depth).HasEffect R :=
  eval_family (hasEffect_passable hR) options (fun _ => hasEffect_recordIf hR options.tracing) depth

theorem expand_hasEffect (options : EvalOptions) (depth : Nat) :
    (expand options depth).HasEffect R :=
  expand_family (hasEffect_passable hR) options (fun _ => hasEffect_recordIf hR options.tracing)
    depth

end Evaluators

end MacroLisp
