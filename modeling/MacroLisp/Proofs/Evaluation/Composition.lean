import MacroLisp.Proofs.Evaluation.Door

/-!
# From the parts to the whole

An evaluation is put together from single acts, from computations one after the other, from what is
done in a fresh child of a scope, and from bodies behind a door. A property of families of
computations is passable if acts have it and each of these ways to put computations together keeps
it. It may depend on the scope that a computation is run in, and an act binds names in that scope
only. So if the evaluations and expansions below have a passable property, everything that is done
with them has it too. This is the only place where the program is gone through for such properties.
-/

namespace MacroLisp

open Eval

/-- What an evaluation in a scope does at a stroke. -/
inductive Eval.Act (scope : Scope) : {α : Type} → Eval α → Prop where
  | pure {α : Type} (a : α) : Act scope (pure a : Eval α)
  | unfinished {α : Type} : Act scope (Eval.unfinished : Eval α)
  | fail {α : Type} (cause : Cause) (span : Span) : Act scope (Eval.fail cause span : Eval α)
  | source : Act scope Eval.source
  | lookup (inner : Scope) (name : String) : Act scope (Eval.lookup inner name)
  | names (inner : Scope) : Act scope (Eval.names inner)
  | closure? (id : ClosureId) : Act scope (Eval.closure? id)
  | bindName (name : String) (value : Node) : Act scope (Eval.bindName scope name value)
  | newClosure (closure : Closure) : Act scope (Eval.newClosure closure)
  | emit (text : String) (span : Span) : Act scope (Eval.emit text span)

/-- A property of families of computations in a scope, one for each of the doors, that passes from
the parts to the whole. -/
structure Passable {ι : Type} (door : ι → Door) (P : Scope → (α : Type) → (ι → Eval α) → Prop) :
    Prop where
  act : ∀ {scope : Scope} {α : Type} {x : Eval α}, Act scope x → P scope α fun _ => x
  unreadable : ∀ {scope : Scope} {text : String} {f : Fault},
    Reader.readOne ⟨Primitive.readName, text⟩ = .error f → P scope Node fun _ => throw f
  bind : ∀ {scope : Scope} {α β : Type} {x : ι → Eval α} {f : ι → α → Eval β},
    P scope α x → (∀ a, P scope β fun i => f i a) → P scope β fun i => x i >>= f i
  inChild : ∀ {scope : Scope} (parent : Scope) {β : Type} {f : ι → Scope → Eval β},
    (∀ child, P child β fun i => f i child) → P scope β fun i => newScope parent >>= f i
  enter : ∀ {scope : Scope} (closure : Closure) {x : ι → Eval Node},
    P scope Node x → P scope Node fun i => door i closure (x i)

/-- The property holds of the evaluations of every node in every scope. -/
def Evaluator.Family {ι : Type} (P : Scope → (α : Type) → (ι → Eval α) → Prop)
    (ev : ι → Evaluator) : Prop :=
  ∀ node scope, P scope Node fun i => ev i node scope

section Layers

variable {ι : Type} {door : ι → Door} {P : Scope → (α : Type) → (ι → Eval α) → Prop}
  (hP : Passable door P) {ev ex : ι → Evaluator} (hev : Evaluator.Family P ev)
  (hex : Evaluator.Family P ex)

include hP

theorem ofExcept_passes {scope : Scope} {α : Type} (r : Except Complaint α) :
    P scope α fun _ => Eval.ofExcept r := by
  cases r with
  | ok a => exact hP.act (.pure a)
  | error complaint => exact hP.act (.fail complaint.cause complaint.span)

theorem bindNames_pass (scope : Scope) (bindings : List (String × Node)) :
    P scope Unit fun _ => bindNames scope bindings := by
  induction bindings with
  | nil => exact hP.act (.pure ())
  | cons b bindings ih => exact hP.bind (hP.act (.bindName b.1 b.2)) fun _ => ih

include hev

theorem body_passes (scope : Scope) (span : Span) :
    ∀ forms, P scope Node fun i => (ev i).body scope span forms
  | [] => hP.act (.pure _)
  | [form] => hev form scope
  | form :: next :: forms =>
    hP.bind (hev form scope) fun _ => body_passes scope span (next :: forms)

theorem arguments_pass (scope : Scope) (args : List Node) :
    P scope (List Node) fun i => (ev i).arguments scope args := by
  induction args with
  | nil => exact hP.act (.pure _)
  | cons arg args ih =>
    exact hP.bind (hev arg scope) fun _ => hP.bind ih fun _ => hP.act (.pure _)

/-- A primitive binds names in fresh scopes only, so it may be run in any scope. -/
theorem primitive_passes (outside : Scope) (p : Primitive) (args : List Node) (scope : Scope)
    (call : Span) : P outside Node fun i => p.apply (ev i) args scope call := by
  unfold Primitive.apply
  cases p.operation with
  | onValues run => exact ofExcept_passes hP _
  | read =>
    refine hP.bind (ofExcept_passes hP _) fun text => ?_
    cases hread : Reader.readOne ⟨Primitive.readName, text⟩ with
    | ok form => exact hP.act (.pure _)
    | error f => exact hP.unreadable hread
  | eval =>
    exact hP.bind (ofExcept_passes hP _) fun form => hP.inChild scope fun child => hev form child
  | defs =>
    refine hP.bind (ofExcept_passes hP _) fun _ => ?_
    exact hP.bind (hP.act (.names scope)) fun _ => hP.act (.pure _)
  | println => exact hP.bind (hP.act (.emit _ _)) fun _ => hP.act (.pure _)

theorem closure_passes (outside : Scope) (closure : Closure) (args : List Node) (call : Span) :
    P outside Node fun i => closure.applyThrough (door i) (ev i) args call := by
  refine hP.bind (ofExcept_passes hP _) fun _ => hP.inChild closure.scope fun frame => ?_
  refine hP.bind (bindNames_pass hP frame _) fun _ => ?_
  exact hP.enter closure (body_passes hP hev frame call closure.body)

theorem callable_passes (outside : Scope) (callable : Callable) (args : List Node) (scope : Scope)
    (call : Span) :
    P outside Node fun i => callable.applyThrough (door i) (ev i) args scope call := by
  cases callable with
  | primitive p => exact primitive_passes hP hev outside p args scope call
  | closure id =>
    refine hP.bind (hP.act (.closure? id)) fun target => ?_
    cases target with
    | some target => exact closure_passes hP hev outside target args call
    | none => exact hP.act (.pure _)

theorem apply_passes (outside : Scope) (callee : Node) (args : List Node) (scope : Scope)
    (call : Span) :
    P outside Node fun i => callee.applyThrough (door i) (ev i) args scope call := by
  unfold Node.applyThrough
  cases callee.callable? with
  | some callable => exact callable_passes hP hev outside callable args scope call
  | none => exact hP.act (.fail _ _)

theorem bindPairs_pass (frame : Scope) :
    ∀ pairs, P frame Unit fun i => SpecialForm.bindPairs (ev i) frame pairs
  | target :: form :: rest => by
    refine hP.bind (ofExcept_passes hP _) fun name => ?_
    refine hP.bind (hev form frame) fun value => ?_
    exact hP.bind (hP.act (.bindName name value)) fun _ => bindPairs_pass frame rest
  | [] | [_] => hP.act (.pure ())

theorem runCond_passes (scope : Scope) (call : Span) :
    ∀ args, P scope Node fun i => SpecialForm.runCond (ev i) args scope call
  | [condition, consequent] => by
    refine hP.bind (hev condition scope) fun value => ?_
    cases value.isTruthy with
    | true => exact hev consequent scope
    | false => exact hP.act (.pure _)
  | [condition, consequent, alternative] => by
    refine hP.bind (hev condition scope) fun value => ?_
    cases value.isTruthy with
    | true => exact hev consequent scope
    | false => exact hev alternative scope
  | [] | [_] | _ :: _ :: _ :: _ :: _ => hP.act (.fail _ _)

theorem runDefine_passes (scope : Scope) (call : Span) :
    ∀ args, P scope Node fun i => SpecialForm.runDefine (ev i) args scope call
  | [_, form] => by
    refine hP.bind (ofExcept_passes hP _) fun name => ?_
    refine hP.bind (hev form scope) fun value => ?_
    exact hP.bind (hP.act (.bindName name value)) fun _ => hP.act (.pure value)
  | [] | [_] | _ :: _ :: _ :: _ => hP.act (.fail _ _)

omit hev in
theorem runLambda_passes (scope : Scope) (call : Span) :
    ∀ args, P scope Node fun _ => SpecialForm.runLambda args scope call
  | _ :: _ => by
    refine hP.bind (ofExcept_passes hP _) fun params => ?_
    refine hP.bind (hP.act .source) fun source => ?_
    exact hP.bind (hP.act (.newClosure _)) fun id => hP.act (.pure _)
  | [] => hP.act (.fail _ _)

theorem runBindings_passes (scope : Scope) (call : Span) :
    ∀ args, P scope Node fun i => SpecialForm.runBindings (ev i) args scope call
  | .list pairs span :: body => by
    by_cases heven : pairs.length % 2 = 0
    · simp only [SpecialForm.runBindings, if_pos heven]
      refine hP.inChild scope fun frame => ?_
      exact hP.bind (bindPairs_pass hP hev frame pairs) fun _ => body_passes hP hev frame call body
    · simp only [SpecialForm.runBindings, if_neg heven]
      exact hP.act (.fail _ _)
  | [] | .atom _ _ :: _ => hP.act (.fail _ _)

theorem runDefineExpander_passes (scope : Scope) (call : Span) :
    ∀ args, P scope Node fun i => SpecialForm.runDefineExpander (ev i) args scope call
  | [_, form] => by
    refine hP.bind (ofExcept_passes hP _) fun name => ?_
    refine hP.bind (hev form scope) fun value => ?_
    cases value.callable? with
    | some callable => exact hP.bind (hP.act (.bindName name _)) fun _ => hP.act (.pure _)
    | none => exact hP.act (.fail _ _)
  | [] | [_] | _ :: _ :: _ :: _ => hP.act (.fail _ _)

include hex

theorem specialForm_passes (form : SpecialForm) (args : List Node) (scope : Scope) (call : Span) :
    P scope Node fun i => form.run (ev i) (ex i) args scope call := by
  cases form with
  | quote =>
    match args with
    | [form] => exact hP.act (.pure form)
    | [] | _ :: _ :: _ => exact hP.act (.fail _ _)
  | cond => exact runCond_passes hP hev scope call args
  | define => exact runDefine_passes hP hev scope call args
  | lambda => exact runLambda_passes hP scope call args
  | sequence => exact body_passes hP hev scope call args
  | bindings => exact runBindings_passes hP hev scope call args
  | defineExpander => exact runDefineExpander_passes hP hev scope call args
  | expansion =>
    match args with
    | [form] => exact hex form scope
    | [] | _ :: _ :: _ => exact hP.act (.fail _ _)
  | template =>
    match args with
    | [form] => exact hev form.rebuild scope
    | [] | _ :: _ :: _ => exact hP.act (.fail _ _)
  | templateExpansion =>
    match args with
    | [form] => exact hP.act (.pure form.rebuild)
    | [] | _ :: _ :: _ => exact hP.act (.fail _ _)

theorem evalExpandedThrough_passes :
    Evaluator.Family P fun i => evalExpandedThrough (door i) (ev i) (ex i) := by
  intro node scope
  match node with
  | .list [] _ => exact hP.act (.pure _)
  | .atom value span =>
    cases value with
    | symbol name =>
      refine hP.bind (hP.act (.lookup scope name)) fun found => ?_
      cases found with
      | some value => exact hP.act (.pure _)
      | none => exact hP.act (.fail _ _)
    | nil | bool | number | string | function | expander => exact hP.act (.pure _)
  | .list (head :: tail) span =>
    cases hspecial : head.specialForm? with
    | some form =>
      simp only [evalExpandedThrough, hspecial]
      exact specialForm_passes hP hev hex form tail scope span
    | none =>
      simp only [evalExpandedThrough, hspecial]
      refine hP.bind (hev head scope) fun callee => ?_
      refine hP.bind (arguments_pass hP hev scope tail) fun args => ?_
      exact apply_passes hP hev scope callee args scope span

theorem evalThroughWith_passes :
    Evaluator.Family P fun i => evalThroughWith (door i) (ev i) (ex i) := by
  intro node scope
  simp only [evalThroughWith]
  cases node.isList with
  | true =>
    refine hP.bind (hex node scope) fun expanded => ?_
    exact evalExpandedThrough_passes hP hev hex expanded scope
  | false => exact evalExpandedThrough_passes hP hev hex node scope

end Layers

section Runs

variable {ι : Type} {door : ι → Door} {P : Scope → (α : Type) → (ι → Eval α) → Prop}
  (hP : Passable door P) (options : EvalOptions)
  (hrecord : ∀ scope step, P scope Unit fun _ => recordIf options.tracing step)

include hP hrecord

theorem expandThroughFrom_passes {ev : ι → Evaluator} (hev : Evaluator.Family P ev)
    (fuel steps : Nat) :
    Evaluator.Family P fun i => expandThroughFrom (door i) options (ev i) fuel steps := by
  induction fuel generalizing steps with
  | zero => exact fun _ _ => hP.act .unfinished
  | succ fuel ih =>
    intro node scope
    match node with
    | .atom _ _ | .list [] _ => exact hP.act (.pure _)
    | .list (head :: tail) span =>
      simp only [expandThroughFrom]
      cases head.specialForm?.isSome with
      | true => exact hP.act (.pure _)
      | false =>
        refine hP.bind (hev head scope) fun value => ?_
        match value with
        | .list _ _ => exact hP.act (.pure _)
        | .atom value _ =>
          cases value with
          | expander callable =>
            dsimp only
            cases options.exceeded? steps with
            | some limit => exact hP.act (.fail _ _)
            | none =>
              have hcall := callable_passes hP hev scope callable tail scope span
              refine hP.bind hcall fun output => ?_
              exact hP.bind (hrecord scope _) fun _ => ih (steps + 1) output scope
          | nil | bool | number | string | symbol | function => exact hP.act (.pure _)

theorem evalThrough_passes (depth : Nat) :
    Evaluator.Family P fun i => evalThrough (door i) options depth := by
  induction depth with
  | zero => exact fun _ _ => hP.act .unfinished
  | succ depth ih =>
    exact evalThroughWith_passes hP ih (expandThroughFrom_passes hP options hrecord ih depth 0)

theorem expandThrough_passes (depth : Nat) :
    Evaluator.Family P fun i => expandThrough (door i) options depth :=
  expandThroughFrom_passes hP options hrecord (evalThrough_passes hP options hrecord depth) depth 0

end Runs

section Plain

variable {ι : Type} {P : Scope → (α : Type) → (ι → Eval α) → Prop}
  (hP : Passable (fun _ => Door.plain) P) {ev ex : ι → Evaluator} (hev : Evaluator.Family P ev)
  (hex : Evaluator.Family P ex)

include hP

section Evaluators

include hev

theorem callable_family (outside : Scope) (callable : Callable) (args : List Node) (scope : Scope)
    (call : Span) : P outside Node fun i => callable.apply (ev i) args scope call := by
  simpa only [Callable.applyThrough_plain] using
    callable_passes hP hev outside callable args scope call

theorem apply_family (outside : Scope) (callee : Node) (args : List Node) (scope : Scope)
    (call : Span) : P outside Node fun i => callee.apply (ev i) args scope call := by
  simpa only [Node.applyThrough_plain] using
    apply_passes hP hev outside callee args scope call

include hex

theorem evalExpandedWith_family : Evaluator.Family P fun i => evalExpandedWith (ev i) (ex i) := by
  simpa only [evalExpandedThrough_plain] using evalExpandedThrough_passes hP hev hex

theorem evalWith_family : Evaluator.Family P fun i => evalWith (ev i) (ex i) := by
  simpa only [evalThroughWith_plain] using evalThroughWith_passes hP hev hex

end Evaluators

variable (options : EvalOptions)
  (hrecord : ∀ scope step, P scope Unit fun _ => recordIf options.tracing step) (depth : Nat)

include hrecord

theorem eval_family : Evaluator.Family P fun _ => eval options depth := by
  simpa only [evalThrough_plain] using evalThrough_passes hP options hrecord depth

theorem expand_family : Evaluator.Family P fun _ => expand options depth := by
  simpa only [expandThrough_plain] using expandThrough_passes hP options hrecord depth

end Plain

/-- A property of families that does not depend on scopes, and holds of every computation that is
the same for all members. -/
structure Eval.Compositional {ι : Type} (P : (α : Type) → (ι → Eval α) → Prop) : Prop where
  const : ∀ {α : Type} (x : Eval α), P α fun _ => x
  bind : ∀ {α β : Type} {x : ι → Eval α} {f : ι → α → Eval β}, P α x → (∀ a, P β fun i => f i a) →
    P β fun i => x i >>= f i
  within : ∀ {α : Type} (source : Source) {x : ι → Eval α}, P α x →
    P α fun i => Eval.within source (x i)

theorem Eval.Compositional.passable {ι : Type} {P : (α : Type) → (ι → Eval α) → Prop}
    (hP : Compositional P) : Passable (fun _ => Door.plain) fun _ => P where
  act _ := hP.const _
  unreadable _ := hP.const _
  bind := hP.bind
  inChild parent _ _ := hP.bind (hP.const (newScope parent))
  enter closure := hP.within closure.source

theorem ite_family {ι : Type} {P : (α : Type) → (ι → Eval α) → Prop} (c : Prop) [Decidable c]
    {α : Type} {x y : ι → Eval α} (hx : P α x) (hy : P α y) :
    P α fun i => if c then x i else y i := by
  by_cases h : c
  · simpa only [if_pos h] using hx
  · simpa only [if_neg h] using hy

end MacroLisp
