import MacroLisp.Evaluation

/-!
# Bodies behind a door

A door is passed on the way into the body of a closure and on the way out of it. The door of the
evaluator makes the source that the closure captured the current one for the time of the body; other
doors also look at what comes out. Through its own door the evaluator evaluates as it does.
-/

namespace MacroLisp

open Eval

/-- How the body of a closure is run. -/
abbrev Door : Type := Closure → Eval Node → Eval Node

/-- The door of the evaluator. -/
def Door.plain : Door := fun closure body => Eval.within closure.source body

def Closure.applyThrough (door : Door) (eval : Evaluator) (closure : Closure) (args : List Node)
    (call : Span) : Eval Node := do
  Eval.ofExcept (closure.params.arity.check "fn" args call)
  let frame ← Eval.newScope closure.scope
  Eval.bindNames frame (closure.params.bindings args call)
  door closure (eval.body frame call closure.body)

def Callable.applyThrough (door : Door) (eval : Evaluator) (callable : Callable) (args : List Node)
    (scope : Scope) (call : Span) : Eval Node :=
  match callable with
  | primitive p => p.apply eval args scope call
  | closure id => do
    match ← Eval.closure? id with
    | some target => target.applyThrough door eval args call
    | none => pure (.nil call)

def Node.applyThrough (door : Door) (eval : Evaluator) (callee : Node) (args : List Node)
    (scope : Scope) (call : Span) : Eval Node :=
  match callee.callable? with
  | some callable => callable.applyThrough door eval args scope call
  | none => Eval.fail (.notCallable callee.typeName callee.pretty) callee.span

def evalExpandedThrough (door : Door) (eval expand : Evaluator) (node : Node) (scope : Scope) :
    Eval Node :=
  match node with
  | .list (head :: tail) span =>
    match head.specialForm? with
    | some form => form.run eval expand tail scope span
    | none => do
      let callee ← eval head scope
      let args ← eval.arguments scope tail
      callee.applyThrough door eval args scope span
  | _ => evalExpandedWith eval expand node scope

def evalThroughWith (door : Door) (eval expand : Evaluator) (node : Node) (scope : Scope) :
    Eval Node :=
  if node.isList then do
    let expanded ← expand node scope
    evalExpandedThrough door eval expand expanded scope
  else evalExpandedThrough door eval expand node scope

def expandThroughFrom (door : Door) (options : EvalOptions) (eval : Evaluator) :
    Nat → Nat → Evaluator
  | 0, _, _, _ => Eval.unfinished
  | fuel + 1, steps, node, scope =>
    match node with
    | .list (head :: tail) span =>
      if head.specialForm?.isSome then pure node
      else do
        match ← eval head scope with
        | .atom (.expander callable) _ =>
          match options.exceeded? steps with
          | some limit => Eval.fail (.expansionLimit limit head.pretty) span
          | none => do
            let output ← callable.applyThrough door eval tail scope span
            Eval.recordIf options.tracing ⟨head.pretty, node, output⟩
            expandThroughFrom door options eval fuel (steps + 1) output scope
        | _ => pure node
    | _ => pure node

def evalThrough (door : Door) (options : EvalOptions) : Nat → Evaluator
  | 0, _, _ => Eval.unfinished
  | depth + 1, node, scope =>
    evalThroughWith door (evalThrough door options depth)
      (expandThroughFrom door options (evalThrough door options depth) depth 0) node scope

def expandThrough (door : Door) (options : EvalOptions) (depth : Nat) : Evaluator :=
  expandThroughFrom door options (evalThrough door options depth) depth 0

section Plain

variable (options : EvalOptions) (ev ex : Evaluator)

theorem Closure.applyThrough_plain (closure : Closure) :
    closure.applyThrough .plain ev = closure.apply ev := rfl

theorem Callable.applyThrough_plain (callable : Callable) :
    callable.applyThrough .plain ev = callable.apply ev := by
  cases callable <;> rfl

theorem Node.applyThrough_plain (callee : Node) :
    callee.applyThrough .plain ev = callee.apply ev := by
  funext args scope call
  unfold Node.applyThrough Node.apply
  cases callee.callable? with
  | some callable => simp only [Callable.applyThrough_plain]
  | none => rfl

theorem evalExpandedThrough_plain :
    evalExpandedThrough .plain ev ex = evalExpandedWith ev ex := by
  funext node scope
  match node with
  | .atom _ _ | .list [] _ => rfl
  | .list (head :: tail) span =>
    unfold evalExpandedThrough evalExpandedWith
    cases hspecial : head.specialForm? with
    | some form => simp only [hspecial]
    | none => simp only [hspecial, Node.applyThrough_plain]

theorem evalThroughWith_plain : evalThroughWith .plain ev ex = evalWith ev ex := by
  funext node scope
  simp only [evalThroughWith, evalWith, evalExpandedThrough_plain]

theorem expandThroughFrom_plain (fuel steps : Nat) :
    expandThroughFrom .plain options ev fuel steps = expandFrom options ev fuel steps := by
  induction fuel generalizing steps with
  | zero => rfl
  | succ fuel ih =>
    funext node scope
    match node with
    | .atom _ _ | .list [] _ => rfl
    | .list (head :: tail) span =>
      refine congrArg (ite _ _) (congrArg (ev head scope >>= ·) (funext fun value => ?_))
      match value with
      | .list _ _ => rfl
      | .atom value _ =>
        cases value with
        | expander callable =>
          cases options.exceeded? steps with
          | some limit => rfl
          | none => simp only [Callable.applyThrough_plain, ih]
        | nil | bool | number | string | symbol | function => rfl

/-- The evaluator goes through its own door. -/
theorem evalThrough_plain (depth : Nat) :
    evalThrough .plain options depth = eval options depth := by
  induction depth with
  | zero => rfl
  | succ depth ih =>
    funext node scope
    rw [evalThrough, eval, ih, evalThroughWith_plain, expandThroughFrom_plain]

theorem expandThrough_plain (depth : Nat) :
    expandThrough .plain options depth = expand options depth := by
  rw [expandThrough, expand, evalThrough_plain, expandThroughFrom_plain]

end Plain

end MacroLisp
