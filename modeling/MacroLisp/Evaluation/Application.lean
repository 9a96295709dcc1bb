import MacroLisp.Evaluation.Outcome
import MacroLisp.Evaluation.Primitives

/-!
# Application

What it means to call a callable with its arguments, given how nodes are evaluated. Bodies and
arguments are evaluated from left to right, and the first fault ends the sequence. A closure runs
its body in a fresh child of the scope that it captured, and in the source that it was read from.
-/

namespace MacroLisp

namespace Evaluator

/-- The value of the last form of a body, or nil at the given span. -/
def body (eval : Evaluator) (scope : Scope) (span : Span) : List Node → Eval Node
  | [] => pure (.nil span)
  | [form] => eval form scope
  | form :: next :: forms => do
    let _ ← eval form scope
    body eval scope span (next :: forms)

def arguments (eval : Evaluator) (scope : Scope) : List Node → Eval (List Node)
  | [] => pure []
  | arg :: args => do
    let value ← eval arg scope
    let values ← arguments eval scope args
    pure (value :: values)

end Evaluator

namespace Params

/-- The name and value of each parameter; the call's span goes to the list of further arguments. -/
def bindings (p : Params) (args : List Node) (call : Span) : List (String × Node) :=
  p.required.zip args ++
    (p.rest.map fun name => (name, Node.list (args.drop p.required.length) call)).toList

end Params

namespace Eval

def bindNames (scope : Scope) : List (String × Node) → Eval Unit
  | [] => pure ()
  | (name, value) :: rest => do
    bindName scope name value
    bindNames scope rest

end Eval

namespace Closure

/-- A wrong number of arguments is the caller's fault; it is found before the body is entered. -/
def apply (eval : Evaluator) (closure : Closure) (args : List Node) (call : Span) : Eval Node := do
  Eval.ofExcept (closure.params.arity.check "fn" args call)
  let frame ← Eval.newScope closure.scope
  Eval.bindNames frame (closure.params.bindings args call)
  Eval.within closure.source (eval.body frame call closure.body)

end Closure

namespace Callable

def apply (eval : Evaluator) (callable : Callable) (args : List Node) (scope : Scope)
    (call : Span) : Eval Node :=
  match callable with
  | primitive p => p.apply eval args scope call
  | closure id => do
    match ← Eval.closure? id with
    | some target => target.apply eval args call
    | none => pure (.nil call)

end Callable

namespace Node

def apply (eval : Evaluator) (callee : Node) (args : List Node) (scope : Scope) (call : Span) :
    Eval Node :=
  match callee.callable? with
  | some callable => callable.apply eval args scope call
  | none => Eval.fail (.notCallable callee.typeName callee.pretty) callee.span

end Node

end MacroLisp
