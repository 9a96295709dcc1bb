import MacroLisp.Evaluation.Application
import MacroLisp.Evaluation.Forms

/-!
# Expansion and evaluation

Expansion replaces a macro call by its result until the form is no macro call. The head of a list is
evaluated to see whether it is a macro, unless it names a special form; the macro is called on the
unevaluated arguments, and its result is expanded again. Arguments are expanded later, when they are
evaluated.

A list is expanded first and then evaluated: by its special form, or by evaluating head and
arguments from left to right and applying. A symbol stands for its value, at the symbol's own span,
and everything else for itself. The depth of nested evaluations is bounded by the first argument;
an evaluation that finishes within a bound has the same outcome within any greater one.
-/

namespace MacroLisp

structure EvalOptions where
  /-- The greatest number of successive expansions of one form. -/
  expansionLimit : Option Nat
  tracing : Bool
deriving DecidableEq

namespace EvalOptions

/-- The limit that one more step after the given number of steps would break. -/
def exceeded? (options : EvalOptions) (steps : Nat) : Option Nat :=
  options.expansionLimit.filter fun limit => limit < steps + 1

end EvalOptions

namespace Eval

def recordIf (tracing : Bool) (step : ExpansionStep) : Eval Unit :=
  if tracing then record step else pure ()

end Eval

/-- Expands a form after so many steps of its expansion; the first argument bounds the further
ones. -/
def expandFrom (options : EvalOptions) (eval : Evaluator) : Nat → Nat → Evaluator
  | 0, _, _, _ => Eval.unfinished
  | fuel + 1, steps, node, scope =>
    match node with
    | .list (head :: tail) span =>
      if head.specialForm?.isSome then pure node
      else do
        match ← eval head scope with
        | .atom (.expander callable) _ =>
          match options.exceeded? steps with
          | some limit => Eval.fail (.expansionLimit limit head.pretty) span
          | none => do
            let output ← callable.apply eval tail scope span
            Eval.recordIf options.tracing ⟨head.pretty, node, output⟩
            expandFrom options eval fuel (steps + 1) output scope
        | _ => pure node
    | _ => pure node

/-- Evaluates a node that needs no expansion; what lies below it is evaluated by `eval`. -/
def evalExpandedWith (eval expand : Evaluator) (node : Node) (scope : Scope) : Eval Node :=
  match node with
  | .symbol name span => do
    match ← Eval.lookup scope name with
    | some value => pure (value.withSpan span)
    | none => Eval.fail (.unbound name) span
  | .list (head :: tail) span =>
    match head.specialForm? with
    | some form => form.run eval expand tail scope span
    | none => do
      let callee ← eval head scope
      let args ← eval.arguments scope tail
      callee.apply eval args scope span
  | _ => pure node

def evalWith (eval expand : Evaluator) (node : Node) (scope : Scope) : Eval Node :=
  if node.isList then do
    let expanded ← expand node scope
    evalExpandedWith eval expand expanded scope
  else evalExpandedWith eval expand node scope

def eval (options : EvalOptions) : Nat → Evaluator
  | 0, _, _ => Eval.unfinished
  | depth + 1, node, scope =>
    evalWith (eval options depth) (expandFrom options (eval options depth) depth 0) node scope

def expand (options : EvalOptions) (depth : Nat) : Evaluator :=
  expandFrom options (eval options depth) depth 0

def evalExpanded (options : EvalOptions) (depth : Nat) : Evaluator :=
  evalExpandedWith (eval options depth) (expand options depth)

end MacroLisp
