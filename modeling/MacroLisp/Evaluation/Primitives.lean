import MacroLisp.Builtin.Arithmetic
import MacroLisp.Builtin.Collection
import MacroLisp.Evaluation.Outcome
import MacroLisp.Reader

/-!
# Application of primitives

Most primitives depend on nothing but their arguments and the span of the call. The others read a
form from a string, evaluate a form, list the names that are visible to the caller, or print.
-/

namespace MacroLisp

namespace Primitive

def readName : String := "<read>"

/-- The form in a string, all of it at the span of the call. -/
def readForm (args : List Node) (call : Span) : Eval Node := do
  let text ← Eval.ofExcept (Builtin.oneArgument "read" args call >>= (·.expectString "read"))
  match Reader.readOne ⟨readName, text⟩ with
  | .ok form => pure (form.collapse call)
  | .error fault => Eval.throw fault

/-- Definitions made by the evaluated form stay in a scope of their own. -/
def evalForm (eval : Evaluator) (args : List Node) (scope : Scope) (call : Span) : Eval Node := do
  let form ← Eval.ofExcept (Builtin.oneArgument "eval" args call)
  let child ← Eval.newScope scope
  eval form child

def visibleNames (args : List Node) (scope : Scope) (call : Span) : Eval Node := do
  Eval.ofExcept ((Arity.exactly 0).check "defs" args call)
  let names ← Eval.names scope
  pure (.list (names.map (Node.symbol · call)) call)

def printLine (args : List Node) (call : Span) : Eval Node := do
  Eval.emit (Builtin.joinDisplayed " " args) call
  pure (.nil call)

/-- What a primitive does: most depend on nothing but their arguments and the span of the call. -/
inductive Operation where
  | onValues (run : List Node → Span → Except Complaint Node)
  | read
  | eval
  | defs
  | println

def operation : Primitive → Operation
  | add => .onValues Builtin.add
  | subtract => .onValues Builtin.subtract
  | multiply => .onValues Builtin.multiply
  | divide => .onValues Builtin.divide
  | modulo => .onValues Builtin.modulo
  | equal => .onValues Builtin.equal
  | less => .onValues Builtin.less
  | greater => .onValues Builtin.greater
  | lessEqual => .onValues Builtin.lessEqual
  | greaterEqual => .onValues Builtin.greaterEqual
  | negation => .onValues Builtin.negation
  | cons => .onValues Builtin.cons
  | list => .onValues Builtin.list
  | first => .onValues Builtin.first
  | rest => .onValues Builtin.rest
  | count => .onValues Builtin.count
  | isEmpty => .onValues Builtin.isEmpty
  | isList => .onValues (Builtin.test "list?" Node.isList)
  | isSymbol => .onValues (Builtin.test "symbol?" fun node => node.symbol?.isSome)
  | isNil => .onValues (Builtin.test "nil?" Builtin.isNil)
  | print => .onValues Builtin.print
  | str => .onValues Builtin.str
  | read => .read
  | eval => .eval
  | defs => .defs
  | println => .println

def apply (eval : Evaluator) (p : Primitive) (args : List Node) (scope : Scope) (call : Span) :
    Eval Node :=
  match p.operation with
  | .onValues run => Eval.ofExcept (run args call)
  | .read => readForm args call
  | .eval => evalForm eval args scope call
  | .defs => visibleNames args scope call
  | .println => printLine args call

end Primitive

end MacroLisp
