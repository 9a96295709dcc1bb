import MacroLisp.Arguments
import MacroLisp.Number.Magnitude

/-!
# Arithmetic and comparison

Sums and products fold from the left, a sum from negative zero so that an empty sum is negative
zero and a sum of negative zeros stays negative. A division by zero points at the divisor. A
comparison of several arguments holds if it holds between each and the next. Equality compares nodes
of any type, the order comparisons numbers only.
-/

namespace MacroLisp.Builtin

def sum (xs : List Float) : Float := xs.foldl (· + ·) (-0.0)

def product (xs : List Float) : Float := xs.foldl (· * ·) 1.0

/-- One number is negated; of several, the others are taken from the first. -/
def difference : List Float → Float
  | [] => 0.0
  | [x] => -x
  | x :: xs => xs.foldl (· - ·) x

/-- Divides by each divisor in turn; the nodes say where the divisors came from. -/
def divideBy (x : Float) : List (Node × Float) → Except Complaint Float
  | [] => .ok x
  | (node, y) :: rest =>
    if y == 0.0 then .error ⟨.divisionByZero, node.span⟩ else divideBy (x / y) rest

def quotient : List (Node × Float) → Except Complaint Float
  | [] => .ok 0.0
  | [divisor] => divideBy 1.0 [divisor]
  | (_, x) :: divisors => divideBy x divisors

def add (args : List Node) (call : Span) : Except Complaint Node := do
  return .number (sum (← Node.expectNumbers "+" args)) call

def subtract (args : List Node) (call : Span) : Except Complaint Node := do
  (Arity.atLeast 1).check "-" args call
  return .number (difference (← Node.expectNumbers "-" args)) call

def multiply (args : List Node) (call : Span) : Except Complaint Node := do
  return .number (product (← Node.expectNumbers "*" args)) call

def divide (args : List Node) (call : Span) : Except Complaint Node := do
  (Arity.atLeast 1).check "/" args call
  let numbers ← Node.expectNumbers "/" args
  return .number (← quotient (args.zip numbers)) call

def modulo (args : List Node) (call : Span) : Except Complaint Node := do
  (Arity.exactly 2).check "mod" args call
  match args, ← Node.expectNumbers "mod" args with
  | [_, divisor], [x, y] =>
    if y == 0.0 then .error ⟨.moduloByZero, divisor.span⟩
    else .ok (.number (Number.remainder x y) call)
  | _, _ => .error ⟨.wrongArity "mod" (.exactly 2) args.length, call⟩

def chained {α : Type} (holds : α → α → Bool) : List α → Bool
  | x :: y :: rest => holds x y && chained holds (y :: rest)
  | _ => true

def equal (args : List Node) (call : Span) : Except Complaint Node := do
  (Arity.atLeast 2).check "=" args call
  return .bool (chained (· == ·) args) call

def compareNumbers (name : String) (holds : Float → Float → Bool) (args : List Node)
    (call : Span) : Except Complaint Node := do
  (Arity.atLeast 2).check name args call
  return .bool (chained holds (← Node.expectNumbers name args)) call

def less : List Node → Span → Except Complaint Node := compareNumbers "<" fun x y => x < y

def greater : List Node → Span → Except Complaint Node := compareNumbers ">" fun x y => y < x

def lessEqual : List Node → Span → Except Complaint Node := compareNumbers "<=" fun x y => x ≤ y

def greaterEqual : List Node → Span → Except Complaint Node :=
  compareNumbers ">=" fun x y => y ≤ x

def negation (args : List Node) (call : Span) : Except Complaint Node := do
  (Arity.exactly 1).check "not" args call
  return .bool (!args.any Node.isTruthy) call

end MacroLisp.Builtin
