import MacroLisp.Arguments

/-!
# Collections

Operations on lists, and on strings where they have a length. `cons` takes `nil` for the empty list.
-/

namespace MacroLisp.Builtin

def oneArgument (name : String) (args : List Node) (call : Span) : Except Complaint Node :=
  match args with
  | [arg] => .ok arg
  | _ => .error ⟨.wrongArity name (.exactly 1) args.length, call⟩

def cons (args : List Node) (call : Span) : Except Complaint Node :=
  match args with
  | [item, .list items _] => .ok (.list (item :: items) call)
  | [item, .nil _] => .ok (.list [item] call)
  | [_, other] => .error (other.mismatch "cons" "List")
  | _ => .error ⟨.wrongArity "cons" (.exactly 2) args.length, call⟩

def list (args : List Node) (call : Span) : Except Complaint Node := .ok (.list args call)

def first (args : List Node) (call : Span) : Except Complaint Node := do
  let items ← (← oneArgument "first" args call).expectList "first"
  return items.head?.getD (.nil call)

def rest (args : List Node) (call : Span) : Except Complaint Node := do
  let items ← (← oneArgument "rest" args call).expectList "rest"
  return .list items.tail call

/-- The number of items of a list or characters of a string; nil has none. -/
def size? : Node → Option Nat
  | .list items _ => some items.length
  | .string s _ => some s.length
  | .nil _ => some 0
  | _ => none

def expectSize (name : String) (args : List Node) (call : Span) : Except Complaint Nat := do
  let arg ← oneArgument name args call
  arg.expect (size? arg) name "List or String"

def count (args : List Node) (call : Span) : Except Complaint Node := do
  return .number (Float.ofNat (← expectSize "count" args call)) call

def isEmpty (args : List Node) (call : Span) : Except Complaint Node := do
  return .bool ((← expectSize "empty?" args call) == 0) call

def test (name : String) (holds : Node → Bool) (args : List Node) (call : Span) :
    Except Complaint Node := do
  return .bool (holds (← oneArgument name args call)) call

def isNil : Node → Bool
  | .nil _ => true
  | _ => false

def joinDisplayed (separator : String) (args : List Node) : String :=
  separator.intercalate (args.map Node.display)

def str (args : List Node) (call : Span) : Except Complaint Node :=
  .ok (.string (joinDisplayed "" args) call)

def print (args : List Node) (call : Span) : Except Complaint Node := do
  return .string (← oneArgument "print" args call).pretty call

end MacroLisp.Builtin
