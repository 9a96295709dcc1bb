import MacroLisp.Fault
import MacroLisp.Node

/-!
# Arguments and parameters

The arguments of a special form or a primitive are checked in number first, against the span of the
call, and then in type, against their own spans. A parameter list names the required arguments of a
function in order. Its last symbol may begin with three dots: the rest of that symbol names the list
of all further arguments.
-/

namespace MacroLisp

namespace Arity

def check (arity : Arity) (callee : String) (args : List Node) (call : Span) :
    Except Complaint Unit :=
  if arity.accepts args.length then .ok ()
  else .error ⟨.wrongArity callee arity args.length, call⟩

end Arity

namespace Node

def mismatch (node : Node) (callee wanted : String) : Complaint :=
  ⟨.wrongType callee wanted node.typeName node.pretty, node.span⟩

def expect {α : Type} (node : Node) (contents : Option α) (callee wanted : String) :
    Except Complaint α :=
  match contents with
  | some a => .ok a
  | none => .error (node.mismatch callee wanted)

def expectNumber (node : Node) (callee : String) : Except Complaint Float :=
  node.expect node.number? callee "Number"

def expectString (node : Node) (callee : String) : Except Complaint String :=
  node.expect node.string? callee "String"

def expectSymbol (node : Node) (callee : String) : Except Complaint String :=
  node.expect node.symbol? callee "Symbol"

def expectList (node : Node) (callee : String) : Except Complaint (List Node) :=
  node.expect node.items? callee "List"

def expectNumbers (callee : String) (args : List Node) : Except Complaint (List Float) :=
  args.mapM (·.expectNumber callee)

end Node

structure Params where
  required : List String
  rest : Option String
  span : Span
deriving DecidableEq

namespace Params

def restMark : List Char := "...".toList

/-- The name after the mark of a rest parameter. -/
def restName? (name : String) : Option String :=
  if restMark.isPrefixOf name.toList then some (String.ofList (name.toList.drop restMark.length))
  else none

def arity (p : Params) : Arity :=
  match p.rest with
  | none => .exactly p.required.length
  | some _ => .atLeast p.required.length

def ofItems : List Node → Except Complaint (List String × Option String)
  | [] => .ok ([], none)
  | item :: items =>
    match item.expectSymbol "fn" with
    | .error complaint => .error complaint
    | .ok name =>
      match restName? name with
      | some rest =>
        if rest = "" ∨ items ≠ [] then .error ⟨.badRestParameter name, item.span⟩
        else .ok ([], some rest)
      | none => (ofItems items).map fun p => (name :: p.1, p.2)

def ofNode (node : Node) : Except Complaint Params :=
  match node.items? with
  | none => .error ⟨.notParameterList, node.span⟩
  | some items => (ofItems items).map fun p => ⟨p.1, p.2, node.span⟩

end Params

end MacroLisp
