import MacroLisp.Json
import MacroLisp.Node
import MacroLisp.Number.Notation

/-!
# Dumps of nodes

`dump` is the JSON document of a node: its value, tagged by its type, and its span. Functions and
macros have none, and the first of them in reading order is named in the refusal.
-/

namespace MacroLisp

/-- A value that no document can hold. -/
inductive Undumpable where
  | function
  | expander
deriving DecidableEq

def Undumpable.message : Undumpable → String
  | function => "the enum variant Expr::Function cannot be serialized"
  | expander => "the enum variant Expr::Macro cannot be serialized"

def Span.dump (span : Span) : Json :=
  .object [("start", .number (Number.digitChars span.start)),
    ("end", .number (Number.digitChars span.stop))]

def Atom.dump : Atom → Except Undumpable Json
  | nil => .ok (.string "Nil")
  | bool value => .ok (.object [("Bool", .bool value)])
  | number value => .ok (.object [("Number", .number (Number.json value))])
  | string value => .ok (.object [("String", .string value)])
  | symbol name => .ok (.object [("Symbol", .string name)])
  | function _ => .error .function
  | expander _ => .error .expander

namespace Node

def dumpSpanned (value : Json) (span : Span) : Json :=
  .object [("value", value), ("span", span.dump)]

mutual

def dump : Node → Except Undumpable Json
  | atom value span => value.dump.map (dumpSpanned · span)
  | list items span =>
    (dumpItems items).map fun items => dumpSpanned (.object [("List", .array items)]) span

def dumpItems : List Node → Except Undumpable (List Json)
  | [] => .ok []
  | item :: items =>
    match dump item, dumpItems items with
    | .ok first, .ok rest => .ok (first :: rest)
    | .error e, _ => .error e
    | _, .error e => .error e

end

def dumpForms (forms : List Node) : Except Undumpable Json := (dumpItems forms).map .array

end Node

end MacroLisp
