import MacroLisp.Callable
import MacroLisp.Number.Notation
import MacroLisp.Source
import MacroLisp.Text.Quoted

/-!
# Nodes

Code and data share one representation. A node is an atom or a list of nodes, and carries the span
of the text that it stands for; a node built while a program runs carries the span of the form that
built it. Equality, written `==`, compares contents and never spans: numbers as IEEE doubles, and
callables by identity.

`pretty` is the readable print of a node, on one line: reading it gives an equal node back wherever
the node is plain data. `display` is the same except that a string stands for itself, without
quotes or escapes.

`Node.rebuild` compiles a quasiquoted template into an expression that builds it again: an atom and
the empty list are quoted, `(unquote x)` is `x`, and any other list is the `cons` of its rebuilt
head and its rebuilt tail. The tail is a template of its own, so an `unquote` in the tail position
escapes the whole tail.
-/

namespace MacroLisp

inductive Atom where
  | nil
  | bool (value : Bool)
  | number (value : Float)
  | string (value : String)
  | symbol (name : String)
  | function (callable : Callable)
  /-- A macro: it receives its arguments unevaluated and its result is expanded again. -/
  | expander (callable : Callable)
deriving Inhabited

inductive Node where
  | atom (value : Atom) (span : Span)
  | list (items : List Node) (span : Span)
deriving Inhabited

def Atom.same : Atom → Atom → Bool
  | nil, nil => true
  | bool a, bool b => a == b
  | number x, number y => x == y
  | string s, string t => s == t
  | symbol s, symbol t => s == t
  | function c, function d => c == d
  | expander c, expander d => c == d
  | _, _ => false

def Atom.chars : Atom → List Char
  | nil => "nil".toList
  | bool true => "true".toList
  | bool false => "false".toList
  | number x => Number.plain x
  | string s => '"' :: Text.Quoted.encode s.toList ++ ['"']
  | symbol name => name.toList
  | function c => "<fn ".toList ++ c.name.toList ++ ['>']
  | expander c => "<macro ".toList ++ c.name.toList ++ ['>']

namespace Node

mutual

def same : Node → Node → Bool
  | atom a _, atom b _ => a.same b
  | list xs _, list ys _ => sameAll xs ys
  | _, _ => false

def sameAll : List Node → List Node → Bool
  | [], [] => true
  | x :: xs, y :: ys => same x y && sameAll xs ys
  | _, _ => false

end

instance : BEq Node := ⟨same⟩

@[match_pattern] abbrev nil (span : Span) : Node := atom .nil span
@[match_pattern] abbrev bool (value : Bool) (span : Span) : Node := atom (.bool value) span
@[match_pattern] abbrev number (value : Float) (span : Span) : Node := atom (.number value) span
@[match_pattern] abbrev string (value : String) (span : Span) : Node := atom (.string value) span
@[match_pattern] abbrev symbol (name : String) (span : Span) : Node := atom (.symbol name) span

/-- A list headed by a symbol that carries the span of the whole list. -/
def form (head : String) (args : List Node) (span : Span) : Node :=
  list (symbol head span :: args) span

def span : Node → Span
  | atom _ span => span
  | list _ span => span

/-- The same contents at another span; the items of a list keep theirs. -/
def withSpan (node : Node) (span : Span) : Node :=
  match node with
  | atom value _ => atom value span
  | list items _ => list items span

mutual

/-- The node and everything below it, at one span. -/
def collapse (span : Span) : Node → Node
  | atom value _ => atom value span
  | list items _ => list (collapseItems span items) span

def collapseItems (span : Span) : List Node → List Node
  | [] => []
  | item :: items => collapse span item :: collapseItems span items

end

/-- Only `nil` and `false` count as false. -/
def isTruthy : Node → Bool
  | atom .nil _ => false
  | atom (.bool false) _ => false
  | _ => true

def isList : Node → Bool
  | list _ _ => true
  | atom _ _ => false

def symbol? : Node → Option String
  | atom (.symbol name) _ => some name
  | _ => none

def string? : Node → Option String
  | atom (.string value) _ => some value
  | _ => none

def number? : Node → Option Float
  | atom (.number value) _ => some value
  | _ => none

def items? : Node → Option (List Node)
  | list items _ => some items
  | atom _ _ => none

def callable? : Node → Option Callable
  | atom (.function callable) _ => some callable
  | atom (.expander callable) _ => some callable
  | _ => none

def specialForm? (node : Node) : Option SpecialForm := node.symbol?.bind SpecialForm.ofName?

def isHeadedBy (head : String) : Node → Bool
  | list (first :: _) _ => first.symbol? = some head
  | _ => false

def typeName : Node → String
  | atom .nil _ => "Nil"
  | atom (.bool _) _ => "Bool"
  | atom (.number _) _ => "Number"
  | atom (.string _) _ => "String"
  | atom (.symbol _) _ => "Symbol"
  | atom (.function _) _ => "Function"
  | atom (.expander _) _ => "Macro"
  | list _ _ => "List"

mutual

def chars : Node → List Char
  | atom value _ => value.chars
  | list items _ => '(' :: itemChars items ++ [')']

def itemChars : List Node → List Char
  | [] => []
  | [item] => chars item
  | item :: next :: items => chars item ++ ' ' :: itemChars (next :: items)

end

def pretty (node : Node) : String := String.ofList node.chars

def display (node : Node) : String := node.string?.getD node.pretty

def unquoteName : String := "unquote"

/-- The span of the items after the first, up to the end of the list. -/
def tailSpan (tail : List Node) (whole : Span) : Span :=
  ⟨(tail.head?.map (·.span.start)).getD whole.stop, whole.stop⟩

mutual

def rebuild : Node → Node
  | atom value span => form "quote" [atom value span] span
  | list items span => rebuildItems items span

/-- The template is the list of the items, with the given span. -/
def rebuildItems : List Node → Span → Node
  | [], span => form "quote" [list [] span] span
  | head :: tail, span =>
    if head.symbol? = some unquoteName then tail.head?.getD (nil span)
    else form "cons" [rebuild head, rebuildItems tail (tailSpan tail span)] span

end

end Node

end MacroLisp
