import MacroLisp.Fault
import MacroLisp.Node
import MacroLisp.Number.Notation
import MacroLisp.Text.Blank
import MacroLisp.Token

/-!
# Reader

The reader turns tokens into forms. It keeps the lists and triggers that still wait for forms,
innermost first, and places every finished form into the innermost of them. The first token that
nothing waits for, or the end of the text while something waits, is the fault. A text of blank
characters only holds no forms, whatever its tokens.
-/

namespace MacroLisp

namespace Node

/-- A word is a number, a truth value, nil or else a symbol. -/
def ofWord (run : List Char) (span : Span) : Node :=
  match Number.ofLiteral? run with
  | some x => number x span
  | none =>
    if run = "true".toList then bool true span
    else if run = "false".toList then bool false span
    else if run = "nil".toList then nil span
    else symbol (String.ofList run) span

end Node

/-- The form after a trigger, wrapped; the span covers both. -/
def Trigger.wrap (t : Trigger) (form : Node) (span : Span) : Node := .form t.head [form] span

namespace Reader

/-- A list or a trigger, with its offset, that waits for forms. -/
inductive Pending where
  /-- The items so far, last first. -/
  | list (start : Nat) (items : List Node)
  | trigger (t : Trigger) (start : Nat)

structure Progress where
  /-- What waits, innermost first. -/
  pending : List Pending
  /-- The finished top-level forms, last first. -/
  forms : List Node

/-- Puts a form where it is waited for; a trigger takes it and is itself finished. -/
def place (forms : List Node) : Node → List Pending → Progress
  | node, [] => ⟨[], node :: forms⟩
  | node, .list start items :: pending => ⟨.list start (node :: items) :: pending, forms⟩
  | node, .trigger t start :: pending =>
    place forms (t.wrap node ⟨start, node.span.stop⟩) pending

namespace Progress

def start : Progress := ⟨[], []⟩

def wanted (p : Progress) (offset : Nat) : Wanted :=
  if offset = 0 then .program else if p.pending.isEmpty then .formOrEnd else .form

def refuse (p : Progress) (offset : Nat) : Complaint :=
  ⟨.unexpectedToken (p.wanted offset), offset, offset⟩

def take (p : Progress) (token : Token) : Except Complaint Progress :=
  let span := token.span
  match token.lexeme with
  | .opening => .ok { p with pending := .list span.start [] :: p.pending }
  | .trigger t => .ok { p with pending := .trigger t span.start :: p.pending }
  | .string raw =>
    .ok (place p.forms (.string (String.ofList (Text.Quoted.decode raw)) span) p.pending)
  | .word run => .ok (place p.forms (.ofWord run span) p.pending)
  | .closing =>
    match p.pending with
    | .list start items :: pending =>
      .ok (place p.forms (.list items.reverse ⟨start, span.stop⟩) pending)
    | _ => .error (p.refuse span.start)
  | .unclosed => .error (p.refuse span.start)

def takeAll (p : Progress) : List Token → Except Complaint Progress
  | [] => .ok p
  | token :: tokens =>
    match p.take token with
    | .ok next => next.takeAll tokens
    | .error complaint => .error complaint

end Progress

def formsOf (tokens : List Token) (size : Nat) : Except Complaint (List Node) :=
  match Progress.start.takeAll tokens with
  | .error complaint => .error complaint
  | .ok ⟨[], forms⟩ => .ok forms.reverse
  | .ok ⟨_ :: _, _⟩ => .error ⟨.unexpectedEnd, size, size⟩

def parse (text : String) : Except Complaint (List Node) :=
  if Text.allBlank text.toList then .ok []
  else formsOf (Token.scan text.toList) text.utf8ByteSize

def read (source : Source) : Except Fault (List Node) :=
  (parse source.text).mapError (·.inSource source)

def single (source : Source) : List Node → Except Complaint Node
  | [] => .error ⟨.noForm, source.whole⟩
  | [form] => .ok form
  | _ :: next :: rest =>
    .error ⟨.trailingForms, next.span.join ((next :: rest).getLast (by simp)).span⟩

def readOne (source : Source) : Except Fault Node :=
  match read source with
  | .ok forms => (single source forms).mapError (·.inSource source)
  | .error fault => .error fault

end Reader

end MacroLisp
