import MacroLisp.Report
import MacroLisp.Text.Blank

/-!
# Interactive sessions

A session reads lines, gathers them until they are complete, and runs them as one input on an engine
that keeps its definitions. An empty line submits what is there. A line that begins with a colon is
a command, unless input is being gathered.

Input is held back while a list or a string is open in it. The scan knows strings, escapes within
them, and comments, and counts parentheses outside of both. Blank input is not complete.
-/

namespace MacroLisp

structure Repl where
  engine : Engine
  /-- The number of the next input. -/
  number : Nat
  /-- The lines gathered so far, without the last line break. -/
  buffer : List Char

namespace Repl

inductive Place where
  | code
  | string
  /-- After a backslash in a string. -/
  | escape
  | comment
deriving DecidableEq

/-- The place after all characters, and how many more lists were opened than closed. -/
def scan : List Char → Place → Int → Place × Int
  | [], place, open_ => (place, open_)
  | c :: cs, .comment, open_ => scan cs (if c = '\n' then .code else .comment) open_
  | _ :: cs, .escape, open_ => scan cs .string open_
  | c :: cs, .string, open_ =>
    scan cs (if c = '\\' then .escape else if c = '"' then .code else .string) open_
  | c :: cs, .code, open_ =>
    if c = '"' then scan cs .string open_
    else if c = ';' then scan cs .comment open_
    else if c = '(' then scan cs .code (open_ + 1)
    else if c = ')' then scan cs .code (open_ - 1)
    else scan cs .code open_

/-- Surplus closing parentheses do not hold input back: reading it tells of them. -/
def isComplete (input : List Char) : Bool :=
  let trimmed := Text.trim input
  match scan trimmed .code 0 with
  | (place, open_) =>
    !trimmed.isEmpty && open_ ≤ 0 && place ≠ .string && place ≠ .escape

/-- What one line did: the session after it, the text shown, and whether the session is over. -/
structure Turn where
  repl : Repl
  shown : String
  faults : List Fault
  finished : Bool

def start (expansionLimit : Option Nat) : Repl := ⟨.new expansionLimit, 1, []⟩

def banner : String :=
  "quasi REPL v0.1.0\n" ++
  "Type :help for help, :quit to exit, :clear to reset the state\n\n"

def prompt (r : Repl) : String := if r.buffer.isEmpty then "quasi> " else "    -> "

def farewell : String := "Goodbye!\n"

def help : String :=
  "quasi REPL Commands:\n" ++
  "  :help, :h     Show this help\n" ++
  "  :quit, :q     Exit the REPL\n" ++
  "  :defs, :d     List every name visible in the global scope\n" ++
  "  :clear, :c    Forget all definitions and macros\n" ++
  "\n" ++
  "Multi-line expressions are supported; an empty line submits.\n"

inductive Command where
  | help | quit | defs | clear
  | unknown (text : List Char)
deriving DecidableEq

/-- Commands are known by their name or its first letter, in any case. -/
def Command.ofChars (text : List Char) : Command :=
  match String.ofList (text.map Char.toLower) with
  | ":help" | ":h" => .help
  | ":quit" | ":q" => .quit
  | ":defs" | ":d" => .defs
  | ":clear" | ":c" => .clear
  | _ => .unknown text

def obey (r : Repl) : Command → Turn
  | .help => ⟨r, help, [], false⟩
  | .quit => ⟨r, farewell, [], true⟩
  | .defs => ⟨r, " ".intercalate r.engine.names ++ "\n", [], false⟩
  | .clear => ⟨{ r with engine := r.engine.reset }, "Context cleared.\n", [], false⟩
  | .unknown text =>
    ⟨r, "Unknown command: " ++ String.ofList text ++ ". Type :help for available commands.\n", [],
      false⟩

def submit (r : Repl) (depth : Nat) (t : Terminal) (input : List Char) : Turn :=
  let name := "<repl:" ++ toString r.number ++ ">"
  let p := r.engine.run depth ⟨name, String.ofList input⟩
  let next : Repl := ⟨p.engine, r.number + 1, []⟩
  match p.outcome with
  | .value node => ⟨next, printedLines p.emitted.toList ++ Report.value t node, [], false⟩
  | .fault fault => ⟨next, printedLines p.emitted.toList, [fault], false⟩
  | .unfinished => ⟨next, printedLines p.emitted.toList, [], true⟩

def gathered (r : Repl) (line : List Char) : List Char :=
  if r.buffer.isEmpty then line else r.buffer ++ '\n' :: line

def feed (r : Repl) (depth : Nat) (t : Terminal) (text : List Char) : Turn :=
  let line := Text.trimEnd text
  if r.buffer.isEmpty && (Text.trimStart line).head? = some ':' then
    r.obey (.ofChars (Text.trim line))
  else
    let input := r.gathered line
    if isComplete input || line.isEmpty then
      if Text.allBlank input then ⟨{ r with buffer := [] }, "", [], false⟩
      else r.submit depth t input
    else ⟨{ r with buffer := input }, "", [], false⟩

end Repl

end MacroLisp
