import MacroLisp.Engine
import MacroLisp.Script.Suite
import MacroLisp.Text.WordDiff

/-!
# Reports

How results are shown to a user: the value of a program, expansions, the steps of a trace with their
word differences, and the results of a test suite. A terminal may show colours; on one that does not
nothing but the text is written.
-/

namespace MacroLisp

inductive Color where
  | red | green | yellow
deriving DecidableEq

def Color.code : Color → String
  | red => "31"
  | green => "32"
  | yellow => "33"

structure Terminal where
  colored : Bool
deriving DecidableEq

namespace Terminal

def escape (t : Terminal) (code : String) : String :=
  if t.colored then "\x1b[" ++ code ++ "m" else ""

def reset (t : Terminal) : String := t.escape "0"

/-- Ends the style before and begins the new one. -/
def start (t : Terminal) (color : Color) (bold : Bool) : String :=
  t.reset ++ (if bold then t.escape "1" else "") ++ t.escape color.code

def bold (t : Terminal) (color : Color) (text : String) : String :=
  t.start color true ++ text ++ t.reset

end Terminal

namespace Report

variable (t : Terminal)

/-- The printed value on a line of its own; nothing is shown for nil. -/
def value : Node → String
  | .nil _ => ""
  | node => t.bold .green (node.pretty ++ "\n")

def expansions (nodes : List Node) : String :=
  String.join (nodes.map fun node => node.pretty ++ "\n")

def change : Text.WordDiff.Change → String
  | .same text => t.reset ++ text
  | .added text => t.start .green false ++ "\x7b+" ++ text ++ "+\x7d"
  | .removed text => t.start .red false ++ "[-" ++ text ++ "-]"

def changes (cs : List Text.WordDiff.Change) : String :=
  (t.reset ++ " ").intercalate (cs.map (change t)) ++ t.reset ++ "\n"

def step (number : Nat) (s : ExpansionStep) : String :=
  t.bold .yellow ("--- Step " ++ toString number ++ ": " ++ s.head ++ " ---\n") ++
    changes t (Text.WordDiff.changes s.input.pretty s.output.pretty) ++ "\n"

def stepsFrom (number : Nat) : List ExpansionStep → String
  | [] => ""
  | s :: rest => step t number s ++ stepsFrom (number + 1) rest

def trace (steps : List ExpansionStep) : String :=
  if steps.isEmpty then "(no macro expansions)\n" else stepsFrom t 1 steps

def status (label : String) (color : Color) (message : String) : String :=
  t.bold color label ++ " " ++ message ++ "\n"

def testResult (r : TestResult) : String :=
  let title := r.file ++ " :: " ++ r.name
  if r.passed then status t "PASS" .green title else status t "FAIL" .red title

def summary (s : Script.Summary) : String :=
  String.join (s.results.map (testResult t)) ++
    String.join (s.broken.map fun b => status t "ERROR" .red b.1) ++
    "\n" ++ toString s.passed ++ " passed, " ++ toString s.failed ++ " failed\n"

def column (name : String) : String :=
  name ++ String.ofList (List.replicate (18 - name.length) ' ')

def operationNames : List String :=
  Text.sortNames (SpecialForm.all.map SpecialForm.name ++ Primitive.all.map Primitive.name)

def operations : String :=
  String.join (operationNames.map fun name =>
    column name ++ " " ++
      (if (SpecialForm.ofName? name).isSome then "special form" else "primitive") ++ "\n")

end Report

end MacroLisp
