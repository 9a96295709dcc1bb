import MacroLisp.CommandLine.Invocation
import MacroLisp.FileTree
import MacroLisp.Node.Dump
import MacroLisp.Repl
import MacroLisp.Report

/-!
# Command line

What each command shows and with which status it ends: 0 for success, 1 for a fault, 2 for wrong
arguments. The files, the standard input and the terminal are given.
-/

namespace MacroLisp.CommandLine

/-- What a command leaves behind: its status, the text shown, and the faults to be reported. -/
structure Result where
  status : Nat
  shown : String
  faults : List Fault

def succeed (shown : String) : Result := ⟨0, shown, []⟩

def failWith (shown : String) (fault : Fault) : Result := ⟨1, shown, [fault]⟩

structure Setting where
  files : Files
  terminal : Terminal
  /-- The bound on the depth of evaluation. -/
  depth : Nat

def versionText : String := "quasi 0.1.0\n"

def helpText : String :=
  "Usage: quasi [--expansion-limit N] <command>\n\n" ++
  "Commands: run FILE, macroexpand FILE, macrotrace FILE, ast FILE, test [PATH], list-atoms, repl\n"

def readSource (files : Files) (path : String) : Except Fault Source :=
  match files.readText path with
  | .ok text => .ok ⟨path, text⟩
  | .error e => .error (.unlocated (.cannotRead path e))

def showPerformance {α : Type} (p : Performance α) (report : α → String) : Result :=
  let lines := printedLines p.emitted.toList
  match p.outcome with
  | .value a => succeed (lines ++ report a)
  | .fault fault => failWith lines fault
  | .unfinished => ⟨1, lines, []⟩

def withSource (s : Setting) (path : String) (action : Source → Result) : Result :=
  match readSource s.files path with
  | .ok source => action source
  | .error fault => failWith "" fault

def dumpSource (source : Source) : Result :=
  match Reader.read source with
  | .error fault => failWith "" fault
  | .ok forms =>
    match Node.dumpForms forms with
    | .ok json => succeed (json.pretty ++ "\n")
    | .error e =>
      failWith "" (.unlocated (.reported .internal ("cannot serialise syntax tree: " ++ e.message)))

/-- Faults of failed tests, then of scripts that could not be run. -/
def suiteFaults (summary : Script.Summary) : List Fault :=
  summary.results.filterMap TestResult.failure ++ summary.broken.map (·.2)

def runTests (s : Setting) (path : String) : Result :=
  match Script.runSuite s.depth s.files path with
  | .fault fault => failWith "" fault
  | .unfinished => ⟨1, "", []⟩
  | .value summary =>
    ⟨if summary.success then 0 else 1, Report.summary s.terminal summary, suiteFaults summary⟩

/-- A session over lines, the last of which may lack its line break; a line that is not UTF-8 ends
it. -/
def interact (s : Setting) (repl : Repl) : List (Option (List Char)) → Result
  | [] => succeed (repl.prompt ++ "\n" ++ Repl.farewell)
  | none :: _ =>
    failWith repl.prompt (.unlocated (.reported .internal
      ("error reading input: " ++ FileError.notUtf8.text)))
  | some line :: lines =>
    let turn := repl.feed s.depth s.terminal line
    let shown := repl.prompt ++ turn.shown
    if turn.finished then ⟨0, shown, turn.faults⟩
    else
      let rest := interact s turn.repl lines
      ⟨rest.status, shown ++ rest.shown, turn.faults ++ rest.faults⟩

def decodeLine (bytes : List UInt8) : Option (List Char) :=
  (String.fromUTF8? ⟨bytes.toArray⟩).map String.toList

def splitLines : List UInt8 → List (List UInt8)
  | [] => []
  | b :: bs =>
    match b == 10, splitLines bs with
    | true, lines => [b] :: lines
    | false, [] => [[b]]
    | false, line :: lines => (b :: line) :: lines

def execute (s : Setting) (limit : Option Nat) (input : ByteArray) : Command → Result
  | .run path => withSource s path fun source =>
    showPerformance ((Engine.new limit).run s.depth source) (Report.value s.terminal)
  | .expand path => withSource s path fun source =>
    showPerformance ((Engine.new limit).expand s.depth source) Report.expansions
  | .trace path => withSource s path fun source =>
    showPerformance ((Engine.new limit).trace s.depth source) (Report.trace s.terminal)
  | .dump path => withSource s path dumpSource
  | .test path => runTests s path
  | .operations => succeed Report.operations
  | .repl =>
    let result := interact s (.start limit) ((splitLines input.toList).map decodeLine)
    { result with shown := Repl.banner ++ result.shown }

def run (s : Setting) (args : List String) (input : ByteArray) : Result :=
  match parse args with
  | none => ⟨2, "", []⟩
  | some .version => succeed versionText
  | some .help => succeed helpText
  | some (.command command limit) => execute s limit input command

theorem run_eq_execute {s : Setting} {args : List String} {command : Command} {limit : Option Nat}
    (h : parse args = some (.command command limit)) (input : ByteArray) :
    run s args input = execute s limit input command := by
  unfold run
  rw [h]

end MacroLisp.CommandLine
