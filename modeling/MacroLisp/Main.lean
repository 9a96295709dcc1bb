import MacroLisp.CommandLine

/-!
# The program

The outer layer of the command line: it reads the files that a command needs, runs the command, and
writes what it shows. An interactive session is run line by line.
-/

namespace MacroLisp.Program

/-- A bound on the depth of evaluation that no machine stack reaches. -/
def depth : Nat := 1000000000

def fileError : IO.Error → FileError
  | .noFileOrDirectory .. => .notFound
  | .inappropriateType .. => .notDirectory
  | e => .other (toString e)

def readText (path : String) : IO (Except FileError String) := do
  let place := (← IO.currentDir) / path
  try
    if (← place.metadata).type == .dir then return .error .isDirectory
    match String.fromUTF8? (← IO.FS.readBinFile place) with
    | some text => return .ok text
    | none => return .error .notUtf8
  catch e => return .error (fileError e)

partial def walk (path : String) : ExceptT WalkError IO (List String) := do
  let place := (← IO.currentDir) / path
  match ← attempt (return (← place.metadata).type) with
  | .file => return [path]
  | .dir =>
    let entries := (← attempt place.readDir).toList
    return (← entries.mapM fun entry => walk (Path.join path entry.fileName)).flatten
  | _ => return []
where
  attempt {α : Type} (action : IO α) : ExceptT WalkError IO α := do
    match ← action.toBaseIO with
    | .ok a => return a
    | .error e => throw ⟨path, fileError e⟩

def noFiles : Files := ⟨fun _ => .error .notFound, fun path => .error ⟨path, .notFound⟩⟩

/-- The files that a command reads. -/
def filesFor : CommandLine.Command → IO Files
  | .run path | .expand path | .trace path | .dump path => do
    let text ← readText path
    return { noFiles with readText := fun _ => text }
  | .test path => do
    let paths ← (walk path).run
    let texts ← (paths.toOption.getD []).mapM fun p => return (p, ← readText p)
    return ⟨fun p => (texts.lookup p).getD (.error .notFound), fun _ => paths⟩
  | .operations | .repl => return noFiles

def showFaults (faults : List Fault) : IO Unit := do
  for fault in faults do
    IO.eprintln fault.cause.display
    if let some help := fault.help then IO.eprintln ("  help: " ++ help)

partial def interact (t : Terminal) (repl : Repl) : IO UInt32 := do
  let out ← IO.getStdout
  out.putStr repl.prompt
  out.flush
  let line ← (← IO.getStdin).getLine
  if line.isEmpty then
    out.putStr ("\n" ++ Repl.farewell)
    return 0
  let turn := repl.feed depth t line.toList
  out.putStr turn.shown
  out.flush
  showFaults turn.faults
  if turn.finished then return 0 else interact t turn.repl

def run (t : Terminal) (args : List String) : IO UInt32 := do
  match CommandLine.parse args with
  | some (.command .repl limit) =>
    (← IO.getStdout).putStr Repl.banner
    interact t (.start limit)
  | some (.command command _) =>
    finish (CommandLine.run ⟨← filesFor command, t, depth⟩ args .empty)
  | _ =>
    let result := CommandLine.run ⟨noFiles, t, depth⟩ args .empty
    if result.status = 2 then IO.eprint CommandLine.helpText
    finish result
where
  finish (result : CommandLine.Result) : IO UInt32 := do
    IO.print result.shown
    showFaults result.faults
    return result.status.toUInt32

end MacroLisp.Program

def main (args : List String) : IO UInt32 := do
  MacroLisp.Program.run ⟨← (← IO.getStdout).isTty⟩ args
