/-!
# Invocations

What a command line asks for. Arguments are taken one after another, so the first that is wrong or
that asks for the version or for help decides. The expansion limit may be given before the command
and after it; the one after it stands. A value is never taken from an argument that looks like an
option.
-/

namespace MacroLisp.CommandLine

inductive Command where
  | run (file : String)
  | expand (file : String)
  | trace (file : String)
  | dump (file : String)
  | test (path : String)
  | operations
  | repl
deriving DecidableEq

inductive Invocation where
  | command (c : Command) (expansionLimit : Option Nat)
  | version
  | help
deriving DecidableEq

inductive Verb where
  | run | macroexpand | macrotrace | ast | test | listAtoms | repl
deriving DecidableEq

namespace Verb

def all : List Verb := [.run, .macroexpand, .macrotrace, .ast, .test, .listAtoms, .repl]

def name : Verb → String
  | run => "run"
  | macroexpand => "macroexpand"
  | macrotrace => "macrotrace"
  | ast => "ast"
  | test => "test"
  | listAtoms => "list-atoms"
  | repl => "repl"

def ofName? (name : String) : Option Verb := all.find? fun v => v.name = name

def takesPath : Verb → Bool
  | listAtoms | repl => false
  | _ => true

def defaultTests : String := "tests/scripts"

def command? : Verb → Option String → Option Command
  | run, some file => some (.run file)
  | macroexpand, some file => some (.expand file)
  | macrotrace, some file => some (.trace file)
  | ast, some file => some (.dump file)
  | test, path => some (.test (path.getD defaultTests))
  | listAtoms, none => some .operations
  | repl, none => some .repl
  | _, _ => none

end Verb

def maxLimit : Nat := UInt64.size - 1

/-- Decimal digits, with a plus sign allowed before them. -/
def limit? (text : String) : Option Nat :=
  let digits := match text.toList with
    | '+' :: rest => rest
    | cs => cs
  if digits.isEmpty || !digits.all Char.isDigit then none
  else
    let n := digits.foldl (fun n c => 10 * n + (c.toNat - '0'.toNat)) 0
    if n ≤ maxLimit then some n else none

inductive Shape where
  /-- Two dashes: everything after them is a plain argument. -/
  | separator
  /-- `--name` or `--name=value`. -/
  | long (name : String) (value : Option String)
  /-- A dash and letters. -/
  | short (letters : List Char)
  | plain
deriving DecidableEq

def shapeOf (arg : String) : Shape :=
  match arg.toList with
  | ['-', '-'] => .separator
  | '-' :: '-' :: rest =>
    match rest.dropWhile (· != '=') with
    | [] => .long (String.ofList rest) none
    | _ :: value => .long (String.ofList (rest.takeWhile (· != '='))) (some (String.ofList value))
  | '-' :: c :: rest => .short (c :: rest)
  | _ => .plain

structure Given where
  limit : Option Nat
  path : Option String

namespace Given

def nothing : Given := ⟨none, none⟩

def takeLimit (g : Given) (text : String) : Option Given :=
  if g.limit.isSome then none else (limit? text).map fun n => { g with limit := some n }

/-- The next argument as the limit; it must not look like an option. -/
def takeNextLimit (g : Given) (arg : String) : Option Given :=
  if shapeOf arg = .plain then g.takeLimit arg else none

/-- A plain argument as the path; there may be one, and it is not empty. -/
def takePath (g : Given) (verb : Verb) (arg : String) : Option Given :=
  if verb.takesPath && g.path.isNone && arg ≠ "" then some { g with path := some arg } else none

end Given

def takePaths (verb : Verb) (g : Given) : List String → Option Given
  | [] => some g
  | arg :: args => (g.takePath verb arg).bind fun g => takePaths verb g args

/-- The invocation of a verb; `outer` is the limit given before it. -/
def finish (verb : Verb) (outer : Option Nat) (g : Given) : Option Invocation :=
  (verb.command? g.path).map fun c => .command c (g.limit <|> outer)

/-- What follows a verb. `waiting` says that the last argument was the limit option without its
value. -/
def afterVerb (verb : Verb) (outer : Option Nat) (waiting : Bool) (g : Given) :
    List String → Option Invocation
  | [] => if waiting then none else finish verb outer g
  | arg :: rest =>
    if waiting then (g.takeNextLimit arg).bind fun g => afterVerb verb outer false g rest
    else
      match shapeOf arg with
      | .separator => (takePaths verb g rest).bind (finish verb outer)
      | .long "expansion-limit" none => afterVerb verb outer true g rest
      | .long "expansion-limit" (some value) =>
        (g.takeLimit value).bind fun g => afterVerb verb outer false g rest
      | .long "help" none => some .help
      | .long _ _ => none
      | .short letters => if letters.head? = some 'h' then some .help else none
      | .plain => (g.takePath verb arg).bind fun g => afterVerb verb outer false g rest

/-- The help command takes the name of a command. -/
def helpOn : List String → Option Invocation
  | [] => some .help
  | [name] => if name = "help" || (Verb.ofName? name).isSome then some .help else none
  | _ => none

def beforeVerb (waiting : Bool) (g : Given) : List String → Option Invocation
  | [] => none
  | arg :: rest =>
    if waiting then (g.takeNextLimit arg).bind fun g => beforeVerb false g rest
    else
      match shapeOf arg with
      | .separator => none
      | .long "expansion-limit" none => beforeVerb true g rest
      | .long "expansion-limit" (some value) =>
        (g.takeLimit value).bind fun g => beforeVerb false g rest
      | .long "version" none => some .version
      | .long "help" none => some .help
      | .long _ _ => none
      | .short letters =>
        match letters.head? with
        | some 'V' => some .version
        | some 'h' => some .help
        | _ => none
      | .plain =>
        if arg = "help" then helpOn rest
        else (Verb.ofName? arg).bind fun verb => afterVerb verb g.limit false .nothing rest

def parse (args : List String) : Option Invocation := beforeVerb false .nothing args

end MacroLisp.CommandLine
