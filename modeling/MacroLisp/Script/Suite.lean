import MacroLisp.FileTree
import MacroLisp.Script

/-!
# Suites

A suite is all test scripts at or below a path: the regular files with the extension `lisp`, in the
order of their paths. Every script is run; one that cannot be read or set up is listed with its
fault and has no results.
-/

namespace MacroLisp.Script

/-- The last component ends in the extension and is more than it. -/
def isScriptPath (path : String) : Bool :=
  match (Path.components path).getLast? with
  | none => false
  | some name => ".lisp".toList.isSuffixOf name.toList && name ≠ ".lisp"

def discover (files : Files) (path : String) : Except Fault (List String) :=
  match files.walk path with
  | .error e => .error (.unlocated (.cannotWalk e.path e.error))
  | .ok paths => .ok (Path.sort (paths.filter isScriptPath))

def load (files : Files) (path : String) : Except Fault Script :=
  match files.readText path with
  | .error e => .error (.unlocated (.cannotLoad path e))
  | .ok text => read ⟨path, text⟩

structure Summary where
  results : List TestResult
  /-- The scripts that could not be run. -/
  broken : List (String × Fault)

namespace Summary

def passed (s : Summary) : Nat := s.results.countP TestResult.passed

def failed (s : Summary) : Nat := s.results.countP fun r => !r.passed

def success (s : Summary) : Bool := s.failed = 0 && s.broken.isEmpty

theorem passed_add_failed (s : Summary) : s.passed + s.failed = s.results.length := by
  simpa [passed, failed] using (s.results.length_eq_countP_add_countP TestResult.passed).symm

end Summary

def runFile (depth : Nat) (files : Files) (path : String) : Outcome (List TestResult) :=
  match load files path with
  | .error fault => .fault fault
  | .ok script => script.run depth path

def runFiles (depth : Nat) (files : Files) : List String → Outcome Summary
  | [] => .value ⟨[], []⟩
  | path :: paths =>
    match runFile depth files path, runFiles depth files paths with
    | .value results, .value s => .value { s with results := results ++ s.results }
    | .fault fault, .value s => .value { s with broken := (path, fault) :: s.broken }
    | .unfinished, _ => .unfinished
    | _, rest => rest

def runSuite (depth : Nat) (files : Files) (path : String) : Outcome Summary :=
  match discover files path with
  | .error fault => .fault fault
  | .ok paths => runFiles depth files paths

end MacroLisp.Script
