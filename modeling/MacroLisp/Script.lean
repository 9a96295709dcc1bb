import MacroLisp.Engine

/-!
# Test scripts

A script is a program some of whose top-level forms are tests, `(test "name" expectation body...)`.
The expectation is `(expect datum)`, for a value equal to the datum, or `(expect-error Kind)`. The
other forms are the setup. Setup forms run once, in the global scope; then every test body runs in a
child scope of its own. A failing setup form fails the script.

A script runs on a fresh engine without an expansion limit. Its tests share the store and nothing
else: each body is evaluated in a new child of the global scope.
-/

namespace MacroLisp

inductive Expectation where
  | value (datum : Node)
  | fault (kind : FaultKind)

structure Test where
  name : String
  expectation : Expectation
  body : List Node
  span : Span

structure Script where
  source : Source
  setup : List Node
  tests : List Test

structure TestResult where
  file : String
  name : String
  failure : Option Fault

def TestResult.passed (result : TestResult) : Bool := result.failure.isNone

namespace Expectation

def ofNode (node : Node) : Except Complaint Expectation :=
  match node with
  | .list [head, datum] _ =>
    match head.symbol? with
    | some "expect" => .ok (value datum)
    | some "expect-error" =>
      match datum.symbol? with
      | none => .error ⟨.badExpectation, node.span⟩
      | some name =>
        match FaultKind.ofName? name with
        | some kind => .ok (fault kind)
        | none => .error ⟨.unknownKind name, datum.span⟩
    | _ => .error ⟨.badExpectation, node.span⟩
  | _ => .error ⟨.badExpectation, node.span⟩

end Expectation

namespace Test

def ofItems (items : List Node) (span : Span) : Except Complaint Test :=
  match items with
  | _ :: name :: expectation :: body =>
    match name.string? with
    | none => .error ⟨.testUnnamed, name.span⟩
    | some title => (Expectation.ofNode expectation).map fun e => ⟨title, e, body, span⟩
  | _ => .error ⟨.testTooShort, span⟩

/-- The fault of a test whose body had the given outcome, or nothing if the test passes. -/
def verdict (test : Test) (source : Source) (outcome : Except Fault Node) : Option Fault :=
  let failure := fun cause => some (Fault.located cause source test.span)
  match test.expectation, outcome with
  | .value datum, .ok found =>
    if found == datum then none else failure (.wrongValue test.name datum.pretty found.pretty)
  | .value _, .error fault => some fault
  | .fault kind, .ok found => failure (.missingFault test.name kind found.pretty)
  | .fault kind, .error fault =>
    if fault.kind = kind then none
    else failure (.wrongFault test.name kind fault.kind fault.cause.display)

end Test

namespace Script

def split : List Node → Except Complaint (List Node × List Test)
  | [] => .ok ([], [])
  | form :: forms =>
    if form.isHeadedBy "test" then
      match Test.ofItems (form.items?.getD []) form.span with
      | .error complaint => .error complaint
      | .ok test => (split forms).map fun s => (s.1, test :: s.2)
    else (split forms).map fun s => (form :: s.1, s.2)

def read (source : Source) : Except Fault Script :=
  match Reader.read source with
  | .error fault => .error fault
  | .ok forms =>
    match split forms with
    | .error complaint => .error (complaint.inSource source)
    | .ok (setup, tests) => .ok ⟨source, setup, tests⟩

def options : EvalOptions := ⟨none, false⟩

def runSetup (depth : Nat) (global : Scope) : List Node → Eval Unit
  | [] => pure ()
  | form :: forms => do
    let _ ← eval options depth form global
    runSetup depth global forms

def runTest (depth : Nat) (global : Scope) (source : Source) (file : String) (test : Test) :
    Eval TestResult := do
  let scope ← Eval.newScope global
  let outcome ← Eval.attempt ((eval options depth).body scope test.span test.body)
  pure ⟨file, test.name, test.verdict source outcome⟩

def runTests (depth : Nat) (global : Scope) (source : Source) (file : String) :
    List Test → Eval (List TestResult)
  | [] => pure []
  | test :: tests => do
    let result ← runTest depth global source file test
    let results ← runTests depth global source file tests
    pure (result :: results)

/-- The results of all tests in order, or the fault of the setup. -/
def run (depth : Nat) (file : String) (script : Script) : Outcome (List TestResult) :=
  let engine := Engine.new none
  let action : Eval (List TestResult) := do
    runSetup depth engine.global script.setup
    runTests depth engine.global script.source file script.tests
  (action (engine.initialState script.source)).1

def runSource (depth : Nat) (source : Source) : Outcome (List TestResult) :=
  match read source with
  | .error fault => .fault fault
  | .ok script => script.run depth source.name

end Script

end MacroLisp
