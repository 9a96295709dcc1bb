import MacroLisp.Callable

/-!
# Causes of faults

Each way in which reading, evaluation, a test or the access to a file can fail is a cause, which
holds what its wording needs. `message` is that wording, `advice` the help that goes with some
causes, and `display` and `label` are the forms in which the message is shown. The causes fall into
a few kinds, which have a name, a code shown to users and a title under which messages are
displayed. A script test names the kind that it expects.
-/

namespace MacroLisp

inductive FaultKind where
  | parse | unbound | type | eval | internal | test
deriving DecidableEq

namespace FaultKind

def all : List FaultKind := [.parse, .unbound, .type, .eval, .internal, .test]

def name : FaultKind → String
  | parse => "Parse"
  | unbound => "UnboundSymbol"
  | type => "TypeError"
  | eval => "Eval"
  | internal => "Internal"
  | test => "TestFailure"

def code : FaultKind → String
  | parse => "quasi::parse"
  | unbound => "quasi::unbound"
  | type => "quasi::type"
  | eval => "quasi::eval"
  | internal => "quasi::internal"
  | test => "quasi::test"

def title : FaultKind → String
  | parse => "Parse error"
  | unbound => "Unbound symbol"
  | type => "Type error"
  | eval => "Evaluation error"
  | internal => "Internal error"
  | test => "Test failure"

/-- Two kinds have a second spelling. -/
def ofName? : String → Option FaultKind
  | "ParseError" => some .parse
  | "UnboundSymbolError" => some .unbound
  | name => all.find? fun kind => kind.name = name

theorem ofName?_name (kind : FaultKind) : ofName? kind.name = some kind := by cases kind <;> rfl

end FaultKind

/-- What the reader was ready to take where it met something else. -/
inductive Wanted where
  | program | form | formOrEnd
deriving DecidableEq

def Wanted.text : Wanted → String
  | program => "program"
  | form => "reader_macro, list, number, boolean, nil, symbol, or string"
  | formOrEnd => "EOI, reader_macro, list, number, boolean, nil, symbol, or string"

inductive FileError where
  | notFound | notDirectory | isDirectory | nameTooLong | nulInPath | notUtf8
  | other (text : String)
deriving DecidableEq

def FileError.text : FileError → String
  | notFound => "No such file or directory (os error 2)"
  | notDirectory => "Not a directory (os error 20)"
  | isDirectory => "Is a directory (os error 21)"
  | nameTooLong => "File name too long (os error 36)"
  | nulInPath => "file name contained an unexpected NUL byte"
  | notUtf8 => "stream did not contain valid UTF-8"
  | other text => text

inductive Cause where
  | unexpectedEnd
  | unexpectedToken (wanted : Wanted)
  | noForm
  | trailingForms
  | testTooShort
  | testUnnamed
  | badExpectation
  | unknownKind (name : String)
  | unbound (name : String)
  | wrongType (callee wanted type shown : String)
  | notCallable (type shown : String)
  | notParameterList
  | notBindingList
  | notExpander (type shown : String)
  | wrongArity (callee : String) (arity : Arity) (count : Nat)
  | unpairedBindings
  | badRestParameter (name : String)
  | divisionByZero
  | moduloByZero
  | expansionLimit (limit : Nat) (head : String)
  | cannotRead (path : String) (error : FileError)
  | cannotLoad (path : String) (error : FileError)
  | cannotWalk (path : String) (error : FileError)
  | wrongValue (test wanted found : String)
  | missingFault (test : String) (wanted : FaultKind) (found : String)
  | wrongFault (test : String) (wanted found : FaultKind) (text : String)
  | reported (kind : FaultKind) (text : String)
deriving DecidableEq

namespace Cause

def kind : Cause → FaultKind
  | unexpectedEnd | unexpectedToken _ | noForm | trailingForms | testTooShort | testUnnamed
  | badExpectation | unknownKind _ => .parse
  | unbound _ => .unbound
  | wrongType .. | notCallable .. | notParameterList | notBindingList | notExpander .. => .type
  | wrongArity .. | unpairedBindings | badRestParameter _ | divisionByZero | moduloByZero
  | expansionLimit .. => .eval
  | cannotRead .. | cannotLoad .. | cannotWalk .. => .internal
  | wrongValue .. | missingFault .. | wrongFault .. => .test
  | reported kind _ => kind

def quote (s : String) : String := "'" ++ s ++ "'"

/-- The bare message, without the title of the kind; of an unbound symbol, its name. -/
def message : Cause → String
  | unexpectedEnd => "unexpected end of input (unclosed list or string?)"
  | unexpectedToken wanted => "syntax error: expected " ++ wanted.text
  | noForm => "expected a form, found end of input"
  | trailingForms => "expected a single form, found trailing input"
  | testTooShort => "invalid test form: expected a name and an expectation"
  | testUnnamed => "invalid test form: test name must be a string"
  | badExpectation => "invalid expectation: use (expect <datum>) or (expect-error <ErrorType>)"
  | unknownKind name => "unknown error type " ++ quote name
  | unbound name => name
  | wrongType callee wanted type shown =>
    quote callee ++ " expects a " ++ wanted ++ ", got " ++ type ++ " " ++ shown
  | notCallable type shown => type ++ " is not callable: " ++ shown
  | notParameterList => "'fn' expects a parameter list"
  | notBindingList => "'let' expects a binding list"
  | notExpander type shown => "macro implementation must be a fn, got " ++ type ++ " " ++ shown
  | wrongArity callee arity count =>
    quote callee ++ " expects " ++ arity.text ++ " argument(s), got " ++ toString count
  | unpairedBindings => "'let' bindings must come in name/value pairs"
  | badRestParameter name => "invalid rest parameter " ++ quote name
  | divisionByZero => "division by zero"
  | moduloByZero => "modulo by zero"
  | expansionLimit limit head =>
    "macro expansion limit of " ++ toString limit ++ " exceeded while expanding " ++ quote head
  | cannotRead path error => "cannot read " ++ quote path ++ ": " ++ error.text
  | cannotLoad path error => "failed to read file " ++ quote path ++ ": " ++ error.text
  | cannotWalk path error =>
    "failed to walk directory: IO error for operation on " ++ path ++ ": " ++ error.text
  | wrongValue test wanted found =>
    "\"" ++ test ++ "\": expected " ++ wanted ++ ", got " ++ found
  | missingFault test wanted found =>
    "\"" ++ test ++ "\": expected " ++ wanted.name ++ " error, got " ++ found
  | wrongFault test wanted found text =>
    "\"" ++ test ++ "\": expected " ++ wanted.name ++ " error, got " ++ found.name ++ " error: " ++
      text
  | reported _ text => text

def advice : Cause → Option String
  | notExpander .. => some "define the expander with (fn (args...) body)"
  | badRestParameter _ => some "a rest parameter must be named and come last"
  | expansionLimit .. => some "a macro whose expansion is headed by itself never terminates"
  | _ => none

/-- The message under its title; the name of an unbound symbol is quoted. -/
def display (cause : Cause) : String :=
  cause.kind.title ++ ": " ++ if cause.kind = .unbound then quote cause.message else cause.message

def label (cause : Cause) : String :=
  if cause.kind = .unbound then quote cause.message ++ " is not bound" else cause.message

end Cause

end MacroLisp
