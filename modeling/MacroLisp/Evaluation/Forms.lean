import MacroLisp.Evaluation.Application
import MacroLisp.Node

/-!
# Evaluation of special forms

Each special form says which of its arguments are evaluated, where, and in what order. How a node is
evaluated and how it is expanded are parameters.
-/

namespace MacroLisp.SpecialForm

variable (eval : Evaluator) (expand : Evaluator)

def wrongCount (form : SpecialForm) (arity : Arity) (args : List Node) (call : Span) : Eval Node :=
  Eval.fail (.wrongArity form.name arity args.length) call

def runQuote (args : List Node) (call : Span) : Eval Node :=
  match args with
  | [form] => pure form
  | _ => wrongCount .quote (.exactly 1) args call

/-- Without an else branch the other choice is nil at the span of the form. -/
def runCond (args : List Node) (scope : Scope) (call : Span) : Eval Node :=
  match args with
  | [condition, consequent] => do
    if (← eval condition scope).isTruthy then eval consequent scope else pure (.nil call)
  | [condition, consequent, alternative] => do
    if (← eval condition scope).isTruthy then eval consequent scope else eval alternative scope
  | _ => wrongCount .cond ⟨2, some 3⟩ args call

def runDefine (args : List Node) (scope : Scope) (call : Span) : Eval Node :=
  match args with
  | [target, form] => do
    let name ← Eval.ofExcept (target.expectSymbol "def")
    let value ← eval form scope
    Eval.bindName scope name value
    pure value
  | _ => wrongCount .define (.exactly 2) args call

def runLambda (args : List Node) (scope : Scope) (call : Span) : Eval Node :=
  match args with
  | params :: body => do
    let params ← Eval.ofExcept (Params.ofNode params)
    let source ← Eval.source
    let id ← Eval.newClosure ⟨params, body, scope, call, source⟩
    pure (.atom (.function (.closure id)) call)
  | [] => wrongCount .lambda (.atLeast 1) args call

/-- Binds name after name; each value sees the names before it. -/
def bindPairs (frame : Scope) : List Node → Eval Unit
  | target :: form :: rest => do
    let name ← Eval.ofExcept (target.expectSymbol "let")
    let value ← eval form frame
    Eval.bindName frame name value
    bindPairs frame rest
  | _ => pure ()

def runBindings (args : List Node) (scope : Scope) (call : Span) : Eval Node :=
  match args with
  | .list pairs span :: body =>
    if pairs.length % 2 = 0 then do
      let frame ← Eval.newScope scope
      bindPairs eval frame pairs
      eval.body frame call body
    else Eval.fail .unpairedBindings span
  | .atom _ span :: _ => Eval.fail .notBindingList span
  | [] => wrongCount .bindings (.atLeast 1) args call

/-- The only place where a macro is made: it is bound where its definition stands. -/
def runDefineExpander (args : List Node) (scope : Scope) (call : Span) : Eval Node :=
  match args with
  | [target, form] => do
    let name ← Eval.ofExcept (target.expectSymbol "defmacro")
    let value ← eval form scope
    match value.callable? with
    | some callable => do
      Eval.bindName scope name (.atom (.expander callable) value.span)
      pure (.nil call)
    | none => Eval.fail (.notExpander value.typeName value.pretty) form.span
  | _ => wrongCount .defineExpander (.exactly 2) args call

def runExpansion (args : List Node) (scope : Scope) (call : Span) : Eval Node :=
  match args with
  | [form] => expand form scope
  | _ => wrongCount .expansion (.exactly 1) args call

def runTemplate (args : List Node) (scope : Scope) (call : Span) : Eval Node :=
  match args with
  | [form] => eval form.rebuild scope
  | _ => wrongCount .template (.exactly 1) args call

def runTemplateExpansion (args : List Node) (call : Span) : Eval Node :=
  match args with
  | [form] => pure form.rebuild
  | _ => wrongCount .templateExpansion (.exactly 1) args call

def run (form : SpecialForm) (args : List Node) (scope : Scope) (call : Span) : Eval Node :=
  match form with
  | quote => runQuote args call
  | cond => runCond eval args scope call
  | define => runDefine eval args scope call
  | lambda => runLambda args scope call
  | sequence => eval.body scope call args
  | bindings => runBindings eval args scope call
  | defineExpander => runDefineExpander eval args scope call
  | expansion => runExpansion expand args scope call
  | template => runTemplate eval args scope call
  | templateExpansion => runTemplateExpansion args call

end MacroLisp.SpecialForm
