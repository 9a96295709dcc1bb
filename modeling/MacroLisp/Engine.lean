import MacroLisp.Evaluation
import MacroLisp.Reader

/-!
# Engine

An engine keeps one global scope from input to input. It runs a source as a program, lists the
expansions of its forms, or records the expansion steps taken while it runs. Whatever an input did
before it failed stays done.
-/

namespace MacroLisp

structure Engine where
  expansionLimit : Option Nat
  global : Scope
  store : Store

/-- What an input came to: its outcome, the engine after it and the texts emitted by it. -/
structure Performance (α : Type) where
  outcome : Outcome α
  engine : Engine
  emitted : Array Emission

namespace Engine

def new (expansionLimit : Option Nat) : Engine :=
  let (global, store) := Store.initial
  ⟨expansionLimit, global, store⟩

/-- Makes a new global scope. The frames and closures of the old one stay in the store. -/
def reset (engine : Engine) : Engine :=
  let (global, store) := engine.store.newGlobal
  { engine with global, store }

def options (engine : Engine) (tracing : Bool) : EvalOptions :=
  ⟨engine.expansionLimit, tracing⟩

def initialState (engine : Engine) (source : Source) : EvalState :=
  ⟨engine.store, source, #[], #[]⟩

def names (engine : Engine) : List String := engine.store.names engine.global

def get? (engine : Engine) (name : String) : Option Node := engine.store.get? engine.global name

def set (engine : Engine) (name : String) (value : Node) : Engine :=
  { engine with store := engine.store.set engine.global name value }

variable {α : Type}

/-- Reads a source and performs an action on its forms; a source that cannot be read has no
effect. -/
def perform (engine : Engine) (source : Source) (action : List Node → Eval α) : Performance α :=
  match Reader.read source with
  | .error fault => ⟨.fault fault, engine, #[]⟩
  | .ok forms =>
    let (outcome, state) := action forms (engine.initialState source)
    ⟨outcome, { engine with store := state.store }, state.emitted⟩

@[simp] theorem perform_expansionLimit (engine : Engine) (source : Source)
    (action : List Node → Eval α) :
    (engine.perform source action).engine.expansionLimit = engine.expansionLimit := by
  unfold perform
  split <;> rfl

def runForms (engine : Engine) (tracing : Bool) (depth : Nat) (source : Source)
    (forms : List Node) : Eval Node :=
  (eval (engine.options tracing) depth).body engine.global source.whole forms

def run (engine : Engine) (depth : Nat) (source : Source) : Performance Node :=
  engine.perform source (engine.runForms false depth source)

def evalName : String := "<eval>"

/-- The value of a text; what it prints is dropped. -/
def evalText (engine : Engine) (depth : Nat) (text : String) : Performance Node :=
  { engine.run depth ⟨evalName, text⟩ with emitted := #[] }

/-- Expands each form and evaluates the expansion before the next form. -/
def expandForms (engine : Engine) (depth : Nat) : List Node → Eval (List Node)
  | [] => pure []
  | form :: forms => do
    let expansion ← MacroLisp.expand (engine.options false) depth form engine.global
    let _ ← evalExpanded (engine.options false) depth expansion engine.global
    let expansions ← expandForms engine depth forms
    pure (expansion :: expansions)

def expand (engine : Engine) (depth : Nat) (source : Source) : Performance (List Node) :=
  engine.perform source (engine.expandForms depth)

def traceForms (engine : Engine) (depth : Nat) (source : Source) (forms : List Node) :
    Eval (List ExpansionStep) := do
  let _ ← engine.runForms true depth source forms
  fun state => (.value state.trace.toList, state)

def trace (engine : Engine) (depth : Nat) (source : Source) : Performance (List ExpansionStep) :=
  engine.perform source (engine.traceForms depth source)

end Engine

/-- Printed texts gathered into one: a line break goes before a text unless nothing is there. -/
def gather (emitted : List Emission) : String :=
  emitted.foldl (fun buffer e => (if buffer = "" then buffer else buffer ++ "\n") ++ e.text) ""

def printedLines (emitted : List Emission) : String :=
  String.join (emitted.map fun e => e.text ++ "\n")

end MacroLisp
