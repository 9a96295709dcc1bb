import MacroLisp.Fault
import MacroLisp.Store

/-!
# Outcomes and evaluations

A computation of bounded depth has a value, fails with a fault, or is unfinished when its depth is
used up. An evaluation is such a computation over a state that survives failure: the store, the
source that spans point into, the texts emitted and the expansion steps recorded so far.
-/

namespace MacroLisp

inductive Outcome (α : Type) where
  | value (a : α)
  | fault (f : Fault)
  | unfinished

namespace Outcome

def map {α β : Type} (f : α → β) : Outcome α → Outcome β
  | value a => value (f a)
  | fault e => fault e
  | unfinished => unfinished

def ofExcept {α : Type} : Except Fault α → Outcome α
  | .ok a => value a
  | .error e => fault e

end Outcome

/-- A text that was printed, and the span of the call that printed it. -/
structure Emission where
  text : String
  span : Span

/-- One rewriting of a macro call: the head as written, the call, and the macro's result. -/
structure ExpansionStep where
  head : String
  input : Node
  output : Node

structure EvalState where
  store : Store
  source : Source
  emitted : Array Emission
  trace : Array ExpansionStep

def Eval (α : Type) : Type := EvalState → Outcome α × EvalState

namespace Eval

instance : Monad Eval where
  pure a s := (.value a, s)
  bind action next s :=
    match action s with
    | (.value a, s) => next a s
    | (.fault e, s) => (.fault e, s)
    | (.unfinished, s) => (.unfinished, s)

variable {α β : Type}

theorem pure_apply (a : α) (s : EvalState) : (pure a : Eval α) s = (.value a, s) := rfl

theorem bind_apply (action : Eval α) (next : α → Eval β) (s : EvalState) :
    (action >>= next) s =
      match action s with
      | (.value a, s) => next a s
      | (.fault e, s) => (.fault e, s)
      | (.unfinished, s) => (.unfinished, s) := rfl

instance : LawfulMonad Eval :=
  LawfulMonad.mk' Eval
    (by
      intro α x
      funext s
      show (x >>= pure) s = x s
      rw [bind_apply]
      split <;> simp_all [pure_apply])
    (by intros; rfl)
    (by
      intro α β γ x f g
      funext s
      simp only [bind_apply]
      generalize x s = r
      obtain ⟨_ | _ | _, _⟩ := r <;> rfl)

def unfinished : Eval α := fun s => (.unfinished, s)

def throw (fault : Fault) : Eval α := fun s => (.fault fault, s)

def fail (cause : Cause) (span : Span) : Eval α :=
  fun s => (.fault (.located cause s.source span), s)

/-- A checked result; a complaint is a fault in the current source. -/
def ofExcept : Except Complaint α → Eval α
  | .ok a => pure a
  | .error complaint => fail complaint.cause complaint.span

/-- The outcome as a value, unless the computation is unfinished. -/
def attempt (action : Eval α) : Eval (Except Fault α) := fun s =>
  match action s with
  | (.value a, s) => (.value (.ok a), s)
  | (.fault e, s) => (.value (.error e), s)
  | (.unfinished, s) => (.unfinished, s)

/-- The computation with another current source; afterwards the former one is current again. -/
def within (source : Source) (action : Eval α) : Eval α := fun s =>
  let former := s.source
  let (outcome, s) := action { s with source }
  (outcome, { s with source := former })

def source : Eval Source := fun s => (.value s.source, s)

def lookup (scope : Scope) (name : String) : Eval (Option Node) := fun s =>
  (.value (s.store.get? scope name), s)

def names (scope : Scope) : Eval (List String) := fun s => (.value (s.store.names scope), s)

def bindName (scope : Scope) (name : String) (value : Node) : Eval Unit := fun s =>
  (.value (), { s with store := s.store.set scope name value })

def newScope (parent : Scope) : Eval Scope := fun s =>
  let (scope, store) := s.store.newChild parent
  (.value scope, { s with store })

def newClosure (closure : Closure) : Eval ClosureId := fun s =>
  let (id, store) := s.store.addClosure closure
  (.value id, { s with store })

def closure? (id : ClosureId) : Eval (Option Closure) := fun s => (.value s.store.closures[id]?, s)

def emit (text : String) (span : Span) : Eval Unit := fun s =>
  (.value (), { s with emitted := s.emitted.push ⟨text, span⟩ })

def record (step : ExpansionStep) : Eval Unit := fun s =>
  (.value (), { s with trace := s.trace.push step })

end Eval

abbrev Evaluator := Node → Scope → Eval Node

end MacroLisp
