import MacroLisp.Fault.Cause
import MacroLisp.Source

/-!
# Faults

Every stage fails with a `Fault`: a cause, and where known the source and the span that it points
into. A `Complaint` is a cause and a span whose source is not known yet, and a check ends with a
result or a complaint.
-/

namespace MacroLisp

structure Fault where
  cause : Cause
  span : Option Span
  source : Option Source
  /-- Advice given in place of the cause's own. -/
  note : Option String
deriving DecidableEq

namespace Fault

def located (cause : Cause) (source : Source) (span : Span) : Fault :=
  ⟨cause, some span, some source, none⟩

def unlocated (cause : Cause) : Fault := ⟨cause, none, none, none⟩

def kind (fault : Fault) : FaultKind := fault.cause.kind

def help (fault : Fault) : Option String := fault.note <|> fault.cause.advice

/-- Other advice; the last one given stands. -/
def withHelp (fault : Fault) (text : String) : Fault := { fault with note := some text }

end Fault

/-- What went wrong and where, before it is known in which source. -/
structure Complaint where
  cause : Cause
  span : Span
deriving DecidableEq

def Complaint.inSource (c : Complaint) (source : Source) : Fault := .located c.cause source c.span

/-- A checked result with the property `P`, or a complaint with the property `C`. -/
def Checked {α : Type} (C : Complaint → Prop) (P : α → Prop) : Except Complaint α → Prop
  | .ok a => P a
  | .error c => C c

section Checked

variable {α β : Type} {C : Complaint → Prop} {P : α → Prop} {Q : β → Prop}

theorem checked_bind {x : Except Complaint α} {f : α → Except Complaint β} (hx : Checked C P x)
    (hf : ∀ a, P a → Checked C Q (f a)) : Checked C Q (x >>= f) := by
  cases x with
  | ok a => exact hf a hx
  | error c => exact hx

theorem checked_map {x : Except Complaint α} {f : α → β} (hx : Checked C P x)
    (hf : ∀ a, P a → Q (f a)) : Checked C Q (x.map f) := by
  cases x with
  | ok a => exact hf a hx
  | error c => exact hx

variable {x : Except Complaint α} {source : Source}

theorem Checked.of_inSource_ok (hx : Checked C P x) {a : α}
    (h : x.mapError (·.inSource source) = .ok a) : P a := by
  cases x with
  | ok a =>
    cases h
    exact hx
  | error c => cases h

theorem Checked.of_inSource_error (hx : Checked C P x) {f : Fault}
    (h : x.mapError (·.inSource source) = .error f) :
    ∃ c : Complaint, f = c.inSource source ∧ C c := by
  cases x with
  | ok a => cases h
  | error c =>
    cases h
    exact ⟨c, rfl, hx⟩

end Checked

end MacroLisp
