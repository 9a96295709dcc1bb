import MacroLisp.Proofs.Spans.Session

/-!
# The spans of the services

A new engine knows no nodes but those of its one input. So whatever it is asked to do with the
input, to run it, to list its expansions or to trace them, a fault points into the input, or into a
text that was given to `read` and that the reader refuses. What the engine returns lies within the
input.
-/

namespace MacroLisp

open Eval

/-- The fault points into the source or, if the reader refuses a text given to `read`, into that
text. -/
def Fault.Placed (source : Source) (f : Fault) : Prop :=
  ∃ cause named span, f = .located cause named span ∧ named.Contains span ∧
    (cause.kind ∈ FaultKind.ofEvaluation ∧ named = source ∨
      cause.kind = .parse ∧ (named = source ∨
        ∃ text, named = ⟨Primitive.readName, text⟩ ∧ Reader.readOne named = .error f))

def Outcome.Placed {α : Type} (source : Source) (P : α → Prop) : Outcome α → Prop
  | value a => P a
  | fault f => f.Placed source
  | unfinished => True

def ExpansionStep.Within (n : Nat) (step : ExpansionStep) : Prop :=
  step.input.Within n ∧ step.output.Within n

section Outcomes

variable {source : Source}

theorem Fault.Bounded.placed {f : Fault} (h : f.Bounded source.size (· = source)) :
    f.Placed source := by
  obtain ⟨c, named, rfl, ⟨⟨hkind, hspan⟩, rfl⟩ | ⟨⟨hkind, hspan⟩, hnamed⟩⟩ := h
  · exact ⟨c.cause, named, c.span, rfl, hspan, Or.inl ⟨hkind, rfl⟩⟩
  · refine ⟨c.cause, named, c.span, rfl, hspan, Or.inr ⟨List.mem_singleton.1 hkind, ?_⟩⟩
    refine hnamed.imp_right fun ⟨hname, hread⟩ => ⟨named.text, ?_, hread⟩
    rw [← hname]

theorem Outcome.Bounded.placed {α : Type} {P : α → Prop} {o : Outcome α}
    (h : o.Bounded source.size (· = source) P) : o.Placed source P := by
  cases o with
  | value a => exact h
  | fault f => exact Fault.Bounded.placed h
  | unfinished => trivial

end Outcomes

section Actions

variable {n : Nat} {S : Source → Prop} {engine : Engine} {forms : List Node}
  (hforms : ∀ form ∈ forms, form.Within n)

include hforms

theorem expandForms_bounded (depth : Nat) :
    (engine.expandForms depth forms).Bounded n S fun expansions =>
      ∀ expansion ∈ expansions, expansion.Within n := by
  have hev : (eval (engine.options false) depth).Bounded n S := eval_bounded _ depth
  have hex := expandFrom_bounded hev (engine.options false) depth 0
  induction forms with
  | nil => exact bounded_pure (List.forall_mem_nil _)
  | cons form forms ih =>
    obtain ⟨hform, hforms⟩ := List.forall_mem_cons.1 hforms
    refine bounded_bind (hex form engine.global hform) fun expansion hexpansion => ?_
    refine bounded_bind (evalExpandedWith_bounded hev hex _ engine.global hexpansion) fun _ _ => ?_
    exact bounded_bind (ih hforms) fun expansions hexpansions =>
      bounded_pure (List.forall_mem_cons.2 ⟨hexpansion, hexpansions⟩)

theorem traceForms_bounded (depth : Nat) {source : Source} (hsource : source.size ≤ n) :
    (engine.traceForms depth source forms).Bounded n S fun steps => ∀ step ∈ steps, step.Within n :=
  bounded_bind (runForms_bounded true depth hsource hforms) fun _ _ =>
    bounded_read fun _ hs step hstep => hs.trace step (Array.mem_toList_iff.1 hstep)

end Actions

section New

variable (expansionLimit : Option Nat) (depth : Nat) (source : Source)

/-- On a new engine, an input that fails does so with a fault of reading or of evaluation, and it
points into the text of the source it names: the input itself or, for a fault of reading, a text
that was given to `read`. An input that succeeds returns only nodes within the input. -/
theorem services_placed :
    ((Engine.new expansionLimit).run depth source).outcome.Placed source (·.Within source.size) ∧
      ((Engine.new expansionLimit).expand depth source).outcome.Placed source
        (fun expansions => ∀ expansion ∈ expansions, expansion.Within source.size) ∧
      ((Engine.new expansionLimit).trace depth source).outcome.Placed source
        (fun steps => ∀ step ∈ steps, step.Within source.size) := by
  have hstore : (Engine.new expansionLimit).store.Bounded source.size (· = source) :=
    Store.bounded_initial
  refine ⟨Outcome.Bounded.placed (perform_bounded hstore rfl fun forms hforms => ?_).1,
    Outcome.Bounded.placed (perform_bounded hstore rfl fun forms hforms => ?_).1,
    Outcome.Bounded.placed (perform_bounded hstore rfl fun forms hforms => ?_).1⟩
  · exact runForms_bounded false depth (Nat.le_refl _) hforms
  · exact expandForms_bounded hforms depth
  · exact traceForms_bounded hforms depth (Nat.le_refl _)

end New

end MacroLisp
