import MacroLisp.Proofs.Evaluation.Effect
import MacroLisp.Proofs.Evaluation.Logs
import MacroLisp.Proofs.Likeness.Engine
import MacroLisp.Proofs.Likeness.Spans
import MacroLisp.Proofs.Reader.Joining

/-!
# One input or two

A program may be given to an engine as one input or cut in two between its forms. The forms are
evaluated in the same order and in the same global scope. The second input begins in the store that
the first one has left, prints from the start, and its forms stand at other offsets of another
source; nothing of this can be seen by an evaluation but in the spans.
-/

namespace MacroLisp

open Eval

section Shift

variable {store : Store} (k : Nat)

mutual

theorem Node.like_shift (node : Node) :
    node.Like (Comparison.sameButSpans.likeness store) (node.shift k) :=
  match node with
  | .atom value _ => .atom value.like_same fun h => False.elim h
  | .list items _ => like_list (items_like_shift items) fun h => False.elim h

theorem Node.items_like_shift (items : List Node) :
    List.Forall₂ (Node.Like (Comparison.sameButSpans.likeness store)) items (shiftItems k items) :=
  match items with
  | [] => .nil
  | item :: items => .cons item.like_shift (items_like_shift items)

end

end Shift

theorem Evaluator.body_append (ev : Evaluator) (scope : Scope) (span : Span) (forms : List Node)
    {others : List Node} (hothers : others ≠ []) :
    ev.body scope span (forms ++ others) =
      ev.body scope span forms >>= fun _ => ev.body scope span others := by
  induction forms with
  | nil => rfl
  | cons form forms ih =>
    cases forms with
    | nil =>
      obtain ⟨other, rest, rfl⟩ := List.exists_cons_of_ne_nil hothers
      rfl
    | cons next forms =>
      rw [List.cons_append, List.cons_append, body, ← List.cons_append, ih, body, bind_assoc]

def sourceKept : Effect := fun _ s t => t.source = s.source

theorem sourceKept_closed : sourceKept.Closed where
  refl _ _ := rfl
  trans hst htu := htu.trans hst
  bindName _ _ _ _ := rfl
  inChild h := h
  newClosure _ _ _ := rfl
  emit _ _ _ _ := rfl
  record _ _ _ := rfl
  within _ := rfl

theorem Outcome.SameButSpans.value_iff {L : Likeness} {o o' : Outcome Node}
    (h : o.SameButSpans L o') : (∃ v, o = .value v) ↔ ∃ v, o' = .value v := by
  cases h with
  | value => exact ⟨fun _ => ⟨_, rfl⟩, fun _ => ⟨_, rfl⟩⟩
  | fault => exact ⟨nofun, nofun⟩
  | unfinished => exact ⟨nofun, nofun⟩

namespace Performance

def texts {α : Type} (p : Performance α) : List String := p.emitted.toList.map (·.text)

/-- The same outcome and the same engine but for spans and sources. -/
structure SameButSpans (p q : Performance Node) : Prop where
  outcome : p.outcome.SameButSpans (Comparison.sameButSpans.likeness p.engine.store) q.outcome
  engine : p.engine.Like .sameButSpans q.engine

end Performance

namespace Engine

variable (engine : Engine) (depth : Nat)

/-- The performance of an input that consists of the given forms. -/
def performForms (source : Source) (forms : List Node) : Performance Node :=
  let (outcome, state) := engine.runForms false depth source forms (engine.initialState source)
  ⟨outcome, { engine with store := state.store }, state.emitted⟩

theorem like_same : engine.Like .sameButSpans engine :=
  ⟨rfl, ((engine.initialState default).like_same default).store, engine.global.like_same⟩

theorem run_of_parse {source : Source} {forms : List Node}
    (h : Reader.parse source.text = .ok forms) :
    engine.run depth source = engine.performForms depth source forms := by
  rw [run, perform, Reader.read, h]
  rfl

section Sequence

variable (source : Source) (forms : List Node) {others : List Node} (hothers : others ≠ [])

include hothers

/-- Forms behind forms that have succeeded are performed by the engine that those have left. -/
theorem performForms_append {v : Node}
    (h : (engine.performForms depth source forms).outcome = .value v) :
    let before := engine.performForms depth source forms
    let after := before.engine.performForms depth source others
    engine.performForms depth source (forms ++ others) =
      ⟨after.outcome, after.engine, before.emitted ++ after.emitted⟩ := by
  have hlogs := body_ignoresLogs (eval_ignoresLogs (engine.options false) depth) engine.global
    source.whole others
  have hsource := body_hasEffect sourceKept_closed
    (eval_hasEffect sourceKept_closed (engine.options false) depth) engine.global source.whole forms
    (engine.initialState source)
  unfold performForms runForms at h ⊢
  rw [Evaluator.body_append _ _ _ _ hothers, bind_apply]
  generalize (eval (engine.options false) depth).body engine.global source.whole forms
    (engine.initialState source) = r at h hsource ⊢
  obtain ⟨o, store, former, emitted, trace⟩ := r
  obtain rfl : o = .value v := h
  obtain rfl : source = former := hsource.symm
  have hrest := hlogs emitted trace ⟨store, source, #[], #[]⟩
  rw [EvalState.behind, Array.append_empty, Array.append_empty] at hrest
  simp only [initialState] at hrest ⊢
  rw [hrest]
  rfl

theorem performForms_append_of_not_value
    (h : ∀ v, (engine.performForms depth source forms).outcome ≠ .value v) :
    engine.performForms depth source (forms ++ others) =
      engine.performForms depth source forms := by
  unfold performForms runForms at h ⊢
  rw [Evaluator.body_append _ _ _ _ hothers, bind_apply]
  generalize (eval (engine.options false) depth).body engine.global source.whole forms
    (engine.initialState source) = r at h ⊢
  obtain ⟨o, t⟩ := r
  cases o with
  | value v => exact absurd rfl (h v)
  | fault f => rfl
  | unfinished => rfl

end Sequence

variable {engine} {other : Engine} {forms forms' : List Node}

/-- Like engines perform forms that are the same up to spans alike, in whatever sources. -/
theorem performForms_like (h : engine.Like .sameButSpans other)
    (hforms : List.Forall₂ (Node.Like (Comparison.sameButSpans.likeness engine.store)) forms forms')
    (source source' : Source) :
    let p := engine.performForms depth source forms
    let q := other.performForms depth source' forms'
    p.SameButSpans q ∧ p.texts = q.texts := by
  have hstate : (engine.initialState source).Like .sameButSpans (other.initialState source') :=
    ⟨h.store, fun h => h.elim, fun _ => .nil, fun _ => .nil⟩
  have hoptions : engine.options false = other.options false := by
    rw [options, options, h.limit]
  have hbody := body_like (eval_like (c := .sameButSpans) (engine.options false) depth) h.global
    (fun h => h.elim : (Comparison.sameButSpans.likeness engine.store).Agree source.whole
      source'.whole) hforms
  have hsame := sameButSpans_of_like hbody trivial hstate (.refl _)
  obtain ⟨-, -, hgrown⟩ := hbody _ _ hstate (.refl _)
  unfold performForms runForms
  rw [← hoptions]
  exact ⟨⟨hsame.outcome, h.limit, hsame.bindings, h.global.mono hgrown⟩, hsame.emitted⟩

end Engine

section Joined

variable {first second joined : Source} {forms others : List Node}

open Engine

/-- Two inputs in a row come to the same as both in one input with a line feed between them: the
outcome is that of the second input, everything is printed that either prints, and the engine is the
one after both. If the first input does not succeed, the one input comes to the same as the first
input alone, and no form of the second is evaluated. -/
theorem run_joined (hblank : Text.allBlank first.text.toList = false)
    (hfirst : Reader.parse first.text = .ok forms) (hsecond : Reader.parse second.text = .ok others)
    (hothers : others ≠ []) (hjoined : joined.text = first.text ++ "\n" ++ second.text)
    (engine : Engine) (depth : Nat) :
    let alone := engine.run depth first
    let next := alone.engine.run depth second
    let whole := engine.run depth joined
    (∀ v, alone.outcome = .value v →
      next.SameButSpans whole ∧ whole.texts = alone.texts ++ next.texts) ∧
    ((∀ v, alone.outcome ≠ .value v) →
      alone.SameButSpans whole ∧ whole.texts = alone.texts ∧
        whole = engine.performForms depth joined forms) := by
  have hparse := Reader.parse_joined hblank hfirst hothers hsecond
  rw [← hjoined] at hparse
  generalize hk : first.text.utf8ByteSize + 1 = k at hparse
  have hshifted : others.map (Node.shift k) ≠ [] := by
    rwa [Ne, List.map_eq_nil_iff]
  obtain ⟨hsame, htexts⟩ := performForms_like depth engine.like_same
    (Node.items_like_same forms) first joined
  simp only [run_of_parse _ _ hfirst, run_of_parse _ _ hsecond, run_of_parse _ _ hparse]
  refine ⟨fun v hv => ?_, fun hnone => ?_⟩
  · obtain ⟨v', hv'⟩ := hsame.outcome.value_iff.1 ⟨v, hv⟩
    obtain ⟨hnext, hrest⟩ := performForms_like depth hsame.engine
      (Node.items_like_shift k others) second joined
    rw [Node.shiftItems_eq_map] at hnext hrest
    rw [performForms_append engine depth joined forms hshifted hv']
    refine ⟨⟨hnext.outcome, hnext.engine⟩, ?_⟩
    rw [htexts, hrest]
    simp only [Performance.texts, Array.toList_append, List.map_append]
  · have hnone' (v : Node) : (engine.performForms depth joined forms).outcome ≠ .value v := by
      intro hv
      obtain ⟨v', hv'⟩ := hsame.outcome.value_iff.2 ⟨v, hv⟩
      exact hnone v' hv'
    rw [performForms_append_of_not_value engine depth joined forms hshifted hnone']
    exact ⟨hsame, htexts.symm, rfl⟩

end Joined

theorem run_joined_comment :
    let first : Source := ⟨"first", "nil;c"⟩
    let second : Source := ⟨"second", "'nil"⟩
    let joined : Source := ⟨"joined", "nil;c\n'nil"⟩
    let engine := Engine.new none
    let alone := engine.run 2 first
    let next := alone.engine.run 2 second
    let whole := engine.run 2 joined
    (Text.allBlank first.text.toList = false ∧
      Reader.parse first.text = .ok [.nil ⟨0, 3⟩] ∧
      Reader.parse second.text = .ok [.form "quote" [.nil ⟨1, 4⟩] ⟨0, 4⟩]) ∧
    (∀ v, alone.outcome = .value v →
      next.SameButSpans whole ∧ whole.texts = alone.texts ++ next.texts) ∧
    ((∀ v, alone.outcome ≠ .value v) →
      alone.SameButSpans whole ∧ whole.texts = alone.texts ∧
        whole = engine.performForms 2 joined [.nil ⟨0, 3⟩]) := by
  intro first second joined engine alone next whole
  have hblank : Text.allBlank first.text.toList = false := by decide
  have hfirst : Reader.parse first.text = .ok [.nil ⟨0, 3⟩] := by
    have htokens : Token.scan first.text.toList = [⟨.word ['n', 'i', 'l'], 0, 3⟩] := by
      decide +kernel
    rw [Reader.parse, if_neg (by decide), htokens]
    exact (Reader.Brackets.word .nil .nil).formsOf_eq _
  have hsecond : Reader.parse second.text = .ok [.form "quote" [.nil ⟨1, 4⟩] ⟨0, 4⟩] := by
    have htokens : Token.scan second.text.toList =
        [⟨.trigger .quote, 0, 1⟩, ⟨.word ['n', 'i', 'l'], 1, 4⟩] := by decide +kernel
    rw [Reader.parse, if_neg (by decide), htokens]
    exact (Reader.Brackets.prefixed (.word .nil .nil)).formsOf_eq _
  exact ⟨⟨hblank, hfirst, hsecond⟩,
    run_joined hblank hfirst hsecond (List.cons_ne_nil _ _) rfl engine 2⟩

end MacroLisp
