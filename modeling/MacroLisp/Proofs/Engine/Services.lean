import MacroLisp.Engine
import MacroLisp.Proofs.Evaluation.Round
import MacroLisp.Proofs.Evaluation.Status

/-!
# The services of an engine

Running a source, listing its expansions and recording its expansion steps are three ways through
the same evaluation. To evaluate a form is to expand it and to evaluate the expansion, so a run and
a list of expansions leave the same behind form by form. Recording steps is the comparison of two
runs whose traces are not related at all.
-/

namespace MacroLisp

open Eval
open EvalState (Alike)

namespace EvalState

/-- States with the same store, source and emissions. -/
abbrev SameButTrace : EvalState → EvalState → Prop := Alike fun _ _ => True

theorem SameButTrace.symm {s t : EvalState} (h : SameButTrace s t) : SameButTrace t s :=
  ⟨h.store.symm, h.source.symm, h.emitted.symm, trivial⟩

theorem SameButTrace.refl (s : EvalState) : SameButTrace s s := ⟨rfl, rfl, rfl, trivial⟩

end EvalState

open EvalState (SameButTrace)

section Tracing

variable (limit : Option Nat) (tracing tracing' : Bool) (depth : Nat)

theorem follow_tracing :
    EvalOptions.Follow (fun _ => False) (fun _ _ => True) ⟨limit, tracing⟩ ⟨limit, tracing'⟩ where
  below _ h := h
  beyond _ _ h := Or.inl h
  record _ _ _ _ := trivial

theorem outcome_eq_of_follows {α : Type} {x y : Eval α}
    (hxy : Follows (fun _ => False) (fun _ _ => True) x y)
    (hyx : Follows (fun _ => False) (fun _ _ => True) y x) {s t : EvalState}
    (h : SameButTrace s t) :
    (y t).1 = (x s).1 ∧ ((x s).1.Finished → SameButTrace (x s).2 (y t).2) := by
  rcases hxy s t h with hcut | ⟨houtcome, hstate⟩
  · have hx := Outcome.unfinished_of_cutOff hcut
    rcases hyx t s h.symm with hcut' | ⟨houtcome, hstate⟩
    · have hy := Outcome.unfinished_of_cutOff hcut'
      exact ⟨hy.trans hx.symm, fun hfin => by rw [hx] at hfin; exact hfin.elim⟩
    · exact ⟨houtcome.symm, fun _ => SameButTrace.symm hstate⟩
  · exact ⟨houtcome, fun _ => hstate⟩

theorem eval_tracing (node : Node) (scope : Scope) {s t : EvalState} (h : SameButTrace s t) :
    (eval ⟨limit, tracing'⟩ depth node scope t).1 = (eval ⟨limit, tracing⟩ depth node scope s).1 ∧
      ((eval ⟨limit, tracing⟩ depth node scope s).1.Finished →
        SameButTrace (eval ⟨limit, tracing⟩ depth node scope s).2
          (eval ⟨limit, tracing'⟩ depth node scope t).2) :=
  outcome_eq_of_follows
    (eval_follows (follow_tracing limit tracing tracing') (Nat.le_refl depth) node scope)
    (eval_follows (follow_tracing limit tracing' tracing) (Nat.le_refl depth) node scope) h

end Tracing

namespace Performance

variable {α β : Type}

structure Like (p : Performance α) (q : Performance β) : Prop where
  status : p.outcome.status = q.outcome.status
  emitted : p.emitted = q.emitted
  engine : p.engine = q.engine

theorem Like.symm {p : Performance α} {q : Performance β} (h : p.Like q) : q.Like p :=
  ⟨h.status.symm, h.emitted.symm, h.engine.symm⟩

/-- Services that finish on the same inputs, and whenever they have finished, both have succeeded or
failed with the same fault, emitted the same and left the same engine. -/
structure Agree (p : Nat → Performance α) (q : Nat → Performance β) : Prop where
  finish : (∃ d, (p d).outcome.Finished) ↔ ∃ d, (q d).outcome.Finished
  like : ∀ d d', (p d).outcome.Finished → (q d').outcome.Finished → (p d).Like (q d')

def Deepens (p : Nat → Performance α) : Prop :=
  ∀ d d', d ≤ d' → (p d).outcome.Finished → p d' = p d

theorem agree_of_like {p : Nat → Performance α} {q : Nat → Performance β} (hp : Deepens p)
    (hq : Deepens q) (k l : Nat)
    (h : ∀ d, (p (d + k)).outcome.Finished ∨ (q (d + l)).outcome.Finished →
      (p (d + k)).Like (q (d + l))) : Agree p q where
  finish := by
    constructor
    · rintro ⟨d, hd⟩
      have hdeep : (p (d + k)).outcome.Finished := by
        rw [hp d (d + k) (by omega) hd]
        exact hd
      exact ⟨d + l, Outcome.finished_of_status_eq (h d (Or.inl hdeep)).status hdeep⟩
    · rintro ⟨d, hd⟩
      have hdeep : (q (d + l)).outcome.Finished := by
        rw [hq d (d + l) (by omega) hd]
        exact hd
      exact ⟨d + k, Outcome.finished_of_status_eq (h d (Or.inr hdeep)).symm.status hdeep⟩
  like d d' hd hd' := by
    have hpd : p (max d d' + k) = p d := hp d _ (by omega) hd
    have hqd : q (max d d' + l) = q d' := hq d' _ (by omega) hd'
    have hlike := h (max d d')
    rw [hpd, hqd] at hlike
    exact hlike (Or.inl hd)

end Performance

open Performance (Agree agree_of_like)

namespace Engine

variable (engine : Engine) (source : Source)

/-- Apart from their results, a run and a list of expansions are one computation. -/
theorem runForms_dropped (depth : Nat) (forms : List Node) :
    (engine.runForms false (depth + 2) source forms).dropped =
      (engine.expandForms (depth + 1) forms).dropped := by
  induction forms with
  | nil => rfl
  | cons form forms ih =>
    have hfirst : (engine.expandForms (depth + 1) (form :: forms)).dropped =
        eval (engine.options false) (depth + 2) form engine.global >>= fun _ =>
          (engine.expandForms (depth + 1) forms).dropped := by
      rw [eval_eq_expand_bind]
      simp only [expandForms, dropped, bind_assoc, pure_bind]
    rw [hfirst, ← ih]
    cases forms with
    | nil => rfl
    | cons next forms => exact dropped_bind _ _

/-- The expansions listed for the first forms are those that a list of the first forms gives, and
the next one is what the next form expands to in the state reached by then. -/
theorem expandForms_take {depth : Nat} {forms : List Node} {expansions : List Node}
    {s u : EvalState} (h : engine.expandForms depth forms s = (.value expansions, u)) :
    expansions.length = forms.length ∧ ∀ i form, forms[i]? = some form → ∃ expansion t t',
      expansions[i]? = some expansion ∧
        engine.expandForms depth (forms.take i) s = (.value (expansions.take i), t) ∧
        MacroLisp.expand (engine.options false) depth form engine.global t =
          (.value expansion, t') := by
  induction forms generalizing expansions s with
  | nil =>
    cases h
    exact ⟨rfl, fun i form hi => by simp at hi⟩
  | cons form forms ih =>
    obtain ⟨expansion, s₁, hexp, h⟩ := bind_eq_value h
    obtain ⟨value, s₂, hval, h⟩ := bind_eq_value h
    obtain ⟨rest, s₃, hrest, h⟩ := bind_eq_value h
    cases h
    obtain ⟨hlength, hnth⟩ := ih hrest
    refine ⟨congrArg Nat.succ hlength, fun i other hi => ?_⟩
    cases i with
    | zero =>
      obtain rfl : form = other := by simpa using hi
      exact ⟨expansion, s, s₁, rfl, rfl, hexp⟩
    | succ i =>
      obtain ⟨nth, t, t', hget, htake, hform⟩ := hnth i other (by simpa using hi)
      refine ⟨nth, t, t', by simpa using hget, ?_, hform⟩
      simp only [List.take_succ_cons, expandForms, bind_apply, hexp, hval, htake]
      rfl

theorem runForms_deepens (tracing : Bool) (forms : List Node) :
    Deepens fun d => engine.runForms tracing d source forms :=
  body_deepens _ _ _ _

theorem expandForms_deepens (forms : List Node) : Deepens fun d => engine.expandForms d forms := by
  induction forms with
  | nil => exact deepens_const _
  | cons form forms ih =>
    refine deepens_bind (expand_deepens _ _ form) fun expansion => ?_
    refine deepens_bind (evalExpanded_deepens _ _ expansion) fun _ => ?_
    exact deepens_bind ih fun _ => deepens_const _

theorem traceForms_deepens (forms : List Node) :
    Deepens fun d => engine.traceForms d source forms :=
  deepens_bind (engine.runForms_deepens source true forms) fun _ => deepens_const _

theorem perform_deepens {α : Type} {action : Nat → List Node → Eval α}
    (hact : ∀ forms, Deepens fun d => action d forms) :
    Performance.Deepens fun d => engine.perform source (action d) := by
  intro d d' hd hfin
  unfold perform at hfin ⊢
  cases hread : Reader.read source with
  | error f => rfl
  | ok forms =>
    rw [hread] at hfin
    have h := hact forms d d' (engine.initialState source) hd hfin
    simp only [h]

theorem perform_like {α β : Type} {action : List Node → Eval α} {action' : List Node → Eval β}
    (h : ∀ forms,
      (action forms (engine.initialState source)).1.status =
          (action' forms (engine.initialState source)).1.status ∧
        ((action forms (engine.initialState source)).1.Finished →
          SameButTrace (action forms (engine.initialState source)).2
            (action' forms (engine.initialState source)).2))
    (hfin : (engine.perform source action).outcome.Finished ∨
      (engine.perform source action').outcome.Finished) :
    (engine.perform source action).Like (engine.perform source action') := by
  unfold perform at hfin ⊢
  cases hread : Reader.read source with
  | error f => exact ⟨rfl, rfl, rfl⟩
  | ok forms =>
    obtain ⟨hstatus, hsame⟩ := h forms
    rw [hread] at hfin
    have hstate := hsame (hfin.elim id (Outcome.finished_of_status_eq hstatus.symm))
    exact ⟨hstatus, hstate.emitted, by simp only [hstate.store]⟩

theorem run_agree_expand : Agree (engine.run · source) (engine.expand · source) := by
  refine agree_of_like (engine.perform_deepens source (engine.runForms_deepens source false))
    (engine.perform_deepens source engine.expandForms_deepens) 2 1 fun d hfin => ?_
  refine engine.perform_like source (fun forms => ?_) hfin
  obtain ⟨hstatus, hstate⟩ :=
    dropped_congr (engine.runForms_dropped source d forms) (engine.initialState source)
  exact ⟨hstatus, fun _ => hstate ▸ SameButTrace.refl _⟩

theorem traceForms_dropped (depth : Nat) (forms : List Node) :
    (engine.traceForms depth source forms).dropped =
      (engine.runForms true depth source forms).dropped :=
  dropped_bind (engine.runForms true depth source forms)
    fun _ state => (.value state.trace.toList, state)

theorem run_agree_trace : Agree (engine.run · source) (engine.trace · source) := by
  refine agree_of_like (engine.perform_deepens source (engine.runForms_deepens source false))
    (engine.perform_deepens source (engine.traceForms_deepens source)) 0 0 fun d hfin => ?_
  refine engine.perform_like source (fun forms => ?_) hfin
  have hfollow (tracing tracing' : Bool) :
      Follows (fun _ => False) (fun _ _ => True) (engine.runForms tracing d source forms)
        (engine.runForms tracing' d source forms) :=
    body_follows (eval_follows (follow_tracing _ tracing tracing') (Nat.le_refl d)) _ _ _
  obtain ⟨houtcome, hsame⟩ := outcome_eq_of_follows (hfollow false true) (hfollow true false)
    (SameButTrace.refl (engine.initialState source))
  obtain ⟨hstatus, hstate⟩ :=
    dropped_congr (engine.traceForms_dropped source d forms) (engine.initialState source)
  refine ⟨?_, fun hfin => ?_⟩
  · exact (hstatus.trans (congrArg Outcome.status houtcome)).symm
  · exact hstate ▸ hsame hfin

theorem expand_forms {depth : Nat} {expansions : List Node}
    (h : (engine.expand depth source).outcome = .value expansions) :
    ∃ forms, Reader.read source = .ok forms ∧ expansions.length = forms.length ∧
      ∀ i form, forms[i]? = some form → ∃ expansion value t t',
        expansions[i]? = some expansion ∧
          Converges (fun d => engine.runForms false d source (forms.take i))
            (engine.initialState source) (.value value) t ∧
          Converges (fun d => MacroLisp.expand (engine.options false) d form engine.global) t
            (.value expansion) t' := by
  unfold expand perform at h
  cases hread : Reader.read source with
  | error f =>
    rw [hread] at h
    cases h
  | ok forms =>
    rw [hread] at h
    refine ⟨forms, rfl, ?_⟩
    have hvalue : engine.expandForms depth forms (engine.initialState source) =
        (.value expansions, (engine.expandForms depth forms (engine.initialState source)).2) :=
      Prod.ext h rfl
    obtain ⟨hlength, hnth⟩ := engine.expandForms_take hvalue
    refine ⟨hlength, fun i form hi => ?_⟩
    obtain ⟨expansion, t, t', hget, htake, hform⟩ := hnth i form hi
    -- one more level of depth, at which a run of the first forms is known to end as their list does
    have hdeep := (engine.expandForms_deepens (forms.take i)).reach htake trivial
      (Nat.le_succ depth)
    obtain ⟨hstatus, hstate⟩ := dropped_congr (engine.runForms_dropped source depth (forms.take i))
      (engine.initialState source)
    rw [hdeep] at hstatus hstate
    obtain ⟨value, hrun⟩ := Outcome.status_eq_value hstatus
    exact ⟨expansion, value, t, t', hget, ⟨trivial, depth + 2, Prod.ext hrun hstate⟩,
      trivial, depth, hform⟩

/-- Running, expanding and tracing a source agree; the expansions are those of the forms one after
another; and whether steps are recorded makes no difference to any evaluation but in the trace. -/
theorem services_agree :
    Agree (engine.run · source) (engine.expand · source) ∧
    Agree (engine.run · source) (engine.trace · source) ∧
    (∀ depth expansions, (engine.expand depth source).outcome = .value expansions →
      ∃ forms, Reader.read source = .ok forms ∧ expansions.length = forms.length ∧
        ∀ i form, forms[i]? = some form → ∃ expansion value t t',
          expansions[i]? = some expansion ∧
            Converges (fun d => engine.runForms false d source (forms.take i))
              (engine.initialState source) (.value value) t ∧
            Converges (fun d => MacroLisp.expand (engine.options false) d form engine.global) t
              (.value expansion) t') ∧
    ∀ limit tracing tracing' depth node scope s t, SameButTrace s t →
      (eval ⟨limit, tracing'⟩ depth node scope t).1 =
          (eval ⟨limit, tracing⟩ depth node scope s).1 ∧
        ((eval ⟨limit, tracing⟩ depth node scope s).1.Finished →
          SameButTrace (eval ⟨limit, tracing⟩ depth node scope s).2
            (eval ⟨limit, tracing'⟩ depth node scope t).2) :=
  ⟨engine.run_agree_expand source, engine.run_agree_trace source,
    fun _ _ => engine.expand_forms source,
    fun limit tracing tracing' depth node scope _ _ =>
      eval_tracing limit tracing tracing' depth node scope⟩

end Engine

end MacroLisp
