import MacroLisp.Proofs.Evaluation.Simulation

/-!
# Evaluation to any depth

A computation that is given for every depth converges if it finishes within some depth.
Evaluations deepen: what is finished within a depth stands at every greater one, so a computation
converges to at most one outcome and state, and `converges_bind` takes a sequence apart without any
depths.
-/

namespace MacroLisp

def Outcome.Finished {α : Type} : Outcome α → Prop
  | unfinished => False
  | _ => True

def Outcome.satisfies {α : Type} (p : α → Bool) : Outcome α → Bool
  | value a => p a
  | _ => false

theorem Outcome.exists_of_satisfies {α : Type} {p : α → Bool} {r : Outcome α × EvalState}
    (h : r.1.satisfies p = true) : ∃ a, r = (.value a, r.2) ∧ p a = true := by
  obtain ⟨a | f | _, s⟩ := r
  · exact ⟨a, rfl, h⟩
  · cases h
  · cases h

theorem Outcome.not_cutOff_of_satisfies {α : Type} {p : α → Bool} {o : Outcome α}
    {cut : Fault → Prop} (h : o.satisfies p = true) : ¬ o.CutOff cut := by
  cases o with
  | value a => exact id
  | fault f => cases h
  | unfinished => cases h

theorem Outcome.unfinished_of_cutOff {α : Type} {o : Outcome α} (h : o.CutOff fun _ => False) :
    o = .unfinished := by
  cases o with
  | value a => exact h.elim
  | fault f => exact h.elim
  | unfinished => rfl

namespace Eval

variable {α β : Type} {X Y : Nat → Eval α} {s s' t : EvalState} {o : Outcome α}

/-- A finished outcome, with its state, stands at every greater depth. -/
def Deepens (X : Nat → Eval α) : Prop :=
  ∀ d d' s, d ≤ d' → (X d s).1.Finished → X d' s = X d s

/-- Within some depth the computation finishes with the outcome `o` in the state `s'`. -/
def Converges (X : Nat → Eval α) (s : EvalState) (o : Outcome α) (s' : EvalState) : Prop :=
  o.Finished ∧ ∃ depth, X depth s = (o, s')

theorem Deepens.reach {d d' : Nat} (hX : Deepens X) (h : X d s = (o, s')) (hfin : o.Finished)
    (hd : d ≤ d') : X d' s = (o, s') := by
  rw [hX d d' s hd (by rw [h]; exact hfin), h]

theorem deepens_const (x : Eval α) : Deepens fun _ => x := fun _ _ _ _ _ => rfl

theorem deepens_bind {F : Nat → α → Eval β} (hX : Deepens X)
    (hF : ∀ a, Deepens fun d => F d a) : Deepens fun d => X d >>= F d := by
  intro d d' s hd hfin
  simp only [bind_apply] at hfin ⊢
  cases h : X d s with
  | mk o t =>
    rw [h] at hfin
    cases o with
    | value a =>
      rw [hX d d' s hd (by rw [h]; trivial), h]
      exact hF a d d' t hd hfin
    | fault f => rw [hX d d' s hd (by rw [h]; trivial), h]
    | unfinished => exact hfin.elim

theorem deepens_map (hX : Deepens X) (f : α → β) : Deepens fun d => X d >>= fun a => pure (f a) :=
  deepens_bind hX fun _ => deepens_const _

theorem Converges.unique {o' : Outcome α} (hX : Deepens X) (h : Converges X s o s')
    (h' : Converges X s o' t) : o' = o ∧ t = s' := by
  obtain ⟨hfin, d, hd⟩ := h
  obtain ⟨hfin', d', hd'⟩ := h'
  have hm := hX.reach hd hfin (Nat.le_max_left d d')
  have hm' := hX.reach hd' hfin' (Nat.le_max_right d d')
  have heq : (o', t) = (o, s') := by rw [← hm, ← hm']
  exact ⟨congrArg Prod.fst heq, congrArg Prod.snd heq⟩

theorem converges_const {x : Eval α} :
    Converges (fun _ => x) s o s' ↔ o.Finished ∧ x s = (o, s') :=
  ⟨fun ⟨hfin, _, h⟩ => ⟨hfin, h⟩, fun ⟨hfin, h⟩ => ⟨hfin, 0, h⟩⟩

theorem converges_pure {a : α} :
    Converges (fun _ => (pure a : Eval α)) s o s' ↔ o = .value a ∧ s' = s := by
  rw [converges_const, pure_apply, Prod.mk.injEq]
  constructor
  · rintro ⟨-, rfl, rfl⟩
    exact ⟨rfl, rfl⟩
  · rintro ⟨rfl, rfl⟩
    exact ⟨trivial, rfl, rfl⟩

theorem converges_congr (h : ∀ d, X d s = Y d s) : Converges X s o s' ↔ Converges Y s o s' := by
  simp only [Converges, h]

theorem converges_shift (hX : Deepens X) (k : Nat) :
    Converges (fun d => X (d + k)) s o s' ↔ Converges X s o s' := by
  constructor
  · rintro ⟨hfin, d, hd⟩
    exact ⟨hfin, d + k, hd⟩
  · rintro ⟨hfin, d, hd⟩
    exact ⟨hfin, d, hX.reach hd hfin (Nat.le_add_right d k)⟩

theorem converges_bind {F : Nat → α → Eval β} {o : Outcome β} (hX : Deepens X)
    (hF : ∀ a, Deepens fun d => F d a) :
    Converges (fun d => X d >>= F d) s o s' ↔
      (∃ f, o = .fault f ∧ Converges X s (.fault f) s') ∨
        ∃ a t, Converges X s (.value a) t ∧ Converges (fun d => F d a) t o s' := by
  constructor
  · rintro ⟨hfin, d, hd⟩
    simp only [bind_apply] at hd
    cases h : X d s with
    | mk r t =>
      rw [h] at hd
      cases r with
      | value a => exact Or.inr ⟨a, t, ⟨trivial, d, h⟩, ⟨hfin, d, hd⟩⟩
      | fault f =>
        obtain ⟨rfl, rfl⟩ := Prod.mk.injEq .. ▸ hd
        exact Or.inl ⟨f, rfl, trivial, d, h⟩
      | unfinished =>
        obtain ⟨rfl, rfl⟩ := Prod.mk.injEq .. ▸ hd
        exact hfin.elim
  · rintro (⟨f, rfl, hfin, d, hd⟩ | ⟨a, t, ⟨-, d, hd⟩, hfin, d', hd'⟩)
    · exact ⟨trivial, d, by simp only [bind_apply, hd]⟩
    · have hx := hX.reach hd trivial (Nat.le_max_left d d')
      have hf := (hF a).reach hd' hfin (Nat.le_max_right d d')
      exact ⟨hfin, max d d', by simp only [bind_apply, hx]; exact hf⟩

theorem converges_bind_of_value {F : Nat → α → Eval β} {o : Outcome β} {a : α} {u : EvalState}
    (hX : Deepens X) (hF : ∀ a, Deepens fun d => F d a) (h : Converges X s (.value a) t) :
    Converges (fun d => X d >>= F d) s o u ↔ Converges (fun d => F d a) t o u := by
  rw [converges_bind hX hF]
  constructor
  · rintro (⟨f, rfl, hfault⟩ | ⟨a', t', hvalue, hrest⟩)
    · cases (h.unique hX hfault).1
    · obtain ⟨heq, rfl⟩ := h.unique hX hvalue
      cases heq
      exact hrest
  · exact fun hrest => Or.inr ⟨a, t, h, hrest⟩

def ConvergeAlike (s : EvalState) (X Y : Nat → Eval α) : Prop :=
  ∀ o s', Converges X s o s' ↔ Converges Y s o s'

theorem ConvergeAlike.refl (s : EvalState) (X : Nat → Eval α) : ConvergeAlike s X X :=
  fun _ _ => Iff.rfl

theorem ConvergeAlike.trans {Z : Nat → Eval α} (hXY : ConvergeAlike s X Y)
    (hYZ : ConvergeAlike s Y Z) : ConvergeAlike s X Z :=
  fun o s' => (hXY o s').trans (hYZ o s')

/-- Sequences converge alike if their first parts do, and their second parts from wherever that
leads to. -/
theorem convergeAlike_bind {X' : Nat → Eval α} {F F' : Nat → α → Eval β} (hX : Deepens X)
    (hF : ∀ a, Deepens fun d => F d a) (hX' : Deepens X') (hF' : ∀ a, Deepens fun d => F' d a)
    (h : ConvergeAlike s X X')
    (hnext : ∀ a t, Converges X' s (.value a) t →
      ConvergeAlike t (fun d => F d a) fun d => F' d a) :
    ConvergeAlike s (fun d => X d >>= F d) fun d => X' d >>= F' d := by
  intro o s'
  rw [converges_bind hX hF, converges_bind hX' hF']
  refine or_congr ?_ ?_
  · simp only [h _ s']
  · refine exists_congr fun a => exists_congr fun t => ?_
    rw [h]
    exact and_congr_right fun hvalue => hnext a t hvalue o s'

end Eval

open Eval

/-- Only an unfinished computation is cut off, and like states are equal. -/
theorem deepens_of_follows {α : Type} {X : Nat → Eval α}
    (h : ∀ d d', d ≤ d' → Follows (fun _ => False) Eq (X d) (X d')) : Deepens X := by
  intro d d' s hd hfin
  rcases h d d' hd s s ⟨rfl, rfl, rfl, rfl⟩ with hcut | ⟨ho, hs⟩
  · rw [Outcome.unfinished_of_cutOff hcut] at hfin
    exact hfin.elim
  · exact Prod.ext ho hs.eq.symm

theorem EvalOptions.follow_self (o : EvalOptions) : o.Follow (fun _ => False) Eq o where
  below _ h := h
  beyond _ _ h := Or.inl h
  record _ _ _ h := by rw [h]

section Depth

variable (o : EvalOptions) (scope : Scope)

theorem eval_deepens (node : Node) : Deepens fun d => eval o d node scope :=
  deepens_of_follows fun _ _ hd => eval_follows o.follow_self hd node scope

theorem expand_deepens (node : Node) : Deepens fun d => expand o d node scope :=
  deepens_of_follows fun _ _ hd => expand_follows o.follow_self hd node scope

theorem evalExpanded_deepens (node : Node) : Deepens fun d => evalExpanded o d node scope :=
  deepens_of_follows fun _ _ hd => evalExpanded_follows o.follow_self hd node scope

theorem body_deepens (span : Span) (forms : List Node) :
    Deepens fun d => (eval o d).body scope span forms :=
  deepens_of_follows fun _ _ hd => body_follows (eval_follows o.follow_self hd) scope span forms

end Depth

end MacroLisp
