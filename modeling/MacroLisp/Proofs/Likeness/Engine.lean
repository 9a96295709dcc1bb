import MacroLisp.Engine
import MacroLisp.Proofs.Likeness.Evaluation

/-!
# Like engines

Like engines run an input to like outcomes and stay alike. A new engine is like itself if every
place stands for itself, also when a place may be named only once something is there: so no program
comes to name a place where nothing is.
-/

namespace MacroLisp

/-- A run beside itself. What it names is there, and the names that occur have the property. -/
def Comparison.itself (names : String → Prop)
    (word : ∀ {run}, Token.IsWord run → names (String.ofList run))
    (rest : ∀ {name rest}, names name → Params.restName? name = some rest → rest ≠ "" → names rest) :
    Comparison where
  located := True
  logged := True
  names := names
  frames := .identity False
  closures := .identity False
  word := word
  rest := rest

namespace Store

variable {c : Comparison}

theorem names_primitive (p : Primitive) : c.names p.name := by
  have hword : Token.IsWord p.name.toList := by
    cases p <;> exact Token.isWord_of_all (by decide) (by decide)
  have hname := c.word hword
  rwa [String.ofList_toList] at hname

theorem foldl_set_like (primitives : List Primitive) {s t : Store} (h : s.Like c t)
    {scope scope' : Scope} (hscope : scope.Like (c.likeness s) scope') :
    (primitives.foldl (fun store p => store.set scope p.name (primitiveValue p)) s).Like c
        (primitives.foldl (fun store p => store.set scope' p.name (primitiveValue p)) t) ∧
      scope.Like (c.likeness (primitives.foldl
        (fun store p => store.set scope p.name (primitiveValue p)) s)) scope' := by
  induction primitives generalizing s t with
  | nil => exact ⟨h, hscope⟩
  | cons p primitives ih =>
    have hvalue : (primitiveValue p).Like (c.likeness s) (primitiveValue p) :=
      .atom (.function (.primitive p)) fun _ => rfl
    have hsize : s.frames.size = (s.set scope p.name (primitiveValue p)).frames.size :=
      (size_set ..).symm
    have hwithin := c.within_likeness (s := s) (t := s.set scope p.name (primitiveValue p)) hsize.le
      (Nat.le_refl _)
    exact ih (h.set hscope (names_primitive p) hvalue) (hscope.mono hwithin)

theorem Like.newGlobal {s t : Store} (h : s.Like c t) :
    s.newGlobal.2.Like c t.newGlobal.2 ∧
      s.newGlobal.1.Like (c.likeness s.newGlobal.2) t.newGlobal.1 := by
  have hsize : s.newRoot.2.frames.size = s.frames.size + 1 := Array.size_push ..
  obtain ⟨hframes, hclosures⟩ := h.lift (u := s.newRoot.2) (by omega) (Nat.le_refl _)
  have hroot : s.newRoot.2.Like c t.newRoot.2 := ⟨hframes.push Frame.like_empty, hclosures⟩
  refine foldl_set_like Primitive.all hroot (.cons ?_ .nil)
  show c.frames.At s.newRoot.2.frames.size _ _
  rw [hsize]
  exact hframes.at_size

/-- Nothing is in an empty store, so only the next free places have to stand for each other. -/
theorem empty_like (hframes : ∀ k, c.frames.pairs k k) (hclosures : ∀ k, c.closures.pairs k k) :
    empty.Like c empty :=
  ⟨⟨fun k => hframes (0 + k), fun _ _ _ => .none⟩, ⟨fun k => hclosures (0 + k), fun _ _ _ => .none⟩⟩

end Store

structure Engine.Like (c : Comparison) (e e' : Engine) : Prop where
  limit : e.expansionLimit = e'.expansionLimit
  store : e.store.Like c e'.store
  global : e.global.Like (c.likeness e.store) e'.global

/-- Like outcomes and like engines after them, and like output if the comparison asks for it. -/
structure Performance.Corresponds {α : Type} (c : Comparison) (P : Likeness → α → α → Prop)
    (p p' : Performance α) : Prop where
  outcome : p.outcome.Like c.located (P (c.likeness p.engine.store)) p'.outcome
  engine : p.engine.Like c p'.engine
  emitted : c.logged →
    List.Forall₂ (Emission.Like (c.likeness p.engine.store)) p.emitted.toList p'.emitted.toList

namespace Engine

variable {c : Comparison} {e e' : Engine}

theorem new_like (hframes : ∀ k, c.frames.pairs k k) (hclosures : ∀ k, c.closures.pairs k k)
    (limit : Option Nat) : (new limit).Like c (new limit) :=
  have hglobal := (Store.empty_like hframes hclosures).newGlobal
  ⟨rfl, hglobal.1, hglobal.2⟩

/-- What the old global scopes hold does not matter after a reset. -/
theorem reset_like (hlimit : e.expansionLimit = e'.expansionLimit)
    (hstore : e.store.Like c e'.store) :
    e.reset.Like c e'.reset :=
  ⟨hlimit, hstore.newGlobal.1, hstore.newGlobal.2⟩

theorem Like.names_eq (h : e.Like c e') : e.names = e'.names := h.store.names_eq h.global

theorem Like.initialState (h : e.Like c e') (source : Source) :
    (e.initialState source).Like c (e'.initialState source) :=
  ⟨h.store, fun _ => rfl, fun _ => .nil, fun _ => .nil⟩

theorem Like.perform {α : Type} {P : Likeness → α → α → Prop} (h : e.Like c e') (source : Source)
    {action action' : List Node → Eval α}
    (haction : ∀ {forms}, List.Forall₂ (Node.Like (c.likeness e.store)) forms forms →
      Eval.Like c (c.likeness e.store) P (action forms) (action' forms)) :
    (e.perform source action).Corresponds c P (e'.perform source action') := by
  unfold Engine.perform
  cases hforms : Reader.read source with
  | error fault => exact ⟨.fault ⟨rfl, rfl, fun _ => ⟨rfl, rfl⟩⟩, h, fun _ => .nil⟩
  | ok forms =>
    have hwritten : List.Forall₂ (Node.Like (c.likeness e.store)) forms forms :=
      List.forall₂_same.2 fun form hform => Node.IsWritten.like (Reader.read_isWritten hforms form hform)
    obtain ⟨houtcome, hstate, hgrown⟩ := haction hwritten _ _ (h.initialState source) (.refl _)
    exact ⟨houtcome, ⟨h.limit, hstate.store, h.global.mono hgrown⟩, hstate.emitted⟩

section Services

variable (depth : Nat) (source : Source) {forms : List Node} {L : Likeness}

theorem runForms_like (hlimit : e.expansionLimit = e'.expansionLimit)
    (hglobal : e.global.Like L e'.global)
    (tracing : Bool) (hforms : List.Forall₂ (Node.Like L) forms forms) :
    Eval.Like c L Node.Like (e.runForms tracing depth source forms)
      (e'.runForms tracing depth source forms) := by
  unfold runForms options
  rw [← hlimit]
  exact body_like (eval_like _ depth) hglobal (fun _ => rfl : L.Agree source.whole source.whole) hforms

theorem expandForms_like (hlimit : e.expansionLimit = e'.expansionLimit)
    (hglobal : e.global.Like L e'.global) (hforms : List.Forall₂ (Node.Like L) forms forms) :
    Eval.Like c L (fun M => List.Forall₂ (Node.Like M)) (e.expandForms depth forms)
      (e'.expandForms depth forms) := by
  have hoptions : e.options false = e'.options false := by rw [options, options, hlimit]
  induction forms generalizing L with
  | nil => exact Eval.like_pure fun _ _ => .nil
  | cons form forms ih =>
    cases hforms with
    | cons hform hforms =>
      unfold expandForms
      rw [← hoptions]
      refine Eval.like_bind (expand_like _ depth hform hglobal) fun M _ _ hLM hexpansion => ?_
      refine Eval.like_bind (evalExpanded_like _ depth hexpansion (hglobal.mono hLM))
        fun N _ _ hMN _ => ?_
      have hLN := hLM.trans hMN
      refine Eval.like_bind (ih (hglobal.mono hLN) (Node.Like.all_mono hforms hLN))
        fun K _ _ hNK hexpansions => ?_
      exact Eval.like_pure fun K' hK => .cons (hexpansion.mono ((hMN.trans hNK).trans hK))
        (Node.Like.all_mono hexpansions hK)

theorem traceForms_like (hlogged : c.logged) (hlimit : e.expansionLimit = e'.expansionLimit)
    (hglobal : e.global.Like L e'.global) (hforms : List.Forall₂ (Node.Like L) forms forms) :
    Eval.Like c L (fun M => List.Forall₂ (ExpansionStep.Like M)) (e.traceForms depth source forms)
      (e'.traceForms depth source forms) :=
  Eval.like_bind (runForms_like depth source hlimit hglobal true hforms) fun _ _ _ _ _ =>
    Eval.like_of_still fun _ _ hst _ => .value (hst.trace hlogged)

theorem Like.run (h : e.Like c e') :
    (e.run depth source).Corresponds c Node.Like (e'.run depth source) :=
  h.perform source fun hforms => runForms_like depth source h.limit h.global false hforms

theorem Like.expand (h : e.Like c e') :
    (e.expand depth source).Corresponds c (fun M => List.Forall₂ (Node.Like M))
      (e'.expand depth source) :=
  h.perform source fun hforms => expandForms_like depth h.limit h.global hforms

theorem Like.trace (h : e.Like c e') (hlogged : c.logged) :
    (e.trace depth source).Corresponds c (fun M => List.Forall₂ (ExpansionStep.Like M))
      (e'.trace depth source) :=
  h.perform source fun hforms => traceForms_like depth source hlogged h.limit h.global hforms

end Services

end Engine

end MacroLisp
