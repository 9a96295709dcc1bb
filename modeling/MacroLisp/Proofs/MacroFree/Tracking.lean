import MacroLisp.Proofs.MacroFree.Region

/-!
# Two runs in a region without macros

A computation tracks another one if, from a state with a tame store, both have the very same result
and leave a tame store, unless the other is cut off or the computation itself ends in an alarm.
The domain of the tame nodes carries this relation, and only the form that defines a macro leads out
of the domain. So if one way to evaluate nodes tracks another, it does so in all other forms, and an
expansion gives back the node that it is given: the head is evaluated, and is no macro.
-/

namespace MacroLisp

namespace Outcome

variable {α : Type}

def Yields (P : α → Prop) : Outcome α → Prop
  | value a => P a
  | _ => True

/-- It is no value but one of the given faults, or unfinished if `none` is among them. -/
def Ends (ends : Option Fault → Prop) : Outcome α → Prop
  | value _ => False
  | fault f => ends (some f)
  | unfinished => ends none

end Outcome

namespace Eval

variable {α β : Type} {R : Region} {cut alarm : Option Fault → Prop} {P : α → Prop} {Q : β → Prop}

def Tracks (R : Region) (cut alarm : Option Fault → Prop) (P : α → Prop) (y x : Eval α) : Prop :=
  ∀ s : EvalState, s.store.Tame R → (x s).1.Ends cut ∨ (y s).1.Ends alarm ∨
    y s = x s ∧ (x s).1.Yields P ∧ (x s).2.store.Tame R

/-- A computation tracks itself if it yields what it should and keeps the store tame. -/
theorem tracks_self {x : Eval α}
    (h : ∀ s : EvalState, s.store.Tame R → (x s).1.Yields P ∧ (x s).2.store.Tame R) :
    Tracks R cut alarm P x x :=
  fun s hs => Or.inr (Or.inr ⟨rfl, h s hs⟩)

theorem Tracks.imp {P' : α → Prop} {x y : Eval α} (h : Tracks R cut alarm P y x)
    (hP : ∀ a, P a → P' a) : Tracks R cut alarm P' y x := by
  intro s hs
  refine (h s hs).imp_right (Or.imp_right fun ⟨hsame, hyields, hstore⟩ => ⟨hsame, ?_, hstore⟩)
  generalize (x s).1 = o at hyields
  cases o with
  | value a => exact hP a hyields
  | fault | unfinished => trivial

theorem tracks_pure {a : α} (h : P a) : Tracks R cut alarm P (pure a : Eval α) (pure a) :=
  tracks_self fun _ hs => ⟨h, hs⟩

theorem tracks_unfinished : Tracks R cut alarm P (unfinished : Eval α) unfinished :=
  tracks_self fun _ hs => ⟨trivial, hs⟩

theorem tracks_cut (y : Eval α) (h : cut none) : Tracks R cut alarm P y unfinished :=
  fun _ _ => Or.inl h

theorem tracks_throw (fault : Fault) : Tracks R cut alarm P (throw fault : Eval α) (throw fault) :=
  tracks_self fun _ hs => ⟨trivial, hs⟩

theorem tracks_fail (cause : Cause) (span : Span) :
    Tracks R cut alarm P (fail cause span : Eval α) (fail cause span) :=
  tracks_self fun _ hs => ⟨trivial, hs⟩

theorem tracks_bind {x y : Eval α} {f g : α → Eval β} (hx : Tracks R cut alarm P y x)
    (hf : ∀ a, P a → Tracks R cut alarm Q (g a) (f a)) :
    Tracks R cut alarm Q (y >>= g) (x >>= f) := by
  intro s hs
  have h := hx s hs
  rw [bind_apply, bind_apply]
  generalize x s = p at h ⊢
  generalize y s = q at h ⊢
  obtain ⟨o, t⟩ := p
  obtain ⟨o', t'⟩ := q
  rcases h with hcut | halarm | ⟨hsame, hyields, hstore⟩
  · cases o with
    | value a => exact hcut.elim
    | fault f => exact Or.inl hcut
    | unfinished => exact Or.inl hcut
  · cases o' with
    | value a => exact halarm.elim
    | fault f => exact Or.inr (Or.inl halarm)
    | unfinished => exact Or.inr (Or.inl halarm)
  · obtain ⟨rfl, rfl⟩ := Prod.mk.inj hsame
    cases o' with
    | value a => exact hf a hyields t' hstore
    | fault f => exact Or.inr (Or.inr ⟨rfl, trivial, hstore⟩)
    | unfinished => exact Or.inr (Or.inr ⟨rfl, trivial, hstore⟩)

theorem tracks_read {f : EvalState → α} (h : ∀ s : EvalState, s.store.Tame R → P (f s)) :
    Tracks R cut alarm P (fun s => (.value (f s), s)) fun s => (.value (f s), s) :=
  tracks_self fun s hs => ⟨h s hs, hs⟩

theorem tracks_lookup {scope : Scope} (hscope : scope.Inside R) (name : String) :
    Tracks R cut alarm (fun found => ∀ value ∈ found, Node.Tame R value) (lookup scope name)
      (lookup scope name) :=
  tracks_read fun _ hs _ hvalue => hs.get? hscope hvalue

theorem tracks_closure? {id : ClosureId} (hid : R.closures id) :
    Tracks R cut alarm (fun found => ∀ closure ∈ found, closure.Belongs (.tame R)) (closure? id)
      (closure? id) := by
  refine tracks_read fun s hs closure hclosure => ?_
  have h := hs.closures id closure hid hclosure
  exact ⟨h.body, h.scope, trivial⟩

theorem tracks_bindName (scope : Scope) (name : String) {value : Node} (h : value.Tame R) :
    Tracks R cut alarm (fun _ => True) (bindName scope name value) (bindName scope name value) :=
  tracks_self fun _ hs => ⟨trivial, hs.set scope name h⟩

theorem tracks_newScope {parent : Scope} (h : parent.Inside R) :
    Tracks R cut alarm (Scope.Inside R) (newScope parent) (newScope parent) :=
  tracks_self fun _ hs => ⟨hs.inside_newChild h, hs.newChild parent⟩

theorem tracks_newClosure {closure : Closure} (h : closure.Tame R) :
    Tracks R cut alarm R.closures (newClosure closure) (newClosure closure) :=
  tracks_self fun _ hs => ⟨hs.freshClosures _ (Nat.le_refl _), hs.addClosure h⟩

theorem tracks_emit (text : String) (span : Span) :
    Tracks R cut alarm (fun _ => True) (emit text span) (emit text span) :=
  tracks_self fun _ hs => ⟨trivial, hs⟩

theorem tracks_within (source : Source) {x y : Eval α} (h : Tracks R cut alarm P y x) :
    Tracks R cut alarm P (within source y) (within source x) := by
  intro s hs
  refine (h { s with source } hs).imp_right (Or.imp_right fun ⟨hsame, hyields, hstore⟩ => ?_)
  exact ⟨by rw [within, within, hsame], hyields, hstore⟩

end Eval

open Eval

section Evaluators

variable (R : Region) (cut alarm : Option Fault → Prop)

/-- Tame nodes in scopes inside the region are evaluated to tame nodes by both. -/
def Evaluator.Tracks (ev' ev : Evaluator) : Prop :=
  ∀ node scope, node.Tame R → scope.Inside R →
    Eval.Tracks R cut alarm (·.Tame R) (ev' node scope) (ev node scope)

def Evaluator.TracksStill (ex' ex : Evaluator) : Prop :=
  ∀ node scope, node.Tame R → scope.Inside R →
    Eval.Tracks R cut alarm (· = node) (ex' node scope) (ex node scope)

end Evaluators

section Layers

variable {R : Region} {cut alarm : Option Fault → Prop}

theorem tracks_carries :
    (Domain.tame R).Carries fun _ V y x => Eval.Tracks R cut alarm V y x where
  pure := tracks_pure
  fail _ := tracks_fail _ _
  unreadable _ := tracks_throw _
  bind := tracks_bind
  source := tracks_read fun _ _ => trivial
  lookup name hscope := tracks_lookup hscope name
  names _ := tracks_read fun _ _ => trivial
  closure? := tracks_closure?
  bindName := tracks_bindName
  newScope := tracks_newScope
  newClosure h := tracks_newClosure ⟨h.body, h.scope⟩
  emit text _ _ := tracks_emit text _
  within _ := tracks_within _

variable {ev ev' ex ex' : Evaluator} {scope : Scope} (hev : ev'.Tracks R cut alarm ev)
  (hex : ex'.TracksStill R cut alarm ex)

include hev

theorem body_tracks (hscope : scope.Inside R) (span : Span) {forms : List Node}
    (hforms : ∀ form ∈ forms, form.Tame R) :
    Eval.Tracks R cut alarm (·.Tame R) (ev'.body scope span forms) (ev.body scope span forms) :=
  body_carried tracks_carries tame_closed hev hscope trivial hforms

include hex in
theorem evalExpandedWith_tracks {node : Node} (hnode : node.Tame R)
    (hhead : node.isHeadedBy "defmacro" = false) (hscope : scope.Inside R) :
    Eval.Tracks R cut alarm (·.Tame R) (evalExpandedWith ev' ex' node scope)
      (evalExpandedWith ev ex node scope) := by
  have hexpand : Evaluator.Carried (.tame R) (fun _ V y x => Eval.Tracks R cut alarm V y x) ex' ex :=
    fun node scope hnode hscope => (hex node scope hnode hscope).imp fun other h => h ▸ hnode
  refine evalExpandedWith_carried tracks_carries tame_closed hev hexpand hnode hscope fun h => ?_
  rw [hhead] at h
  cases h

/-- The head is no macro, so an expansion ends where it begins, whatever the limit. -/
theorem expandFrom_tracks (options options' : EvalOptions) (fuel fuel' : Nat)
    (hfuel : fuel = fuel' ∨ fuel ≤ fuel' ∧ cut none) (steps steps' : Nat) :
    Evaluator.TracksStill R cut alarm (expandFrom options' ev' fuel' steps')
      (expandFrom options ev fuel steps) := by
  intro node scope hnode hscope
  obtain _ | fuel := fuel
  · rcases hfuel with rfl | ⟨-, hcut⟩
    · exact tracks_unfinished
    · exact tracks_cut _ hcut
  obtain ⟨fuel', rfl⟩ : ∃ m, fuel' = m + 1 := ⟨fuel' - 1, by omega⟩
  unfold expandFrom
  split
  · split
    · exact tracks_pure rfl
    · obtain ⟨hhead, -⟩ := List.forall_mem_cons.1 (Node.all_list_iff.1 hnode)
      refine tracks_bind (hev _ scope hhead hscope) fun value hvalue => ?_
      split
      · exact hvalue.not_expander.elim
      · exact tracks_pure rfl
  · exact tracks_pure rfl

end Layers

end MacroLisp
