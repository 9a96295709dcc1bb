import MacroLisp.Evaluation.Outcome
import MacroLisp.Proofs.Likeness.Builtin
import MacroLisp.Proofs.Scope.Lookup
import Mathlib.Data.List.Sort

/-!
# Like states

Frames and closures are made in the same order in both runs, so it can be said in advance which of
them will stand for each other: a comparison fixes this for all places, and those that are beyond
the end of a store count only once something is there, unless the comparison lets them be named
early. Like states hold like things at all places that stand for each other. Every write takes like
states to like states, and what was like before it stays like.
-/

namespace MacroLisp

section Options

variable {α β : Type} {R S : α → α → Prop} {T : β → β → Prop} {a b a' b' : Option α}

theorem rel_imp (h : Option.Rel R a b) (hRS : ∀ {x y}, R x y → S x y) : Option.Rel S a b := by
  cases h with
  | some hxy => exact .some (hRS hxy)
  | none => exact .none

theorem rel_bind {f g : α → Option β} (h : Option.Rel R a b)
    (hfg : ∀ {x y}, R x y → Option.Rel T (f x) (g y)) : Option.Rel T (a.bind f) (b.bind g) := by
  cases h with
  | some hxy => exact hfg hxy
  | none => exact .none

theorem rel_map {f g : α → β} (h : Option.Rel R a b) (hfg : ∀ {x y}, R x y → T (f x) (g y)) :
    Option.Rel T (a.map f) (b.map g) := by
  cases h with
  | some hxy => exact .some (hfg hxy)
  | none => exact .none

theorem rel_or (h : Option.Rel R a b) (h' : Option.Rel R a' b') :
    Option.Rel R (a.or a') (b.or b') := by
  cases h with
  | some hxy => exact .some hxy
  | none => exact h'

theorem isSome_eq_of_rel (h : Option.Rel R a b) : a.isSome = b.isSome := by
  cases h <;> rfl

end Options

/-- Places of two arrays that stand for each other, one to one. -/
structure Pairing where
  pairs : Nat → Nat → Prop
  unique : ∀ {i j i' j'}, pairs i j → pairs i' j' → (i = i' ↔ j = j')
  /-- Places may be named before anything is there. -/
  early : Prop

/-- The places stand for each other and may be named, in an array of the given size. -/
def Pairing.At (p : Pairing) (size i j : Nat) : Prop := p.pairs i j ∧ (i < size ∨ p.early)

theorem Pairing.At.mono {p : Pairing} {m n i j : Nat} (h : p.At m i j) (hmn : m ≤ n) : p.At n i j :=
  ⟨h.1, h.2.imp_left fun him => Nat.lt_of_lt_of_le him hmn⟩

def Pairing.identity (early : Prop) : Pairing where
  pairs := Eq
  unique h h' := by rw [h, h']
  early := early

/-- Any places of two arrays that stand for each other one to one, and all places behind the ends in
turn. -/
def Pairing.extended {m n : Nat} (pairs : Nat → Nat → Prop)
    (inside : ∀ {i j}, pairs i j → i < m ∧ j < n)
    (unique : ∀ {i j i' j'}, pairs i j → pairs i' j' → (i = i' ↔ j = j')) (early : Prop) :
    Pairing where
  pairs i j := pairs i j ∨ ∃ k, i = m + k ∧ j = n + k
  unique := by
    rintro i j i' j' (h | ⟨k, rfl, rfl⟩) (h' | ⟨k', rfl, rfl⟩)
    · exact unique h h'
    · obtain ⟨hi, hj⟩ := inside h
      omega
    · obtain ⟨hi, hj⟩ := inside h'
      omega
    · omega
  early := early

/-- Related things are at the places that stand for each other, and so do the next free places. -/
structure Links (p : Pairing) {α : Type} (R : α → α → Prop) (xs ys : Array α) : Prop where
  ahead : ∀ k, p.pairs (xs.size + k) (ys.size + k)
  each : ∀ i j, p.At xs.size i j → Option.Rel R xs[i]? ys[j]?

namespace Links

variable {p : Pairing} {α : Type} {R R' : α → α → Prop} {xs ys : Array α}

theorem mono (h : Links p R xs ys) (hR : ∀ {x y}, R x y → R' x y) : Links p R' xs ys :=
  ⟨h.ahead, fun i j hij => rel_imp (h.each i j hij) hR⟩

theorem at_size (h : Links p R xs ys) : p.At (xs.size + 1) xs.size ys.size :=
  ⟨h.ahead 0, Or.inl (Nat.lt_succ_self _)⟩

theorem push (h : Links p R xs ys) {x y : α} (hxy : R x y) : Links p R (xs.push x) (ys.push y) where
  ahead k := by
    have hk := h.ahead (k + 1)
    rwa [Array.size_push, Array.size_push, Nat.add_assoc, Nat.add_assoc, Nat.add_comm 1 k]
  each i j hij := by
    -- the new places stand for each other, and for no place that was there
    have hnext : i = xs.size ↔ j = ys.size := p.unique hij.1 (h.ahead 0)
    rw [Array.getElem?_push, Array.getElem?_push]
    by_cases hi : i = xs.size
    · rw [if_pos hi, if_pos (hnext.1 hi)]
      exact .some hxy
    · rw [if_neg hi, if_neg (mt hnext.2 hi)]
      refine h.each i j ⟨hij.1, hij.2.imp_left fun hlt => ?_⟩
      rw [Array.size_push] at hlt
      omega

theorem modify (h : Links p R xs ys) {i j : Nat} (hij : p.At xs.size i j) {f g : α → α}
    (hfg : ∀ {x y}, R x y → R (f x) (g y)) : Links p R (xs.modify i f) (ys.modify j g) where
  ahead k := by
    rw [Array.size_modify, Array.size_modify]
    exact h.ahead k
  each i' j' hij' := by
    rw [Array.size_modify] at hij'
    have hrel := h.each i' j' hij'
    have hsame := p.unique hij.1 hij'.1
    rw [Array.getElem?_modify, Array.getElem?_modify]
    by_cases hi : i = i'
    · rw [if_pos hi, if_pos (hsame.1 hi)]
      exact rel_map hrel hfg
    · rw [if_neg hi, if_neg (mt hsame.2 hi)]
      exact hrel

end Links

/-- What two runs have in common, from their first states on. -/
structure Comparison where
  /-- Spans and sources are the same in both runs. -/
  located : Prop
  /-- What is printed and traced is the same up to spans. -/
  logged : Prop
  names : String → Prop
  frames : Pairing
  closures : Pairing
  word : ∀ {run}, Token.IsWord run → names (String.ofList run)
  rest : ∀ {name rest}, names name → Params.restName? name = some rest → rest ≠ "" → names rest

/-- What stands for each other when the first run has the given store. -/
def Comparison.likeness (c : Comparison) (store : Store) : Likeness where
  located := c.located
  names := c.names
  frames := c.frames.At store.frames.size
  closures := c.closures.At store.closures.size
  unique h h' := c.closures.unique h.1 h'.1
  word := c.word
  rest := c.rest

theorem Comparison.within_likeness (c : Comparison) {s t : Store}
    (hframes : s.frames.size ≤ t.frames.size) (hclosures : s.closures.size ≤ t.closures.size) :
    (c.likeness s).Within (c.likeness t) where
  located := id
  names := id
  frames h := h.mono hframes
  closures h := h.mono hclosures

def Scope.Like (L : Likeness) (scope scope' : Scope) : Prop :=
  List.Forall₂ L.frames scope.chain scope'.chain

structure Closure.Like (L : Likeness) (f g : Closure) : Prop where
  params : f.params.Like L g.params
  body : List.Forall₂ (Node.Like L) f.body g.body
  scope : f.scope.Like L g.scope
  span : L.Agree f.span g.span
  source : L.Agree f.source g.source

structure Frame.Like (L : Likeness) (f g : Frame) : Prop where
  names : ∀ name, (f.get? name).isSome → L.names name
  values : ∀ name, Option.Rel (Node.Like L) (f.get? name) (g.get? name)

section Mono

variable {L M : Likeness}

theorem Scope.Like.mono {scope scope' : Scope} (h : scope.Like L scope') (hLM : L.Within M) :
    scope.Like M scope' :=
  List.Forall₂.imp (fun _ _ hij => hLM.frames hij) h

theorem Params.Like.mono {p q : Params} (h : p.Like L q) (hLM : L.Within M) : p.Like M q where
  required := h.required
  rest := h.rest
  span := h.span.mono hLM
  names name hname := hLM.names (h.names name hname)

theorem Closure.Like.mono {f g : Closure} (h : f.Like L g) (hLM : L.Within M) : f.Like M g where
  params := h.params.mono hLM
  body := Node.Like.all_mono h.body hLM
  scope := h.scope.mono hLM
  span := h.span.mono hLM
  source := h.source.mono hLM

theorem Frame.Like.mono {f g : Frame} (h : f.Like L g) (hLM : L.Within M) : f.Like M g where
  names name hname := hLM.names (h.names name hname)
  values name := rel_imp (h.values name) fun hxy => hxy.mono hLM

theorem Frame.like_empty : Frame.empty.Like L Frame.empty := ⟨nofun, fun _ => .none⟩

theorem Frame.Like.set {f g : Frame} (h : f.Like L g) {name : String} (hname : L.names name)
    {value value' : Node} (hvalue : value.Like L value') :
    (f.set name value).Like L (g.set name value') where
  names other hother := by
    rw [Frame.get?_set] at hother
    split at hother
    · next heq => rwa [heq]
    · exact h.names other hother
  values other := by
    rw [Frame.get?_set, Frame.get?_set]
    split
    · exact .some hvalue
    · exact h.values other

end Mono

structure Store.Like (c : Comparison) (s t : Store) : Prop where
  frames : Links c.frames (Frame.Like (c.likeness s)) s.frames t.frames
  closures : Links c.closures (Closure.Like (c.likeness s)) s.closures t.closures

namespace Store.Like

variable {c : Comparison} {s t : Store} {scope scope' : Scope}

/-- A larger store of the first run makes more things like, not fewer. -/
theorem lift {u : Store} (h : s.Like c t) (hframes : s.frames.size ≤ u.frames.size)
    (hclosures : s.closures.size ≤ u.closures.size) :
    Links c.frames (Frame.Like (c.likeness u)) s.frames t.frames ∧
      Links c.closures (Closure.Like (c.likeness u)) s.closures t.closures :=
  have hwithin := c.within_likeness hframes hclosures
  ⟨h.frames.mono fun hfg => hfg.mono hwithin, h.closures.mono fun hfg => hfg.mono hwithin⟩

section Lookup

variable {name : String} {chain chain' : List FrameId}
  (hchain : List.Forall₂ (c.likeness s).frames chain chain')

include hchain

theorem getIn? (h : s.Like c t) (name : String) :
    Option.Rel (Node.Like (c.likeness s)) (s.getIn? name chain) (t.getIn? name chain') := by
  induction hchain with
  | nil => exact .none
  | @cons i j _ _ hij _ ih =>
    exact rel_or (rel_bind (h.frames.each i j hij) fun hfg => hfg.values name) ih

theorem names_of_getIn? (h : s.Like c t) {value : Node} (hvalue : s.getIn? name chain = some value) :
    c.names name := by
  induction hchain with
  | nil => cases hvalue
  | @cons i j _ _ hij _ ih =>
    rw [Store.getIn?, Option.or_eq_some_iff] at hvalue
    rcases hvalue with hhere | ⟨-, hthere⟩
    · obtain ⟨frame, hframe, hfound⟩ := Option.bind_eq_some_iff.1 hhere
      have hrel := h.frames.each i j hij
      rw [hframe] at hrel
      generalize t.frames[j]? = found at hrel
      cases hrel with
      | some hfg => exact hfg.names name (Option.isSome_of_eq_some hfound)
    · exact ih hthere

end Lookup

theorem get? (h : s.Like c t) (hscope : scope.Like (c.likeness s) scope') (name : String) :
    Option.Rel (Node.Like (c.likeness s)) (s.get? scope name) (t.get? scope' name) :=
  getIn? hscope h name

theorem names_eq (h : s.Like c t) (hscope : scope.Like (c.likeness s) scope') :
    s.names scope = t.names scope' := by
  refine (Text.pairwise_sortNames _).eq_of_mem_iff (Text.pairwise_sortNames _) fun name => ?_
  have hsome := isSome_eq_of_rel (h.get? hscope name)
  exact Store.mem_names_iff.trans ((Bool.eq_iff_iff.1 hsome).trans Store.mem_names_iff.symm)

theorem names_of_mem (h : s.Like c t) (hscope : scope.Like (c.likeness s) scope') {name : String}
    (hname : name ∈ s.names scope) : c.names name := by
  obtain ⟨value, hvalue⟩ := Option.isSome_iff_exists.1 (Store.mem_names_iff.1 hname)
  exact names_of_getIn? hscope h hvalue

theorem set (h : s.Like c t) (hscope : scope.Like (c.likeness s) scope') {name : String}
    (hname : c.names name) {value value' : Node} (hvalue : value.Like (c.likeness s) value') :
    (s.set scope name value).Like c (t.set scope' name value') := by
  have hsize : s.frames.size = (s.set scope name value).frames.size := (Store.size_set ..).symm
  have hwithin := c.within_likeness (s := s) (t := s.set scope name value) hsize.le (Nat.le_refl _)
  obtain ⟨hframes, hclosures⟩ := h.lift (u := s.set scope name value) hsize.le (Nat.le_refl _)
  cases hscope with
  | cons hframe _ =>
    exact ⟨hframes.modify hframe fun hfg => hfg.set hname (hvalue.mono hwithin), hclosures⟩

theorem newChild (h : s.Like c t) (hscope : scope.Like (c.likeness s) scope') :
    (s.newChild scope).2.Like c (t.newChild scope').2 ∧
      (s.newChild scope).1.Like (c.likeness (s.newChild scope).2) (t.newChild scope').1 := by
  have hsize : (s.newChild scope).2.frames.size = s.frames.size + 1 := Array.size_push ..
  have hwithin := c.within_likeness (s := s) (t := (s.newChild scope).2) (by omega) (Nat.le_refl _)
  obtain ⟨hframes, hclosures⟩ := h.lift (u := (s.newChild scope).2) (by omega) (Nat.le_refl _)
  refine ⟨⟨hframes.push Frame.like_empty, hclosures⟩, .cons ?_ (hscope.mono hwithin)⟩
  show c.frames.At (s.newChild scope).2.frames.size _ _
  rw [hsize]
  exact hframes.at_size

theorem addClosure (h : s.Like c t) {f g : Closure} (hfg : f.Like (c.likeness s) g) :
    (s.addClosure f).2.Like c (t.addClosure g).2 ∧
      (c.likeness (s.addClosure f).2).closures (s.addClosure f).1 (t.addClosure g).1 := by
  have hsize : (s.addClosure f).2.closures.size = s.closures.size + 1 := Array.size_push ..
  have hwithin := c.within_likeness (s := s) (t := (s.addClosure f).2) (Nat.le_refl _) (by omega)
  obtain ⟨hframes, hclosures⟩ := h.lift (u := (s.addClosure f).2) (Nat.le_refl _) (by omega)
  refine ⟨⟨hframes, hclosures.push (hfg.mono hwithin)⟩, ?_⟩
  show c.closures.At (s.addClosure f).2.closures.size _ _
  rw [hsize]
  exact hclosures.at_size

end Store.Like

structure Emission.Like (L : Likeness) (e e' : Emission) : Prop where
  text : e.text = e'.text
  span : L.Agree e.span e'.span

structure ExpansionStep.Like (L : Likeness) (step step' : ExpansionStep) : Prop where
  head : step.head = step'.head
  input : step.input.Like L step'.input
  output : step.output.Like L step'.output

structure EvalState.Like (c : Comparison) (s t : EvalState) : Prop where
  store : s.store.Like c t.store
  source : c.located → s.source = t.source
  emitted : c.logged →
    List.Forall₂ (Emission.Like (c.likeness s.store)) s.emitted.toList t.emitted.toList
  trace : c.logged →
    List.Forall₂ (ExpansionStep.Like (c.likeness s.store)) s.trace.toList t.trace.toList

section Logs

variable {L M : Likeness}

theorem Emission.Like.mono {e e' : Emission} (h : e.Like L e') (hLM : L.Within M) : e.Like M e' :=
  ⟨h.text, h.span.mono hLM⟩

theorem ExpansionStep.Like.mono {step step' : ExpansionStep} (h : step.Like L step')
    (hLM : L.Within M) : step.Like M step' :=
  ⟨h.head, h.input.mono hLM, h.output.mono hLM⟩

theorem forall₂_push {α : Type} {R : α → α → Prop} {xs ys : Array α}
    (h : List.Forall₂ R xs.toList ys.toList) {x y : α} (hxy : R x y) :
    List.Forall₂ R (xs.push x).toList (ys.push y).toList := by
  rw [Array.toList_push, Array.toList_push]
  exact List.rel_append h (.cons hxy .nil)

end Logs

namespace EvalState.Like

variable {c : Comparison} {s t : EvalState}

theorem withStore (h : s.Like c t) {store store' : Store} (hstore : store.Like c store')
    (hwithin : (c.likeness s.store).Within (c.likeness store)) :
    ({ s with store } : EvalState).Like c { t with store := store' } where
  store := hstore
  source := h.source
  emitted hlogged := (h.emitted hlogged).imp fun _ _ he => he.mono hwithin
  trace hlogged := (h.trace hlogged).imp fun _ _ he => he.mono hwithin

end EvalState.Like

end MacroLisp
