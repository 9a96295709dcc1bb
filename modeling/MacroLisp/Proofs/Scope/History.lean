import MacroLisp.Proofs.Scope.Lookup
import Mathlib.Data.Fin.Tuple.Basic

/-!
# Scopes as a stack of maps

A history lists what has been done with scopes: a root was made, a child was made of a scope that
was there, a name was set in a scope that was there. Scopes are numbered in the order in which they
were made. Read off the history alone, a scope has a parent link and a last value for each name that
was set in it. The store that the history leaves behind finds a name by following the parent links
from the scope up to the first one in which the name was ever set.
-/

namespace MacroLisp

namespace Scope

theorem chain_of_parent?_none {scope : Scope} (h : scope.parent? = none) :
    scope.chain = [scope.frame] := by
  obtain ⟨frame, outer⟩ := scope
  cases outer with
  | nil => rfl
  | cons => cases h

theorem chain_of_parent?_some {scope parent : Scope} (h : scope.parent? = some parent) :
    scope.chain = scope.frame :: parent.chain := by
  obtain ⟨frame, outer⟩ := scope
  cases outer with
  | nil => cases h
  | cons => cases h; rfl

end Scope

namespace Store

def make (store : Store) (parent : Option Scope) : Scope × Store :=
  match parent with
  | none => store.newRoot
  | some parent => store.newChild parent

variable (store : Store) (parent : Option Scope)

theorem frame_make : (store.make parent).1.frame = store.frames.size := by
  cases parent <;> rfl

theorem parent?_make : (store.make parent).1.parent? = parent := by
  cases parent <;> rfl

theorem frames_make : (store.make parent).2.frames = store.frames.push .empty := by
  cases parent <;> rfl

end Store

/-- What has been done with scopes, the latest last, where `n` scopes have been made. -/
inductive ScopeHistory : Nat → Type
  | start : ScopeHistory 0
  /-- A root was made, or a child of a scope that was there. -/
  | make {n : Nat} (earlier : ScopeHistory n) (parent : Option (Fin n)) : ScopeHistory (n + 1)
  | set {n : Nat} (earlier : ScopeHistory n) (target : Fin n) (name : String) (value : Node) :
      ScopeHistory n

namespace ScopeHistory

def child {n : Nat} (earlier : ScopeHistory n) (parent : Fin n) : ScopeHistory (n + 1) :=
  earlier.make (some parent)

def replay {n : Nat} : ScopeHistory n → (Fin n → Scope) × Store
  | start => (Fin.elim0, .empty)
  | make earlier parent =>
    let (scope, store) := earlier.replay.2.make (parent.map earlier.replay.1)
    (Fin.snoc earlier.replay.1 scope, store)
  | set earlier target name value =>
    (earlier.replay.1, earlier.replay.2.set (earlier.replay.1 target) name value)

def scope {n : Nat} (history : ScopeHistory n) : Fin n → Scope := history.replay.1

def store {n : Nat} (history : ScopeHistory n) : Store := history.replay.2

/-- The scope of which a scope was made a child. -/
def parent? {n : Nat} : ScopeHistory n → Fin n → Option (Fin n)
  | start => Fin.elim0
  | make earlier parent =>
    Fin.snoc (fun e => (earlier.parent? e).map Fin.castSucc) (parent.map Fin.castSucc)
  | set earlier _ _ _ => earlier.parent?

/-- The value that was last set for a name in the scope itself. -/
def lastSet? {n : Nat} : ScopeHistory n → Fin n → String → Option Node
  | start => Fin.elim0
  | make earlier _ => Fin.snoc earlier.lastSet? fun _ => none
  | set earlier target name value => fun e other =>
    if e = target ∧ other = name then some value else earlier.lastSet? e other

/-- Following the parent links from a scope passes these scopes and ends at a root. -/
inductive Walk {n : Nat} (history : ScopeHistory n) : Fin n → List (Fin n) → Prop
  | root {e} (top : history.parent? e = none) : Walk history e [e]
  | up {e parent chain} (link : history.parent? e = some parent)
      (rest : Walk history parent chain) : Walk history e (e :: chain)

/-- The one scope is the other or a descendant of it, and the name was never set below the other. -/
def Sees {n : Nat} (history : ScopeHistory n) (e target : Fin n) (name : String) : Prop :=
  ∃ below above, history.Walk e (below ++ target :: above) ∧
    ∀ b ∈ below, history.lastSet? b name = none

section Steps

variable {n : Nat} (earlier : ScopeHistory n) (parent : Option (Fin n)) (e : Fin n)

@[simp] theorem make_scope_old : (earlier.make parent).scope e.castSucc = earlier.scope e :=
  Fin.snoc_castSucc (α := fun _ => Scope) ..

@[simp] theorem make_scope_last : (earlier.make parent).scope (Fin.last n) =
    (earlier.store.make (parent.map earlier.scope)).1 :=
  Fin.snoc_last (α := fun _ => Scope) ..

@[simp] theorem make_parent?_old :
    (earlier.make parent).parent? e.castSucc = (earlier.parent? e).map Fin.castSucc :=
  Fin.snoc_castSucc (α := fun _ => Option (Fin (n + 1))) ..

@[simp] theorem make_parent?_last :
    (earlier.make parent).parent? (Fin.last n) = parent.map Fin.castSucc :=
  Fin.snoc_last (α := fun _ => Option (Fin (n + 1))) ..

@[simp] theorem make_lastSet?_old :
    (earlier.make parent).lastSet? e.castSucc = earlier.lastSet? e :=
  Fin.snoc_castSucc (α := fun _ => String → Option Node) ..

@[simp] theorem make_lastSet?_last (name : String) :
    (earlier.make parent).lastSet? (Fin.last n) name = none :=
  congrFun (Fin.snoc_last (α := fun _ => String → Option Node) ..) name

theorem make_frames : (earlier.make parent).store.frames = earlier.store.frames.push .empty :=
  Store.frames_make ..

theorem set_lastSet? (target : Fin n) (name : String) (value : Node) (other : String) :
    (earlier.set target name value).lastSet? e other =
      if e = target ∧ other = name then some value else earlier.lastSet? e other := rfl

end Steps

variable {n : Nat} (history : ScopeHistory n)

theorem size_store : history.store.frames.size = n := by
  induction history with
  | start => rfl
  | make earlier parent ih => rw [make_frames, Array.size_push, ih]
  | set earlier target name value ih => exact (Store.size_set ..).trans ih

theorem frame_scope (e : Fin n) : (history.scope e).frame = e := by
  induction history with
  | start => exact e.elim0
  | make earlier parent ih =>
    cases e using Fin.lastCases with
    | last => rw [make_scope_last, Store.frame_make, size_store, Fin.val_last]
    | cast e => rw [make_scope_old, ih, Fin.val_castSucc]
  | set earlier target name value ih => exact ih e

theorem parent?_scope (e : Fin n) :
    (history.scope e).parent? = (history.parent? e).map history.scope := by
  induction history with
  | start => exact e.elim0
  | make earlier parent ih =>
    cases e using Fin.lastCases with
    | last => simp [Store.parent?_make, Function.comp_def]
    | cast e => simp [ih, Function.comp_def]
  | set earlier target name value ih => exact ih e

/-- A parent is older than its children, so the links make no cycle. -/
theorem parent?_lt {e above : Fin n} (link : history.parent? e = some above) : above < e := by
  induction history with
  | start => exact e.elim0
  | make earlier parent ih =>
    cases e using Fin.lastCases with
    | last =>
      rw [make_parent?_last, Option.map_eq_some_iff] at link
      obtain ⟨old, -, rfl⟩ := link
      exact Fin.castSucc_lt_last old
    | cast e =>
      rw [make_parent?_old, Option.map_eq_some_iff] at link
      obtain ⟨old, hold, rfl⟩ := link
      exact Fin.castSucc_lt_castSucc_iff.2 (ih hold)
  | set earlier target name value ih => exact ih link

theorem get?_push_empty (frames : Array Frame) (id : FrameId) (name : String) :
    ((frames.push .empty)[id]?.bind (·.get? name)) = frames[id]?.bind (·.get? name) := by
  rw [Array.getElem?_push]
  split
  · next h => rw [h, Array.getElem?_eq_none (Nat.le_refl _)]; rfl
  · rfl

theorem get?_frame (e : Fin n) (name : String) :
    (history.store.frames[(e : Nat)]?.bind (·.get? name)) = history.lastSet? e name := by
  induction history with
  | start => exact e.elim0
  | make earlier parent ih =>
    rw [make_frames, get?_push_empty]
    cases e using Fin.lastCases with
    | last =>
      rw [make_lastSet?_last, Fin.val_last, Array.getElem?_eq_none (size_store earlier).le]
      rfl
    | cast e => rw [make_lastSet?_old, ← ih, Fin.val_castSucc]
  | set earlier target other value ih =>
    show ((earlier.store.frames.modify (earlier.scope target).frame
      (·.set other value))[(e : Nat)]?.bind (·.get? name)) = _
    rw [frame_scope, Array.getElem?_modify, set_lastSet?]
    by_cases he : e = target
    · subst he
      have hsize : (e : Nat) < earlier.store.frames.size := (size_store earlier).symm ▸ e.isLt
      rw [if_pos rfl, ← ih, Array.getElem?_eq_getElem hsize, Option.map_some, Option.bind_some,
        Option.bind_some, Frame.get?_set]
      simp only [true_and]
    · rw [if_neg (Fin.val_ne_of_ne (Ne.symm he)), ih, if_neg fun h => he h.1]

variable {history}

theorem Walk.unique {e : Fin n} {chain other : List (Fin n)} (h : history.Walk e chain)
    (h' : history.Walk e other) : chain = other := by
  induction h generalizing other with
  | root top =>
    cases h' with
    | root => rfl
    | up link => rw [top] at link; cases link
  | up link _ ih =>
    cases h' with
    | root top => rw [top] at link; cases link
    | up link' rest' =>
      obtain rfl := Option.some.inj (link.symm.trans link')
      rw [ih rest']

variable (history) in
/-- Parents are older, so a walk comes to an end. -/
theorem exists_walk (e : Fin n) : ∃ chain, history.Walk e chain := by
  induction e using WellFoundedLT.induction with
  | _ e ih =>
    cases link : history.parent? e with
    | none => exact ⟨[e], .root link⟩
    | some parent =>
      obtain ⟨chain, rest⟩ := ih parent (parent?_lt history link)
      exact ⟨e :: chain, .up link rest⟩

/-- The frames of a scope are those of the scopes on the walk from it. -/
theorem Walk.chain_scope {e : Fin n} {chain : List (Fin n)} (h : history.Walk e chain) :
    (history.scope e).chain = chain.map Fin.val := by
  induction h with
  | @root e top =>
    have hparent := parent?_scope history e
    rw [top] at hparent
    rw [Scope.chain_of_parent?_none hparent, frame_scope, List.map_singleton]
  | @up e parent chain link _ ih =>
    have hparent := parent?_scope history e
    rw [link] at hparent
    rw [Scope.chain_of_parent?_some hparent, frame_scope, ih, List.map_cons]

theorem Walk.get? {e : Fin n} {chain : List (Fin n)} (h : history.Walk e chain) (name : String) :
    history.store.get? (history.scope e) name = chain.findSome? (history.lastSet? · name) := by
  rw [Store.get?, h.chain_scope]
  clear h
  induction chain with
  | nil => rfl
  | cons c chain ih =>
    rw [List.map_cons, Store.getIn?, get?_frame, ih, List.findSome?_cons]
    cases history.lastSet? c name <;> rfl

theorem Walk.length {e : Fin n} {chain : List (Fin n)} (h : history.Walk e chain) :
    chain.length = (history.scope e).depth + 1 := by
  have hchain := congrArg List.length h.chain_scope
  rw [List.length_map] at hchain
  exact hchain.symm

theorem Walk.set {e target : Fin n} {chain : List (Fin n)} {name : String} {value : Node}
    (h : history.Walk e chain) : (history.set target name value).Walk e chain := by
  induction h with
  | root top => exact .root top
  | up link _ ih => exact .up link ih

section Set

variable {target : Fin n} {name : String} (value : Node)

theorem findSome?_set_of_seen {below : List (Fin n)} (above : List (Fin n))
    (h : ∀ b ∈ below, history.lastSet? b name = none) :
    (below ++ target :: above).findSome? ((history.set target name value).lastSet? · name) =
      some value := by
  induction below with
  | nil => simp [set_lastSet?]
  | cons b below ih =>
    obtain ⟨hb, hbelow⟩ := List.forall_mem_cons.1 h
    rw [List.cons_append, List.findSome?_cons, ih hbelow, set_lastSet?, hb]
    by_cases hb : b = target
    · rw [if_pos ⟨hb, rfl⟩]
    · rw [if_neg fun hboth => hb hboth.1]

theorem findSome?_set_of_hidden {chain : List (Fin n)}
    (h : ∀ below above, chain = below ++ target :: above →
      ∃ b ∈ below, history.lastSet? b name ≠ none) :
    chain.findSome? ((history.set target name value).lastSet? · name) =
      chain.findSome? (history.lastSet? · name) := by
  induction chain with
  | nil => rfl
  | cons c chain ih =>
    -- a nearest scope is hidden by no other one
    have hc : c ≠ target := by
      rintro rfl
      obtain ⟨b, hb, -⟩ := h [] chain rfl
      exact List.not_mem_nil hb
    rw [List.findSome?_cons, List.findSome?_cons, set_lastSet?,
      if_neg fun hboth => hc hboth.1]
    cases hlast : history.lastSet? c name with
    | some old => rfl
    | none =>
      refine ih fun below above hchain => ?_
      obtain ⟨b, hb, hset⟩ := h (c :: below) above (congrArg (c :: ·) hchain)
      rcases List.mem_cons.1 hb with rfl | hb
      · exact absurd hlast hset
      · exact ⟨b, hb, hset⟩

variable (history) in
theorem get?_set_of_ne (e : Fin n) {other : String} (hne : other ≠ name) :
    (history.set target name value).store.get? (history.scope e) other =
      history.store.get? (history.scope e) other := by
  obtain ⟨chain, walk⟩ := exists_walk history e
  refine (walk.set.get? other).trans (.trans ?_ (walk.get? other).symm)
  refine congrArg (chain.findSome? ·) (funext fun c => ?_)
  rw [set_lastSet?, if_neg fun hboth => hne hboth.2]

theorem Sees.get?_set {e : Fin n} (h : history.Sees e target name) :
    (history.set target name value).store.get? (history.scope e) name = some value := by
  obtain ⟨below, above, walk, hbelow⟩ := h
  exact (walk.set.get? name).trans (findSome?_set_of_seen value above hbelow)

theorem get?_set_of_not_sees {e : Fin n} (h : ¬ history.Sees e target name) :
    (history.set target name value).store.get? (history.scope e) name =
      history.store.get? (history.scope e) name := by
  obtain ⟨chain, walk⟩ := exists_walk history e
  refine (walk.set.get? name).trans (.trans ?_ (walk.get? name).symm)
  refine findSome?_set_of_hidden value fun below above hchain => ?_
  by_contra hnone
  push Not at hnone
  exact h ⟨below, above, hchain ▸ walk, hnone⟩

end Set

variable (history)

/-- After any history, a scope is linked to an older parent, and following the links from it ends
at a root. A name stands for the value that was last set for it in the nearest scope on the way
where it was ever set. The visible names are those that stand for something, in byte order and once
each, and a child is one deeper than its parent. Setting a name in a scope changes no other name,
and that name for exactly those scopes that see the scope. -/
theorem scopes_are_stack_of_maps (e : Fin n) :
    (history.scope e).parent? = (history.parent? e).map history.scope ∧
    (∀ parent, history.parent? e = some parent → parent < e) ∧
    (∃! chain, history.Walk e chain) ∧
    (∀ chain, history.Walk e chain →
      chain.length = (history.scope e).depth + 1 ∧
      ∀ name, history.store.get? (history.scope e) name =
        chain.findSome? (history.lastSet? · name)) ∧
    (∀ name, history.store.contains (history.scope e) name = true ↔
      name ∈ history.store.names (history.scope e)) ∧
    (history.store.names (history.scope e)).Pairwise Text.Before ∧
    (history.store.names (history.scope e)).Nodup ∧
    ((history.child e).scope (Fin.last n)).depth = (history.scope e).depth + 1 ∧
    ∀ target name value,
      let after := (history.set target name value).store
      (∀ other, other ≠ name →
        after.get? (history.scope e) other = history.store.get? (history.scope e) other) ∧
      (history.Sees e target name → after.get? (history.scope e) name = some value) ∧
      (¬ history.Sees e target name →
        after.get? (history.scope e) name = history.store.get? (history.scope e) name) := by
  obtain ⟨chain, walk⟩ := exists_walk history e
  have hsorted := Text.pairwise_sortNames ((history.scope e).chain.flatMap fun id =>
    (history.store.frames[id]?.map (·.names)).getD [])
  refine ⟨parent?_scope history e, fun parent => parent?_lt history,
    ⟨chain, walk, fun other h => h.unique walk⟩,
    fun chain walk => ⟨walk.length, walk.get?⟩,
    fun name => Store.mem_names_iff.symm, hsorted, ?_, ?_, fun target name value => ?_⟩
  · refine hsorted.imp fun {a b} hbefore => ?_
    rintro rfl
    exact Std.Irrefl.irrefl a hbefore
  · rw [child, make_scope_last]
    rfl
  · exact ⟨fun other hne => get?_set_of_ne history value e hne,
      fun h => h.get?_set value, get?_set_of_not_sees value⟩

end ScopeHistory

end MacroLisp
