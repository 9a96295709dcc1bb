import MacroLisp.Proofs.Domain.Evaluation
import MacroLisp.Proofs.Likeness.Reader
import MacroLisp.Proofs.Scope.Lookup

/-!
# Regions without macros

A region is a part of a store: some frames and closures, and all places where nothing is yet. A node
is tame if it holds no macro and no function from outside the region, and a store is tame if all
that the frames and closures of the region hold is tame, so that nothing leads out of it. What is
read is tame, and the tame nodes are a closed domain: no primitive and no template makes a macro.
-/

namespace MacroLisp

structure Region where
  frames : FrameId → Prop
  closures : ClosureId → Prop

def Atom.Tame (R : Region) : Atom → Prop
  | nil | bool _ | number _ | string _ | symbol _ | function (.primitive _) => True
  | function (.closure id) => R.closures id
  | expander _ => False

/-- There is no macro at or below the node, and every function there belongs to the region. -/
abbrev Node.Tame (R : Region) (node : Node) : Prop := node.All (Atom.Tame R)

def Scope.Inside (R : Region) (scope : Scope) : Prop := ∀ id ∈ scope.chain, R.frames id

structure Closure.Tame (R : Region) (closure : Closure) : Prop where
  body : ∀ form ∈ closure.body, form.Tame R
  scope : closure.scope.Inside R

def Frame.Tame (R : Region) (frame : Frame) : Prop :=
  ∀ name value, frame.get? name = some value → value.Tame R

structure Store.Tame (R : Region) (store : Store) : Prop where
  frames : ∀ id frame, R.frames id → store.frames[id]? = some frame → frame.Tame R
  closures : ∀ id closure, R.closures id → store.closures[id]? = some closure → closure.Tame R
  /-- The places where nothing is yet belong to the region. -/
  freshFrames : ∀ id, store.frames.size ≤ id → R.frames id
  freshClosures : ∀ id, store.closures.size ≤ id → R.closures id

variable {R : Region}

section Writes

variable {store : Store} {scope : Scope}

theorem Frame.tame_empty : Frame.empty.Tame R := nofun

theorem Frame.Tame.set {frame : Frame} (h : frame.Tame R) (name : String) {value : Node}
    (hvalue : value.Tame R) : (frame.set name value).Tame R :=
  Frame.forall_get?_set h hvalue

namespace Store.Tame

theorem get? (h : store.Tame R) (hscope : scope.Inside R) {name : String} {value : Node}
    (hvalue : store.get? scope name = some value) : value.Tame R := by
  obtain ⟨id, hid, frame, hframe, hfound⟩ := Store.exists_frame_of_get? hvalue
  exact h.frames id frame (hscope id hid) hframe name value hfound

theorem set (h : store.Tame R) (scope : Scope) (name : String) {value : Node}
    (hvalue : value.Tame R) : (store.set scope name value).Tame R where
  frames id frame hid hframe := by
    obtain ⟨old, hold, rfl | rfl⟩ := Store.frame_of_set hframe
    · exact h.frames id frame hid hold
    · exact (h.frames id old hid hold).set name hvalue
  closures := h.closures
  freshFrames id hid := h.freshFrames id (by rwa [Store.size_set] at hid)
  freshClosures := h.freshClosures

theorem newRoot (h : store.Tame R) : store.newRoot.2.Tame R where
  frames id frame hid hframe := by
    obtain rfl | hold := Store.frame_of_newRoot hframe
    · exact Frame.tame_empty
    · exact h.frames id frame hid hold
  closures := h.closures
  freshFrames id hid := by
    rw [Store.newRoot, Array.size_push] at hid
    exact h.freshFrames id (Nat.le_of_succ_le hid)
  freshClosures := h.freshClosures

theorem newChild (h : store.Tame R) (scope : Scope) : (store.newChild scope).2.Tame R := h.newRoot

theorem inside_newChild (h : store.Tame R) (hscope : scope.Inside R) :
    (store.newChild scope).1.Inside R :=
  List.forall_mem_cons.2 ⟨h.freshFrames _ (Nat.le_refl _), hscope⟩

theorem addClosure (h : store.Tame R) {closure : Closure} (hclosure : closure.Tame R) :
    (store.addClosure closure).2.Tame R where
  frames := h.frames
  closures id other hid hother := by
    rw [Store.addClosure, Array.getElem?_push] at hother
    split at hother
    · cases hother
      exact hclosure
    · exact h.closures id other hid hother
  freshFrames := h.freshFrames
  freshClosures id hid := by
    rw [Store.addClosure, Array.size_push] at hid
    exact h.freshClosures id (Nat.le_of_succ_le hid)

end Store.Tame

end Writes

namespace Node

variable {node : Node} {items : List Node} {span : Span}

theorem Tame.not_expander {callable : Callable} (h : (atom (.expander callable) span).Tame R) :
    False := all_atom_iff.1 h

theorem Tame.closure {id : ClosureId} (h : node.Tame R) (hid : node.callable? = some (.closure id)) :
    R.closures id := by
  cases h with
  | @atom value _ hvalue =>
    cases value with
    | function callable =>
      cases hid
      exact hvalue
    | expander => exact hvalue.elim
    | nil | bool | number | string | symbol => cases hid
  | list => cases hid

theorem Tame.withSpan (h : node.Tame R) (span : Span) : (node.withSpan span).Tame R := by
  cases h with
  | atom h => exact .atom h
  | list h => exact .list h

theorem tame_of_isWritten (h : node.IsWritten) : node.Tame R := by
  refine h.imp fun value hvalue => ?_
  cases value with
  | function | expander => exact hvalue.elim
  | nil | bool | number | string | symbol => trivial

section Collapse

theorem collapseItems_tame (h : ∀ item ∈ items, (item.collapse span).Tame R) :
    ∀ item ∈ collapseItems span items, item.Tame R := by
  induction items with
  | nil => exact nofun
  | cons item items ih =>
    obtain ⟨hitem, hitems⟩ := List.forall_mem_cons.1 h
    exact List.forall_mem_cons.2 ⟨hitem, ih hitems⟩

theorem Tame.collapse (h : node.Tame R) (span : Span) : (node.collapse span).Tame R := by
  induction h with
  | atom h => exact .atom h
  | list _ ih => exact .list (collapseItems_tame ih)

end Collapse

end Node

/-- Tame nodes, scopes inside the region and its closures, at whatever spans. -/
def Domain.tame (R : Region) : Domain where
  node := (·.Tame R)
  span _ := True
  scope := (·.Inside R)
  source _ := True
  closure := R.closures
  complaint _ := True

theorem tame_closed : (Domain.tame R).Closed where
  list_iff := Node.all_list_iff.trans (and_iff_left trivial).symm
  constant {value _} hvalue _ := by
    refine .atom ?_
    cases value with
    | function | expander => cases hvalue
    | nil | bool | number | string | symbol => trivial
  function hid _ := .atom hid
  callee := Node.Tame.closure
  span _ := trivial
  withSpan h _ := h.withSpan _
  tailSpan _ _ := trivial
  complaint _ _ := trivial
  read h _ := (Node.tame_of_isWritten (Reader.readOne_isWritten h)).collapse _

end MacroLisp
