import MacroLisp.Store
import Mathlib.Data.List.Sort

/-!
# What a name stands for

Setting a name in a scope gives the name its value there and leaves the value of every other name as
it is. So every primitive is bound in the global scope of the initial store. The names that are
listed for a scope are those that stand for something in it. What is true of all values that the
frames bind is kept by a write of one more such value, so it is true of the initial store if it is
true of the primitives.
-/

namespace MacroLisp

namespace Text

instance : Std.Irrefl Before := ⟨fun a => List.lt_irrefl (bytes a)⟩

instance : Std.Antisymm Before := ⟨fun a _ h h' => absurd (h.trans h') (List.lt_irrefl (bytes a))⟩

end Text

theorem Frame.forall_get?_set {P : Node → Prop} {frame : Frame}
    (h : ∀ name value, frame.get? name = some value → P value) {name : String} {value : Node}
    (hvalue : P value) : ∀ other found, (frame.set name value).get? other = some found → P found := by
  intro other found hfound
  rw [Frame.get?_set] at hfound
  split at hfound
  · cases hfound
    exact hvalue
  · exact h other found hfound

theorem Frame.mem_names_iff {frame : Frame} {name : String} :
    name ∈ frame.names ↔ (frame.get? name).isSome = true := by
  obtain ⟨bindings⟩ := frame
  unfold names get?
  induction bindings with
  | nil => exact ⟨nofun, nofun⟩
  | cons b bindings ih =>
    rw [List.map_cons, List.mem_cons, List.lookup_cons]
    by_cases h : name = b.1
    · rw [beq_iff_eq.2 h]
      exact ⟨fun _ => rfl, fun _ => Or.inl h⟩
    · rw [beq_eq_false_iff_ne.2 h]
      exact (or_iff_right h).trans ih

namespace Store

/-- The names that are listed for a scope are those that are bound in it. -/
theorem mem_names_iff {s : Store} {scope : Scope} {name : String} :
    name ∈ s.names scope ↔ (s.get? scope name).isSome = true := by
  rw [names, Text.mem_sortNames, get?]
  induction scope.chain with
  | nil => exact ⟨nofun, nofun⟩
  | cons id chain ih =>
    rw [List.flatMap_cons, List.mem_append, ih, getIn?, Option.isSome_or, Bool.or_eq_true]
    refine or_congr_left ?_
    cases s.frames[id]? with
    | none => exact ⟨nofun, nofun⟩
    | some frame => exact Frame.mem_names_iff

/-- What a name stands for is bound in a frame of the scope. -/
theorem exists_frame_of_get? {s : Store} {scope : Scope} {name : String} {value : Node}
    (h : s.get? scope name = some value) :
    ∃ id ∈ scope.chain, ∃ frame, s.frames[id]? = some frame ∧ frame.get? name = some value := by
  rw [get?] at h
  generalize scope.chain = chain at h ⊢
  induction chain with
  | nil => cases h
  | cons id chain ih =>
    rw [getIn?, Option.or_eq_some_iff] at h
    rcases h with hhere | ⟨-, hthere⟩
    · exact ⟨id, List.mem_cons_self, Option.bind_eq_some_iff.1 hhere⟩
    · obtain ⟨other, hother, hfound⟩ := ih hthere
      exact ⟨other, List.mem_cons_of_mem id hother, hfound⟩

theorem frame_of_set {s : Store} {scope : Scope} {name : String} {value : Node} {id : FrameId}
    {frame : Frame} (h : (s.set scope name value).frames[id]? = some frame) :
    ∃ old, s.frames[id]? = some old ∧ (frame = old ∨ frame = old.set name value) := by
  rw [set, Array.getElem?_modify] at h
  split at h
  · obtain ⟨old, hold, rfl⟩ := Option.map_eq_some_iff.1 h
    exact ⟨old, hold, Or.inr rfl⟩
  · exact ⟨frame, h, Or.inl rfl⟩

theorem frame_of_newRoot {s : Store} {id : FrameId} {frame : Frame}
    (h : s.newRoot.2.frames[id]? = some frame) : frame = .empty ∨ s.frames[id]? = some frame := by
  rw [newRoot, Array.getElem?_push] at h
  split at h
  · exact Or.inl (Option.some.inj h).symm
  · exact Or.inr h

theorem get?_set_self {s : Store} {scope : Scope} (h : scope.frame < s.frames.size) (name : String)
    (value : Node) : (s.set scope name value).get? scope name = some value := by
  have hframe : (s.frames.modify scope.frame (·.set name value))[scope.frame]? =
      some (s.frames[scope.frame].set name value) := by
    rw [Array.getElem?_modify, if_pos rfl, Array.getElem?_eq_getElem h, Option.map_some]
  simp only [get?, set, Scope.chain, getIn?, hframe, Option.bind_some, Frame.get?_set, if_true,
    Option.some_or]

theorem get?_set_of_ne (s : Store) (scope : Scope) {name other : String} (h : other ≠ name)
    (value : Node) : (s.set scope name value).get? scope other = s.get? scope other := by
  unfold get?
  induction scope.chain with
  | nil => rfl
  | cons id chain ih =>
    have hframe : ((s.set scope name value).frames[id]?.bind fun frame => frame.get? other) =
        s.frames[id]?.bind fun frame => frame.get? other := by
      rw [set, Array.getElem?_modify]
      split
      · rw [Option.bind_map]
        refine Option.bind_congr fun frame _ => ?_
        simp only [Function.comp_apply, Frame.get?_set, if_neg h]
      · rfl
    rw [getIn?, getIn?, hframe, ih]

theorem size_set (s : Store) (scope : Scope) (name : String) (value : Node) :
    (s.set scope name value).frames.size = s.frames.size := by
  rw [set, Array.size_modify]

def primitiveValue (p : Primitive) : Node := .atom (.function (.primitive p)) ⟨0, 0⟩

/-- What holds of a store with one empty frame and is kept by binding a primitive holds of the
initial store. -/
theorem initial_induction {Q : Store → Prop} (hroot : Q empty.newRoot.2)
    (hset : ∀ s scope p, Q s → Q (s.set scope p.name (primitiveValue p))) : Q initial.2 :=
  List.foldlRecOn Primitive.all _ hroot fun s hs p _ => hset s _ p hs

theorem get?_foldl_set {s : Store} {scope : Scope} (h : scope.frame < s.frames.size)
    {ps : List Primitive} {p : Primitive}
    (hp : p ∈ ps ∨ s.get? scope p.name = some (primitiveValue p)) :
    (ps.foldl (fun store q => store.set scope q.name (primitiveValue q)) s).get? scope p.name =
      some (primitiveValue p) := by
  induction ps generalizing s with
  | nil => exact hp.resolve_left List.not_mem_nil
  | cons q ps ih =>
    rw [List.foldl_cons]
    refine ih (by rwa [size_set]) ?_
    by_cases hname : p.name = q.name
    · obtain rfl := Primitive.name_injective hname
      exact Or.inr (get?_set_self h _ _)
    · rw [get?_set_of_ne s scope hname]
      refine hp.imp_left fun hmem => ?_
      exact (List.mem_cons.1 hmem).resolve_left fun heq => hname (congrArg Primitive.name heq)

theorem get?_initial (p : Primitive) :
    initial.2.get? initial.1 p.name = some (primitiveValue p) :=
  get?_foldl_set (Nat.zero_lt_one) (Or.inl (Primitive.mem_all p))

end Store

end MacroLisp
