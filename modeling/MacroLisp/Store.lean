import MacroLisp.Node
import MacroLisp.Arguments
import MacroLisp.Source
import MacroLisp.Text.ByteOrder

/-!
# Store

A frame holds the bindings of one scope. A scope is the chain of frames that are visible at one
place of a program, innermost first; it is never empty, and scopes share the frames of their
ancestors. The store holds all frames and all closures built so far. Looking a name up takes the
innermost frame that binds it; setting a name changes the innermost frame only.
-/

namespace MacroLisp

structure Frame where
  bindings : List (String × Node)
deriving Inhabited

namespace Frame

def empty : Frame := ⟨[]⟩

def get? (frame : Frame) (name : String) : Option Node := frame.bindings.lookup name

def setIn (name : String) (value : Node) : List (String × Node) → List (String × Node)
  | [] => [(name, value)]
  | (other, old) :: bindings =>
    if name == other then (name, value) :: bindings
    else (other, old) :: setIn name value bindings

def set (frame : Frame) (name : String) (value : Node) : Frame :=
  ⟨setIn name value frame.bindings⟩

def names (frame : Frame) : List String := frame.bindings.map (·.1)

theorem get?_set (frame : Frame) (name : String) (value : Node) (other : String) :
    (frame.set name value).get? other = if other = name then some value else frame.get? other := by
  obtain ⟨bindings⟩ := frame
  simp only [set, get?]
  induction bindings with
  | nil => simp [setIn, List.lookup_cons]; split <;> simp_all
  | cons b bindings ih =>
    obtain ⟨key, old⟩ := b
    simp only [setIn]
    split
    · next h =>
      simp only [beq_iff_eq] at h
      subst h
      simp only [List.lookup_cons]
      split <;> simp_all
    · next h =>
      simp only [beq_iff_eq] at h
      simp only [List.lookup_cons]
      split
      · next hk =>
        simp only [beq_iff_eq] at hk
        subst hk
        simp [Ne.symm h]
      · exact ih

end Frame

/-- The place of a frame in the store. -/
abbrev FrameId := Nat

structure Scope where
  frame : FrameId
  outer : List FrameId
deriving DecidableEq

namespace Scope

/-- All frames of the scope, innermost first. -/
def chain (scope : Scope) : List FrameId := scope.frame :: scope.outer

def depth (scope : Scope) : Nat := scope.outer.length

def parent? (scope : Scope) : Option Scope :=
  match scope.outer with
  | [] => none
  | frame :: outer => some ⟨frame, outer⟩

end Scope

/-- A function defined by a program: the body is evaluated in a child of the captured scope, and
its spans point into the captured source. -/
structure Closure where
  params : Params
  body : List Node
  scope : Scope
  span : Span
  source : Source

structure Store where
  frames : Array Frame
  closures : Array Closure

namespace Store

def empty : Store := ⟨#[], #[]⟩

def newRoot (store : Store) : Scope × Store :=
  (⟨store.frames.size, []⟩, { store with frames := store.frames.push .empty })

def newChild (store : Store) (scope : Scope) : Scope × Store :=
  (⟨store.frames.size, scope.chain⟩, { store with frames := store.frames.push .empty })

def getIn? (store : Store) (name : String) : List FrameId → Option Node
  | [] => none
  | id :: chain => (store.frames[id]?.bind (·.get? name)).or (getIn? store name chain)

def get? (store : Store) (scope : Scope) (name : String) : Option Node :=
  store.getIn? name scope.chain

def contains (store : Store) (scope : Scope) (name : String) : Bool :=
  (store.get? scope name).isSome

def set (store : Store) (scope : Scope) (name : String) (value : Node) : Store :=
  { store with frames := store.frames.modify scope.frame (·.set name value) }

/-- Every name visible from the scope, in byte order and once each. -/
def names (store : Store) (scope : Scope) : List String :=
  Text.sortNames (scope.chain.flatMap fun id => (store.frames[id]?.map (·.names)).getD [])

def addClosure (store : Store) (closure : Closure) : ClosureId × Store :=
  (store.closures.size, { store with closures := store.closures.push closure })

def newGlobal (store : Store) : Scope × Store :=
  let (scope, store) := store.newRoot
  (scope, Primitive.all.foldl
    (fun store p => store.set scope p.name (.atom (.function (.primitive p)) ⟨0, 0⟩)) store)

def initial : Scope × Store := empty.newGlobal

end Store

end MacroLisp
