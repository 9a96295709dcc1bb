import MacroLisp.Proofs.Domain.Evaluation
import MacroLisp.Proofs.Scope.Lookup
import MacroLisp.Proofs.Spans.Reader

/-!
# The spans of an evaluation

A state is bounded by a length and some sources if all its nodes lie within the length and it knows
no other sources. Every evaluation of a node within the length keeps the state bounded and comes to
a value within the length or to a bounded fault: one that names a known source and points within the
length, or one of reading, which points into the very text that was to be read.
-/

namespace MacroLisp

section Bounds

variable (n : Nat) (S : Source → Prop)

structure Closure.Bounded (closure : Closure) : Prop where
  body : ∀ form ∈ closure.body, form.Within n
  source : S closure.source

def Frame.Bounded (frame : Frame) : Prop :=
  ∀ name value, frame.get? name = some value → value.Within n

structure Store.Bounded (store : Store) : Prop where
  frames : ∀ (id : FrameId) frame, store.frames[id]? = some frame → frame.Bounded n
  closures : ∀ closure ∈ store.closures, closure.Bounded n S

structure EvalState.Bounded (s : EvalState) : Prop where
  store : s.store.Bounded n S
  source : S s.source
  emitted : ∀ emission ∈ s.emitted, emission.span.Within n
  trace : ∀ step ∈ s.trace, step.input.Within n ∧ step.output.Within n

def Fault.Bounded (f : Fault) : Prop :=
  ∃ (c : Complaint) (source : Source), f = c.inSource source ∧
    (c.Within FaultKind.ofEvaluation n ∧ S source ∨
      c.Within [.parse] source.size ∧
        (S source ∨ source.name = Primitive.readName ∧ Reader.readOne source = .error f))

variable {α : Type} (P : α → Prop)

def Outcome.Bounded : Outcome α → Prop
  | .value a => P a
  | .fault f => f.Bounded n S
  | .unfinished => True

/-- From bounded states the computation comes to values with the property `P` or bounded faults, in
bounded states. -/
def Eval.Bounded (x : Eval α) : Prop :=
  ∀ s : EvalState, s.Bounded n S → (x s).1.Bounded n S P ∧ (x s).2.Bounded n S

/-- Nodes within the length are evaluated to nodes within the length. -/
def Evaluator.Bounded (ev : Evaluator) : Prop :=
  ∀ node scope, node.Within n → (ev node scope).Bounded n S (·.Within n)

end Bounds

/-- The nodes and spans within the length, and the sources that are known. -/
def Domain.bounded (n : Nat) (S : Source → Prop) : Domain where
  node := (·.Within n)
  span := (·.Within n)
  scope _ := True
  source := S
  closure _ := True
  complaint := (·.Within FaultKind.ofEvaluation n)

variable {n : Nat} {S : Source → Prop}

section Writes

variable {store : Store}

theorem Frame.bounded_empty : Frame.empty.Bounded n := nofun

theorem Frame.Bounded.set {frame : Frame} (h : frame.Bounded n) (name : String) {value : Node}
    (hvalue : value.Within n) : (frame.set name value).Bounded n :=
  Frame.forall_get?_set h hvalue

theorem Store.Bounded.get? (h : store.Bounded n S) {scope : Scope} {name : String} {value : Node}
    (hvalue : store.get? scope name = some value) : value.Within n := by
  obtain ⟨id, -, frame, hframe, hfound⟩ := Store.exists_frame_of_get? hvalue
  exact h.frames id frame hframe name value hfound

theorem Store.Bounded.set (h : store.Bounded n S) (scope : Scope) (name : String) {value : Node}
    (hvalue : value.Within n) : (store.set scope name value).Bounded n S := by
  refine ⟨fun id frame hframe => ?_, h.closures⟩
  obtain ⟨old, hold, rfl | rfl⟩ := Store.frame_of_set hframe
  · exact h.frames id frame hold
  · exact (h.frames id old hold).set name hvalue

theorem Store.Bounded.newRoot (h : store.Bounded n S) : store.newRoot.2.Bounded n S := by
  refine ⟨fun id frame hframe => ?_, h.closures⟩
  obtain rfl | hold := Store.frame_of_newRoot hframe
  · exact Frame.bounded_empty
  · exact h.frames id frame hold

theorem Store.Bounded.newChild (h : store.Bounded n S) (scope : Scope) :
    (store.newChild scope).2.Bounded n S := h.newRoot

theorem Store.Bounded.addClosure (h : store.Bounded n S) {closure : Closure}
    (hclosure : closure.Bounded n S) : (store.addClosure closure).2.Bounded n S := by
  refine ⟨h.frames, fun other hother => ?_⟩
  rcases Array.mem_push.1 hother with hother | rfl
  · exact h.closures other hother
  · exact hclosure

end Writes

namespace Eval

variable {α β : Type} {P : α → Prop} {Q : β → Prop}

theorem bounded_pure {a : α} (h : P a) : (pure a : Eval α).Bounded n S P := fun _ hs => ⟨h, hs⟩

theorem bounded_unfinished : (unfinished : Eval α).Bounded n S P := fun _ hs => ⟨trivial, hs⟩

theorem bounded_bind {x : Eval α} {f : α → Eval β} (hx : x.Bounded n S P)
    (hf : ∀ a, P a → (f a).Bounded n S Q) : (x >>= f).Bounded n S Q := by
  intro s hs
  have h := hx s hs
  rw [bind_apply]
  generalize x s = r at h ⊢
  obtain ⟨o, t⟩ := r
  cases o with
  | value a => exact hf a h.1 t h.2
  | fault f => exact h
  | unfinished => exact h

theorem bounded_read {f : EvalState → α} (h : ∀ s : EvalState, s.Bounded n S → P (f s)) :
    Eval.Bounded n S P fun s => (.value (f s), s) :=
  fun s hs => ⟨h s hs, hs⟩

theorem bounded_write {f : EvalState → EvalState}
    (h : ∀ s : EvalState, s.Bounded n S → (f s).Bounded n S) :
    Eval.Bounded n S (fun _ => True) fun s => (.value (), f s) :=
  fun s hs => ⟨trivial, h s hs⟩

theorem bounded_fail {cause : Cause} {span : Span}
    (h : Complaint.Within FaultKind.ofEvaluation n ⟨cause, span⟩) :
    (fail cause span : Eval α).Bounded n S P :=
  fun s hs => ⟨⟨_, s.source, rfl, Or.inl ⟨h, hs.source⟩⟩, hs⟩

theorem bounded_unreadable {text : String} {f : Fault}
    (h : Reader.readOne ⟨Primitive.readName, text⟩ = .error f) :
    (throw f : Eval α).Bounded n S P := by
  obtain ⟨c, rfl, hc⟩ := Reader.readOne_error h
  exact fun s hs => ⟨⟨c, _, rfl, Or.inr ⟨hc, Or.inr ⟨rfl, h⟩⟩⟩, hs⟩

theorem bounded_source : source.Bounded n S S := bounded_read fun _ hs => hs.source

theorem bounded_lookup (scope : Scope) (name : String) :
    (lookup scope name).Bounded n S fun found => ∀ value ∈ found, value.Within n :=
  bounded_read fun _ hs _ hvalue => hs.store.get? hvalue

theorem bounded_closure? (id : ClosureId) :
    (closure? id).Bounded n S fun found => ∀ closure ∈ found, closure.Belongs (.bounded n S) := by
  refine bounded_read fun s hs closure hclosure => ?_
  have h := hs.store.closures closure (Array.mem_of_getElem? hclosure)
  exact ⟨h.body, trivial, h.source⟩

theorem bounded_names (scope : Scope) : (names scope).Bounded n S fun _ => True :=
  bounded_read fun _ _ => trivial

theorem bounded_bindName (scope : Scope) (name : String) {value : Node} (h : value.Within n) :
    (bindName scope name value).Bounded n S fun _ => True :=
  bounded_write fun _ hs => { hs with store := hs.store.set scope name h }

theorem bounded_newScope (parent : Scope) : (newScope parent).Bounded n S fun _ => True :=
  fun _ hs => ⟨trivial, { hs with store := hs.store.newChild parent }⟩

theorem bounded_newClosure {closure : Closure} (h : closure.Bounded n S) :
    (newClosure closure).Bounded n S fun _ => True :=
  fun _ hs => ⟨trivial, { hs with store := hs.store.addClosure h }⟩

theorem bounded_emit (text : String) {span : Span} (h : span.Within n) :
    (emit text span).Bounded n S fun _ => True := by
  refine bounded_write fun s hs => { hs with emitted := fun emission hemission => ?_ }
  rcases Array.mem_push.1 hemission with hemission | rfl
  · exact hs.emitted emission hemission
  · exact h

theorem bounded_recordIf (tracing : Bool) {step : ExpansionStep} (hinput : step.input.Within n)
    (houtput : step.output.Within n) : (recordIf tracing step).Bounded n S fun _ => True := by
  cases tracing with
  | false => exact bounded_pure trivial
  | true =>
    refine bounded_write fun s hs => { hs with trace := fun other hother => ?_ }
    rcases Array.mem_push.1 hother with hother | rfl
    · exact hs.trace other hother
    · exact ⟨hinput, houtput⟩

theorem bounded_within {source : Source} (hsource : S source) {x : Eval α}
    (hx : x.Bounded n S P) : (within source x).Bounded n S P := by
  intro s hs
  obtain ⟨houtcome, hstate⟩ := hx { s with source } { hs with source := hsource }
  exact ⟨houtcome, { hstate with source := hs.source }⟩

end Eval

open Eval

section Domains

theorem bounded_closed : (Domain.bounded n S).Closed where
  list_iff := Node.within_list_iff
  constant _ hspan := .atom hspan
  function _ hspan := .atom hspan
  callee _ _ := trivial
  span h := h.span
  withSpan h := h.withSpan
  tailSpan := Node.within_tailSpan
  complaint hcause hspan := ⟨hcause, hspan⟩
  read _ hspan := Node.within_collapse hspan _

theorem bounded_hasExpanders : (Domain.bounded n S).HasExpanders := fun h _ => .atom h.span

theorem bounded_carries : (Domain.bounded n S).Carries fun _ V x _ => x.Bounded n S V where
  pure := bounded_pure
  fail := bounded_fail
  unreadable := bounded_unreadable
  bind := bounded_bind
  source := bounded_source
  lookup name _ := bounded_lookup _ name
  names := bounded_names
  closure? _ := bounded_closure? _
  bindName := bounded_bindName
  newScope _ := bounded_newScope _
  newClosure h := bounded_newClosure ⟨h.body, h.source⟩
  emit := bounded_emit
  within hsource hx := bounded_within hsource hx

theorem Evaluator.Bounded.carried {ev : Evaluator} (h : ev.Bounded n S) :
    ev.Carried (.bounded n S) (fun _ V x _ => x.Bounded n S V) ev :=
  fun node scope hnode _ => h node scope hnode

end Domains

section Layers

variable {ev ex : Evaluator} (hev : ev.Bounded n S) (hex : ex.Bounded n S)

include hev

theorem body_bounded (scope : Scope) {span : Span} (hspan : span.Within n) {forms : List Node}
    (hforms : ∀ form ∈ forms, form.Within n) :
    (ev.body scope span forms).Bounded n S (·.Within n) :=
  body_carried bounded_carries bounded_closed hev.carried trivial hspan hforms

theorem callable_bounded (callable : Callable) {args : List Node}
    (hargs : ∀ arg ∈ args, arg.Within n) (scope : Scope) {call : Span} (hcall : call.Within n) :
    (callable.apply ev args scope call).Bounded n S (·.Within n) :=
  callable_carried bounded_carries bounded_closed hev.carried hargs trivial hcall fun _ _ => trivial

include hex in
theorem evalExpandedWith_bounded : Evaluator.Bounded n S (evalExpandedWith ev ex) :=
  fun _ _ hnode => evalExpandedWith_carried bounded_carries bounded_closed hev.carried hex.carried
    hnode trivial fun _ => bounded_hasExpanders

theorem expandFrom_bounded (options : EvalOptions) (fuel steps : Nat) :
    (expandFrom options ev fuel steps).Bounded n S := by
  induction fuel generalizing steps with
  | zero => exact fun node scope _ => bounded_unfinished
  | succ fuel ih =>
    intro node scope hnode
    unfold expandFrom
    split
    · obtain ⟨hitems, hspan⟩ := Node.within_list_iff.1 hnode
      obtain ⟨hhead, htail⟩ := List.forall_mem_cons.1 hitems
      split
      · exact bounded_pure hnode
      · refine bounded_bind (hev _ scope hhead) fun value _ => ?_
        split
        · split
          · exact bounded_fail ⟨by simp [FaultKind.ofEvaluation, Cause.kind], hspan⟩
          · refine bounded_bind (callable_bounded hev _ htail scope hspan) fun output houtput => ?_
            refine bounded_bind (bounded_recordIf _ hnode houtput) fun _ _ => ?_
            exact ih (steps + 1) output scope houtput
        · exact bounded_pure hnode
    · exact bounded_pure hnode

end Layers

section Runs

variable (options : EvalOptions) (depth : Nat)

theorem eval_bounded : (eval options depth).Bounded n S := by
  induction depth with
  | zero => exact fun node scope _ => bounded_unfinished
  | succ depth ih =>
    have hex := expandFrom_bounded ih options depth 0
    intro node scope hnode
    unfold eval evalWith
    split
    · refine bounded_bind (hex node scope hnode) fun expanded hexpanded => ?_
      exact evalExpandedWith_bounded ih hex expanded scope hexpanded
    · exact evalExpandedWith_bounded ih hex node scope hnode

end Runs

end MacroLisp
