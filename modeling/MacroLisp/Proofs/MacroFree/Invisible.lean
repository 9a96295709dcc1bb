import MacroLisp.Proofs.Engine.Services
import MacroLisp.Proofs.MacroFree.Plain
import MacroLisp.Proofs.Spans.Session

/-!
# Expansion is invisible to programs without macros

What a program can come to from the global scope is what its frames bind, what stands in lists, and
what closures hold and have captured. If there is no macro among this, the reachable part of the
store is a region without macros, and a run that neither defines a macro nor evaluates a form that
is headed by a list comes to the same as the plain evaluator, under every expansion limit.
-/

namespace MacroLisp

open Eval

/-- Something that a program can come to. -/
inductive Place where
  | frame (id : FrameId)
  | closure (id : ClosureId)
  | node (node : Node)

def Place.Inside (R : Region) : Place → Prop
  | frame id => R.frames id
  | closure id => R.closures id
  | node m => m.Tame R

/-- The place can be come to from the scope. -/
inductive Store.Reaches (store : Store) (root : Scope) : Place → Prop where
  | root {id : FrameId} (h : id ∈ root.chain) : Reaches store root (.frame id)
  | binding {id : FrameId} {frame : Frame} {name : String} {value : Node}
      (h : Reaches store root (.frame id)) (hframe : store.frames[id]? = some frame)
      (hvalue : frame.get? name = some value) : Reaches store root (.node value)
  | item {items : List Node} {span : Span} {item : Node}
      (h : Reaches store root (.node (.list items span))) (hitem : item ∈ items) :
      Reaches store root (.node item)
  | callee {node : Node} {id : ClosureId} (h : Reaches store root (.node node))
      (hid : node.callable? = some (.closure id)) : Reaches store root (.closure id)
  | body {id : ClosureId} {closure : Closure} {form : Node}
      (h : Reaches store root (.closure id)) (hclosure : store.closures[id]? = some closure)
      (hform : form ∈ closure.body) : Reaches store root (.node form)
  | captured {id : ClosureId} {closure : Closure} {frame : FrameId}
      (h : Reaches store root (.closure id)) (hclosure : store.closures[id]? = some closure)
      (hframe : frame ∈ closure.scope.chain) : Reaches store root (.frame frame)

def Store.MacroFree (store : Store) (root : Scope) : Prop :=
  ∀ callable span, ¬ store.Reaches root (.node (.atom (.expander callable) span))

namespace Store

variable {store : Store} {root : Scope}

/-- The places that can be come to, and those where nothing is yet. -/
def region (store : Store) (root : Scope) : Region where
  frames id := store.Reaches root (.frame id) ∨ store.frames.size ≤ id
  closures id := store.Reaches root (.closure id) ∨ store.closures.size ≤ id

mutual

theorem MacroFree.node (h : store.MacroFree root) : (node : Node) →
    store.Reaches root (.node node) → node.Tame (store.region root)
  | .atom value span, hnode => by
    refine .atom ?_
    cases value with
    | nil | bool | number | string | symbol => trivial
    | function callable =>
      cases callable with
      | primitive p => trivial
      | closure id => exact Or.inl (hnode.callee rfl)
    | expander callable => exact (h callable span hnode).elim
  | .list items _, hnode => .list (MacroFree.nodes h items fun _ hitem => hnode.item hitem)

theorem MacroFree.nodes (h : store.MacroFree root) : (nodes : List Node) →
    (∀ node ∈ nodes, store.Reaches root (.node node)) →
    ∀ node ∈ nodes, node.Tame (store.region root)
  | [], _ => List.forall_mem_nil _
  | node :: nodes, hnodes =>
    List.forall_mem_cons.2 ⟨MacroFree.node h node (List.forall_mem_cons.1 hnodes).1,
      MacroFree.nodes h nodes (List.forall_mem_cons.1 hnodes).2⟩

end

/-- If there is no macro to come to, the store is tame where one can come to. -/
theorem MacroFree.tame (h : store.MacroFree root) : store.Tame (store.region root) where
  frames id frame hid hframe name value hvalue := by
    rcases hid with hid | hfresh
    · exact h.node value (hid.binding hframe hvalue)
    · rw [Array.getElem?_eq_none hfresh] at hframe
      cases hframe
  closures id closure hid hclosure := by
    rcases hid with hid | hfresh
    · exact ⟨fun form hform => h.node form (hid.body hclosure hform),
        fun frame hframe => Or.inl (hid.captured hclosure hframe)⟩
    · rw [Array.getElem?_eq_none hfresh] at hclosure
      cases hclosure
  freshFrames _ hid := Or.inr hid
  freshClosures _ hid := Or.inr hid

theorem Reaches.inside {R : Region} {place : Place} (h : store.Reaches root place)
    (hstore : store.Tame R) (hroot : root.Inside R) : place.Inside R := by
  induction h with
  | root h => exact hroot _ h
  | binding _ hframe hvalue ih => exact hstore.frames _ _ ih hframe _ _ hvalue
  | item _ hitem ih => exact Node.all_list_iff.1 ih _ hitem
  | callee _ hid ih => exact Node.Tame.closure ih hid
  | body _ hclosure hform ih => exact (hstore.closures _ _ ih hclosure).body _ hform
  | captured _ hclosure hframe ih => exact (hstore.closures _ _ ih hclosure).scope _ hframe

theorem macroFree_of_tame {R : Region} (hstore : store.Tame R) (hroot : root.Inside R) :
    store.MacroFree root :=
  fun _ _ h => Node.Tame.not_expander (h.inside hstore hroot)

theorem tame_empty {R : Region} (hframes : ∀ id, R.frames id) (hclosures : ∀ id, R.closures id) :
    empty.Tame R where
  frames _ _ _ hframe := by cases hframe
  closures _ _ _ hclosure := by cases hclosure
  freshFrames id _ := hframes id
  freshClosures id _ := hclosures id

theorem macroFree_initial : initial.2.MacroFree initial.1 := by
  have hempty : empty.Tame ⟨fun _ => True, fun _ => True⟩ :=
    tame_empty (fun _ => trivial) fun _ => trivial
  have hinitial : initial.2.Tame ⟨fun _ => True, fun _ => True⟩ :=
    initial_induction hempty.newRoot fun _ scope p h => h.set scope p.name (.atom trivial)
  exact macroFree_of_tame hinitial fun _ _ => trivial

end Store

section Outcomes

variable {α : Type} {o : Outcome α} {alarm : Fault}

theorem Outcome.not_ends_of_never : ¬ o.Ends fun _ => False := by
  cases o <;> exact id

theorem Outcome.eq_fault_of_ends (h : o.Ends (· = some alarm)) : o = .fault alarm := by
  cases o with
  | value => exact h.elim
  | fault f => exact congrArg Outcome.fault (Option.some.inj h)
  | unfinished => cases h

theorem Outcome.Finished.not_ends (h : o.Finished) : ¬ o.Ends (· = none) := by
  cases o with
  | value => exact id
  | fault f => exact nofun
  | unfinished => exact h.elim

theorem Outcome.Finished.eq_fault_of_ends (h : o.Finished)
    (hends : o.Ends fun e => e = none ∨ e = some alarm) : o = .fault alarm := by
  cases o with
  | value => exact hends.elim
  | fault f =>
    obtain hnone | hsome := hends
    · cases hnone
    · exact congrArg Outcome.fault (Option.some.inj hsome)
  | unfinished => exact h.elim

end Outcomes

namespace Engine

variable (engine : Engine) (depth : Nat) (source : Source)

def runPlain : Performance Node :=
  engine.perform source ((evalPlain depth).body engine.global source.whole)

/-- Runs a source, and fails with the given fault on the first form of one sort. -/
def runUnless (stop : Node → Bool) (alarm : Fault) : Performance Node :=
  engine.perform source
    ((evalUnless stop alarm (engine.options false) depth).body engine.global source.whole)

/-- The run of the source evaluates a form of the sort: whatever the alarm, it is raised. -/
def Meets (stop : Node → Bool) : Prop :=
  ∃ depth, ∀ alarm, (engine.runUnless depth source stop alarm).outcome = .fault alarm

variable {engine depth source}

theorem runUnless_deepens (stop : Node → Bool) (alarm : Fault) :
    Performance.Deepens fun d => engine.runUnless d source stop alarm :=
  engine.perform_deepens source fun forms => deepens_of_follows fun _ _ hd =>
    body_follows (evalUnless_follows stop alarm (engine.options false) hd) engine.global
      source.whole forms

theorem not_meets_of_value {stop : Node → Bool} {alarm : Fault} {v : Node}
    (h : (engine.runUnless depth source stop alarm).outcome = .value v) :
    ¬ engine.Meets source stop := by
  rintro ⟨d, hraised⟩
  have hfinished : (engine.runUnless depth source stop alarm).outcome.Finished := by
    rw [h]
    trivial
  have hfinished' : (engine.runUnless d source stop alarm).outcome.Finished := by
    rw [hraised alarm]
    trivial
  -- at the greater of the two depths both runs are what they were, hence the same
  have hdeep := runUnless_deepens stop alarm depth (max depth d) (Nat.le_max_left _ _) hfinished
  have hdeep' := runUnless_deepens stop alarm d (max depth d) (Nat.le_max_right _ _) hfinished'
  have hsame : engine.runUnless depth source stop alarm = engine.runUnless d source stop alarm :=
    hdeep.symm.trans hdeep'
  rw [hsame, hraised alarm] at h
  cases h

variable (source) in
theorem perform_tracks (hstore : engine.store.MacroFree engine.global)
    {cut alarm : Option Fault → Prop} {ev ev' : Evaluator}
    (hev : ev'.Tracks (engine.store.region engine.global) cut alarm ev) :
    let p := engine.perform source (ev.body engine.global source.whole)
    let q := engine.perform source (ev'.body engine.global source.whole)
    p.outcome.Ends cut ∨ q.outcome.Ends alarm ∨ q = p := by
  unfold perform
  cases hforms : Reader.read source with
  | error fault => exact Or.inr (Or.inr rfl)
  | ok forms =>
    have hglobal : engine.global.Inside (engine.store.region engine.global) :=
      fun id hid => Or.inl (.root hid)
    have hbody := body_tracks hev hglobal source.whole fun form hform =>
      Node.tame_of_isWritten (Reader.read_isWritten hforms form hform)
    refine (hbody (engine.initialState source) hstore.tame).imp_right (Or.imp_right fun h => ?_)
    simp only [h.1]

section Unmet

variable (hstore : engine.store.MacroFree engine.global) (hmeets : ¬ engine.Meets source Node.isBarred)

include hstore hmeets

theorem exists_runUnless_eq (depth : Nat) :
    ∃ alarm, (engine.runUnless depth source Node.isBarred alarm).outcome ≠ .fault alarm ∧
      engine.runUnless depth source Node.isBarred alarm = engine.run depth source := by
  obtain ⟨alarm, halarm⟩ := not_forall.1 (not_exists.1 hmeets depth)
  refine ⟨alarm, halarm, ?_⟩
  rcases perform_tracks source hstore
    (evalUnless_tracks_eval alarm (engine.options false) depth) with hcut | hends | heq
  · exact (Outcome.not_ends_of_never hcut).elim
  · exact absurd (Outcome.eq_fault_of_ends hends) halarm
  · exact heq

/-- If no macro can be come to, and the run of the source neither defines a macro nor evaluates a
form that is headed by a list, then it comes to the same as the run of the plain evaluator: the same
outcome, the same texts printed, the same engine afterwards. The expansion limit does not matter,
and the two differ by one level of depth at most. -/
theorem run_eq_runPlain :
    (∀ depth, (engine.run depth source).outcome.Finished →
      engine.runPlain depth source = engine.run depth source) ∧
    ∀ depth, (engine.runPlain depth source).outcome.Finished →
      engine.run (depth + 1) source = engine.runPlain depth source := by
  -- the run with an alarm that is not raised stands between the two runs
  refine ⟨fun depth hfinished => ?_, fun depth hfinished => ?_⟩
  · obtain ⟨alarm, halarm, hrun⟩ := exists_runUnless_eq hstore hmeets depth
    rw [← hrun] at hfinished ⊢
    rcases perform_tracks source hstore
      (evalPlain_tracks_evalUnless alarm (engine.options false) depth) with hcut | hends | heq
    · exact absurd (hfinished.eq_fault_of_ends hcut) halarm
    · exact (Outcome.not_ends_of_never hends).elim
    · exact heq
  · obtain ⟨alarm, halarm, hrun⟩ := exists_runUnless_eq hstore hmeets (depth + 1)
    rw [← hrun]
    rcases perform_tracks source hstore
      (evalUnless_tracks_evalPlain alarm (engine.options false) depth) with hcut | hends | heq
    · exact absurd hcut hfinished.not_ends
    · exact absurd (Outcome.eq_fault_of_ends hends) halarm
    · exact heq

end Unmet

theorem run_eq_runPlain_call :
    let engine := Engine.new (some 0)
    let source : Source := ⟨"t", "(def pair (fn (x) (list x x))) (println (pair nil))"⟩
    engine.store.MacroFree engine.global ∧ ¬ engine.Meets source Node.isBarred ∧
      (∀ depth, (engine.run depth source).outcome.Finished →
        engine.runPlain depth source = engine.run depth source) ∧
      ∀ depth, (engine.runPlain depth source).outcome.Finished →
        engine.run (depth + 1) source = engine.runPlain depth source := by
  intro engine source
  have hstore : engine.store.MacroFree engine.global := Store.macroFree_initial
  have hvalue : (engine.runUnless 6 source Node.isBarred (.unlocated .noForm)).outcome.satisfies
      (fun _ => true) = true := by decide +kernel
  have hmeets : ¬ engine.Meets source Node.isBarred := by
    cases houtcome : (engine.runUnless 6 source Node.isBarred (.unlocated .noForm)).outcome with
    | value v => exact not_meets_of_value houtcome
    | fault | unfinished =>
      rw [houtcome] at hvalue
      cases hvalue
  exact ⟨hstore, hmeets, run_eq_runPlain hstore hmeets⟩

end Engine

end MacroLisp
