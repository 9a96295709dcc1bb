import MacroLisp.Engine
import MacroLisp.Proofs.Spans.Evaluation
import Mathlib.Data.Finset.Max

/-!
# The faults of a session

A session is a number of inputs that one engine has run. Nodes go from one input to the next with
their spans, in functions, macros and quoted data, while a fault names the source of the function
that is running, or else the input itself. So the fault of an input names this or an earlier input,
and it points into the text of one of them, which need not be the same: `misplaced_fault` is a form
that is quoted by one input and evaluated by the next. A fault points into the source that it names
if no input so far is longer.
-/

namespace MacroLisp

open Eval

section Bounds

variable {n : Nat} {S T : Source → Prop} {store : Store} {engine : Engine} {source : Source}

theorem Store.Bounded.mono (h : store.Bounded n S) (hS : ∀ source, S source → T source) :
    store.Bounded n T where
  frames := h.frames
  closures closure hclosure :=
    ⟨(h.closures closure hclosure).body, hS _ (h.closures closure hclosure).source⟩

theorem Store.bounded_empty : Store.empty.Bounded n S := ⟨nofun, nofun⟩

theorem Store.bounded_initial : Store.initial.2.Bounded n S :=
  Store.initial_induction Store.bounded_empty.newRoot fun _ scope p h =>
    h.set scope p.name (.atom ⟨Nat.zero_le n, Nat.zero_le n⟩)

/-- An input within the length keeps the store of the engine bounded and has a bounded outcome. -/
theorem perform_bounded {α : Type} {P : α → Prop} {action : List Node → Eval α}
    (hstore : engine.store.Bounded n S) (hsource : S source)
    (haction : ∀ forms, (∀ form ∈ forms, form.Within source.size) → (action forms).Bounded n S P) :
    (engine.perform source action).outcome.Bounded n S P ∧
      (engine.perform source action).engine.store.Bounded n S := by
  unfold Engine.perform
  cases hforms : Reader.read source with
  | error fault =>
    obtain ⟨c, rfl, hc⟩ := Reader.read_error hforms
    exact ⟨⟨c, source, rfl, Or.inr ⟨hc, Or.inl hsource⟩⟩, hstore⟩
  | ok forms =>
    have hstate : (engine.initialState source).Bounded n S := ⟨hstore, hsource, nofun, nofun⟩
    obtain ⟨houtcome, hafter⟩ := haction forms (Reader.read_within hforms) _ hstate
    exact ⟨houtcome, hafter.store⟩

theorem runForms_bounded (tracing : Bool) (depth : Nat) {forms : List Node}
    (hsource : source.size ≤ n) (hforms : ∀ form ∈ forms, form.Within n) :
    (engine.runForms tracing depth source forms).Bounded n S (·.Within n) := by
  have hwhole : source.whole.Within source.size := source.contains_whole
  exact body_bounded (eval_bounded _ depth) engine.global (hwhole.mono hsource) hforms

theorem run_bounded {sources : List Source} (hstore : engine.store.Bounded n (· ∈ sources))
    (hsize : source.size ≤ n) (depth : Nat) :
    (engine.run depth source).outcome.Bounded n (· ∈ source :: sources) (·.Within n) ∧
      (engine.run depth source).engine.store.Bounded n (· ∈ source :: sources) := by
  have hmore := hstore.mono fun input => List.mem_cons_of_mem source
  exact perform_bounded hmore List.mem_cons_self fun forms hforms =>
    runForms_bounded false depth hsize fun form hform => (hforms form hform).mono hsize

end Bounds

/-- The engine has run these inputs, the last one first, and nothing else. -/
inductive Engine.HasRun : List Source → Engine → Prop where
  | new (limit : Option Nat) : HasRun [] (.new limit)
  | run {sources : List Source} {engine : Engine} (h : HasRun sources engine) (depth : Nat)
      (source : Source) : HasRun (source :: sources) (engine.run depth source).engine

section Session

variable {sources : List Source} {engine : Engine}

theorem Engine.HasRun.bounded (h : engine.HasRun sources) {n : Nat}
    (hn : ∀ input ∈ sources, input.size ≤ n) : engine.store.Bounded n (· ∈ sources) := by
  induction h with
  | new limit => exact Store.bounded_initial
  | @run sources engine _ depth source ih =>
    obtain ⟨hsource, hsources⟩ := List.forall_mem_cons.1 hn
    exact (run_bounded (ih hsources) hsource depth).2

/-- A fault of an input of a session is a fault of reading, which points into the source that it
names, or a fault of evaluation. That one names this or an earlier input and points into the text of
one of them, and into that of the input it names if no input so far is longer. -/
theorem fault_in_session (h : engine.HasRun sources) {depth : Nat} {source : Source} {f : Fault}
    (hf : (engine.run depth source).outcome = .fault f) :
    ∃ cause named span, f = .located cause named span ∧
      (cause.kind = .parse ∧ named.Contains span ∧
          (named ∈ source :: sources ∨ named.name = Primitive.readName) ∨
        cause.kind ∈ FaultKind.ofEvaluation ∧ named ∈ source :: sources ∧
          (∃ input ∈ source :: sources, input.Contains span) ∧
          ((∀ input ∈ source :: sources, input.size ≤ named.size) → named.Contains span)) := by
  obtain ⟨longest, hlongest, hsizes⟩ := (source :: sources).toFinset.exists_max_image Source.size
    ⟨source, List.mem_toFinset.2 List.mem_cons_self⟩
  rw [List.mem_toFinset] at hlongest
  simp only [List.mem_toFinset] at hsizes
  obtain ⟨hsource, hsources⟩ := List.forall_mem_cons.1 hsizes
  have houtcome := (run_bounded (h.bounded hsources) hsource depth).1
  rw [hf] at houtcome
  obtain ⟨c, named, rfl, ⟨⟨hkind, hspan⟩, hnamed⟩ | ⟨⟨hkind, hspan⟩, hnamed⟩⟩ := houtcome
  · exact ⟨c.cause, named, c.span, rfl, Or.inr ⟨hkind, hnamed, ⟨longest, hlongest, hspan⟩,
      fun hlonger => hspan.mono (hlonger longest hlongest)⟩⟩
  · exact ⟨c.cause, named, c.span, rfl, Or.inl ⟨List.mem_singleton.1 hkind, hspan,
      hnamed.imp_right fun hread => hread.1⟩⟩

end Session

def quotingInput : Source := ⟨"first.lisp", "(def form '(missing))"⟩

def evaluatingInput : Source := ⟨"second.lisp", "(eval form)"⟩

def quotingEngine : Engine := ((Engine.new none).run 6 quotingInput).engine

theorem quotingEngine_hasRun : quotingEngine.HasRun [quotingInput] :=
  .run (.new none) 6 quotingInput

def Outcome.fault? {α : Type} : Outcome α → Option Fault
  | fault f => some f
  | _ => none

theorem Outcome.eq_fault_of_fault? {α : Type} {o : Outcome α} {f : Fault} (h : o.fault? = some f) :
    o = .fault f := by
  cases o with
  | value a => cases h
  | fault e =>
    cases h
    rfl
  | unfinished => cases h

theorem evaluatingInput_outcome : (quotingEngine.run 6 evaluatingInput).outcome =
    .fault (.located (.unbound "missing") evaluatingInput ⟨12, 19⟩) :=
  Outcome.eq_fault_of_fault? (by decide +kernel)

/-- The second input evaluates a form that the first one quotes, and the fault lies in the text of
the first. -/
theorem fault_in_session_quoted :
    quotingEngine.HasRun [quotingInput] ∧
      ∃ f, (quotingEngine.run 6 evaluatingInput).outcome = .fault f ∧
        ∃ cause named span, f = .located cause named span ∧
          (cause.kind = .parse ∧ named.Contains span ∧
              (named ∈ [evaluatingInput, quotingInput] ∨ named.name = Primitive.readName) ∨
            cause.kind ∈ FaultKind.ofEvaluation ∧ named ∈ [evaluatingInput, quotingInput] ∧
              (∃ input ∈ [evaluatingInput, quotingInput], input.Contains span) ∧
              ((∀ input ∈ [evaluatingInput, quotingInput], input.size ≤ named.size) →
                named.Contains span)) :=
  ⟨quotingEngine_hasRun, _, evaluatingInput_outcome,
    fault_in_session quotingEngine_hasRun evaluatingInput_outcome⟩

/-- The second input has the eleven characters `(eval form)`, and its fault names it at the span
from 12 to 19: this is where `missing` stands in the first input. -/
theorem misplaced_fault :
    quotingEngine.HasRun [quotingInput] ∧
      (quotingEngine.run 6 evaluatingInput).outcome =
        .fault (.located (.unbound "missing") evaluatingInput ⟨12, 19⟩) ∧
      ¬ evaluatingInput.Contains ⟨12, 19⟩ ∧ quotingInput.Contains ⟨12, 19⟩ := by
  have hsize : evaluatingInput.size = 11 := by decide +kernel
  have hquoting : quotingInput.size = 21 := by decide +kernel
  refine ⟨quotingEngine_hasRun, evaluatingInput_outcome, ?_, ?_⟩
  · rintro ⟨-, hstop⟩
    rw [hsize] at hstop
    exact absurd hstop (by decide)
  · rw [Source.Contains, hquoting]
    decide

end MacroLisp
