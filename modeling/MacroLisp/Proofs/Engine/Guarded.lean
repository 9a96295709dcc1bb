import MacroLisp.Engine
import MacroLisp.Proofs.Expansion.Gate

/-!
# Services behind a gate

Running a source, listing its expansions and recording its expansion steps, each with a gate before
every step of an expansion. What an engine with a limit does is what it does behind that limit. A
limit guards a service that never takes a form further than that, and that comes to the same as
without a limit unless some form has to go further, and then fails with the fault of the limit.
-/

namespace MacroLisp

open Eval

/-- The limit guards what is served. -/
structure Guarded {α : Type} (n : Nat) (serve : Gate → Performance α) : Prop where
  /-- Under the limit no form is rewritten more often: a watch for that is never alarmed. -/
  silent : ∀ alarm,
    serve (Gate.andThen (.limit (some n)) (.watch n alarm)) = serve (.limit (some n))
  /-- Without a limit, either no form is rewritten more often, and then the limit makes no
  difference, or the watch is alarmed by some overrun, and it is there that the limit fails. -/
  cut :
    (serve (.limit (some n)) = serve (.limit none) ∧
      ∀ alarm, serve (.watch n alarm) = serve (.limit none)) ∨
    ∃ o : Overrun, (serve (.limit (some n))).outcome = .fault (o.fault n) ∧ ∀ alarm,
      serve (.watch n alarm) = { serve (.limit (some n)) with outcome := .fault (alarm o) }

/-- Where the limit makes a difference, its fault is what comes of the input. -/
theorem Guarded.fault_of_ne {α : Type} {n : Nat} {serve : Gate → Performance α}
    (h : Guarded n serve) (hne : serve (.limit (some n)) ≠ serve (.limit none)) :
    ∃ o : Overrun, (serve (.limit (some n))).outcome = .fault (o.fault n) := by
  obtain ⟨hsame, -⟩ | ⟨o, hfault, -⟩ := h.cut
  · exact absurd hsame hne
  · exact ⟨o, hfault⟩

namespace Engine

section Behind

variable (engine : Engine) (gate : Gate) (tracing : Bool) (depth : Nat) (source : Source)

def runFormsBehind (forms : List Node) : Eval Node :=
  (evalBehind gate tracing depth).body engine.global source.whole forms

def expandFormsBehind : List Node → Eval (List Node)
  | [] => pure []
  | form :: forms => do
    let expansion ←
      expandBehind gate false (evalBehind gate false depth) depth 0 form engine.global
    let _ ← evalExpandedWith (evalBehind gate false depth)
      (expandBehind gate false (evalBehind gate false depth) depth 0) expansion engine.global
    let expansions ← expandFormsBehind forms
    pure (expansion :: expansions)

def traceFormsBehind (forms : List Node) : Eval (List ExpansionStep) := do
  let _ ← engine.runFormsBehind gate true depth source forms
  fun state => (.value state.trace.toList, state)

def runBehind : Performance Node :=
  engine.perform source (engine.runFormsBehind gate false depth source)

def expandBehind : Performance (List Node) :=
  engine.perform source (engine.expandFormsBehind gate depth)

def traceBehind : Performance (List ExpansionStep) :=
  engine.perform source (engine.traceFormsBehind gate depth source)

end Behind

variable (engine : Engine) (depth : Nat) (source : Source)

theorem runForms_eq_behind (tracing : Bool) : engine.runForms tracing depth source =
    engine.runFormsBehind (.limit engine.expansionLimit) tracing depth source := by
  funext forms
  rw [runForms, eval_eq_evalBehind]
  rfl

theorem run_eq_behind :
    engine.run depth source = engine.runBehind (.limit engine.expansionLimit) depth source := by
  rw [run, runForms_eq_behind, runBehind]

theorem trace_eq_behind :
    engine.trace depth source = engine.traceBehind (.limit engine.expansionLimit) depth source := by
  have hforms : engine.traceForms depth source =
      engine.traceFormsBehind (.limit engine.expansionLimit) depth source := by
    funext forms
    rw [traceForms, runForms_eq_behind, traceFormsBehind]
  rw [trace, hforms, traceBehind]

theorem expand_eq_behind :
    engine.expand depth source =
      engine.expandBehind (.limit engine.expansionLimit) depth source := by
  have hforms : engine.expandForms depth =
      engine.expandFormsBehind (.limit engine.expansionLimit) depth := by
    funext forms
    induction forms with
    | nil => rfl
    | cons form forms ih =>
      rw [expandForms, ih, MacroLisp.expand, evalExpanded, MacroLisp.expand, eval_eq_evalBehind,
        expandFrom_eq_expandBehind]
      rfl
  rw [expand, hforms, expandBehind]

section Guarding

variable {α : Type} {n : Nat}

theorem perform_guarded {action : Gate → List Node → Eval α}
    (h : ∀ forms, Watched fun i => action (.ofAlarm n i) forms) :
    Guarded n fun gate => engine.perform source (action gate) where
  silent alarm := by rw [Gate.limit_andThen_watch]
  cut := by
    rw [← Gate.watch_fault]
    cases hread : Reader.read source with
    | error fault =>
      have hserve (gate : Gate) :
          engine.perform source (action gate) = ⟨.fault fault, engine, #[]⟩ := by
        unfold perform
        rw [hread]
      exact Or.inl ⟨by rw [hserve, hserve], fun alarm => by rw [hserve, hserve]⟩
    | ok forms =>
      let result (r : Outcome α × EvalState) : Performance α :=
        ⟨r.1, { engine with store := r.2.store }, r.2.emitted⟩
      have hserve (gate : Gate) : engine.perform source (action gate) =
          result (action gate forms (engine.initialState source)) := by
        unfold perform
        rw [hread]
      rcases h forms (engine.initialState source) with hsame | ⟨o, t, hraised⟩
      · have hwatch (alarm : Alarm) : engine.perform source (action (.watch n alarm)) =
            engine.perform source (action (.limit none)) := by
          rw [hserve, hserve]
          exact congrArg result (hsame alarm)
        exact Or.inl ⟨hwatch _, hwatch⟩
      · have hwatch (alarm : Alarm) : engine.perform source (action (.watch n alarm)) =
            result (.fault (alarm o), t) :=
          (hserve _).trans (congrArg result (hraised alarm))
        refine Or.inr ⟨o, congrArg Performance.outcome (hwatch _), fun alarm => ?_⟩
        rw [hwatch, hwatch]

variable (n)

theorem evalBehind_watched (tracing : Bool) : Evaluator.Family (fun _ _ => Watched) fun i =>
    evalBehind (.ofAlarm n i) tracing depth :=
  evalBehind_family watched_compositional (watched_ofAlarm n) tracing depth

theorem runForms_watched (tracing : Bool) (forms : List Node) :
    Watched fun i => engine.runFormsBehind (.ofAlarm n i) tracing depth source forms :=
  body_passes watched_compositional.passable (evalBehind_watched depth n tracing) engine.global source.whole
    forms

theorem expandForms_watched (forms : List Node) :
    Watched fun i => engine.expandFormsBehind (.ofAlarm n i) depth forms := by
  have hP := watched_compositional
  have hev := evalBehind_watched depth n false
  have hex := expandBehind_family hP (watched_ofAlarm n) hev false depth 0
  induction forms with
  | nil => exact hP.const _
  | cons form forms ih =>
    refine hP.bind (hex form engine.global) fun expansion => ?_
    refine hP.bind (evalExpandedWith_family hP.passable hev hex expansion engine.global) fun _ => ?_
    exact hP.bind ih fun _ => hP.const _

/-- A limit guards every service of every engine. -/
theorem services_guarded :
    Guarded n (engine.runBehind · depth source) ∧ Guarded n (engine.expandBehind · depth source) ∧
      Guarded n (engine.traceBehind · depth source) := by
  refine ⟨?_, ?_, ?_⟩
  · exact engine.perform_guarded source (engine.runForms_watched depth source n false)
  · exact engine.perform_guarded source (engine.expandForms_watched depth n)
  · refine engine.perform_guarded source fun forms => ?_
    exact watched_compositional.bind (engine.runForms_watched depth source n true forms) fun _ =>
      watched_compositional.const _

end Guarding

end Engine

end MacroLisp
