import MacroLisp.Proofs.Engine.Guarded
import MacroLisp.Proofs.Repl.Session
import MacroLisp.Proofs.Script.Suite

/-!
# The limit on the command line

The commands that run, expand or trace a file build an engine with the given limit, and so does a
session, whose engine keeps it through every input and every reset. So the limit guards whatever
these commands evaluate, and its fault is the one that is reported. Tests are run without a limit
whatever limit is given.
-/

namespace MacroLisp.CommandLine

/-- Given a limit, it guards all that a command runs, expands or traces, and every input of a
session; what the command shows and the faults that it reports are those of the guarded input. To
the tests the limit makes no difference. -/
theorem limit_guards {s : Setting} {args : List String} {c : Command} {n : Nat}
    (h : parse args = some (.command c (some n))) (input : ByteArray) :
    let result := run s args input
    let engine := Engine.new (some n)
    let limit := Gate.limit (some n)
    (∀ path source, readSource s.files path = .ok source →
      (c = .run path → Guarded n (engine.runBehind · s.depth source) ∧ result =
        showPerformance (engine.runBehind limit s.depth source) (Report.value s.terminal)) ∧
      (c = .expand path → Guarded n (engine.expandBehind · s.depth source) ∧ result =
        showPerformance (engine.expandBehind limit s.depth source) Report.expansions) ∧
      (c = .trace path → Guarded n (engine.traceBehind · s.depth source) ∧ result =
        showPerformance (engine.traceBehind limit s.depth source) (Report.trace s.terminal))) ∧
    (c = .repl →
      let ran := inputs s (.start (some n)) ((splitLines input.toList).map decodeLine)
      (∀ x ∈ ran, Guarded n (x.1.engine.runBehind · s.depth (x.1.sourceOf x.2)) ∧
        performed s x = x.1.engine.runBehind limit s.depth (x.1.sourceOf x.2)) ∧
      ∃ rest, result.faults = ran.flatMap (fun x => (performed s x).outcome.fault?.toList) ++ rest ∧
        ∀ f ∈ rest, f = unreadable) ∧
    ∀ path, c = .test path → ∀ other, result = execute s other input c := by
  intro result engine limit
  have hresult : result = execute s (some n) input c := run_eq_execute h input
  refine ⟨fun path source hsource => ?_, ?_, ?_⟩
  · obtain ⟨hrun, hexpand, htrace⟩ := engine.services_guarded s.depth source n
    have hwith (action : Source → Result) : withSource s path action = action source := by
      unfold withSource
      rw [hsource]
    refine ⟨fun hc => ⟨hrun, ?_⟩, fun hc => ⟨hexpand, ?_⟩, fun hc => ⟨htrace, ?_⟩⟩
    · rw [hresult, hc, execute, hwith, Engine.run_eq_behind]
      rfl
    · rw [hresult, hc, execute, hwith, Engine.expand_eq_behind]
      rfl
    · rw [hresult, hc, execute, hwith, Engine.trace_eq_behind]
      rfl
  · rintro rfl ran
    refine ⟨fun x hx => ⟨(x.1.engine.services_guarded s.depth _ n).1, ?_⟩, ?_⟩
    · have hlimit : x.1.engine.expansionLimit = some n := inputs_expansionLimit x hx
      rw [performed, Engine.run_eq_behind, hlimit]
    · rw [hresult]
      exact interact_faults
  · rintro path rfl other
    exact hresult

def oneFile (text : String) : Setting :=
  ⟨⟨fun _ => .ok text, fun _ => .ok ["t/a.lisp"]⟩, ⟨false⟩, 8⟩

def expandedOnce : Source := ⟨"t/a.lisp", "(defmacro m (fn () nil)) (m)"⟩

theorem expandedOnce_exceeds : (Engine.new (some 0)).runBehind (.limit (some 0)) 8 expandedOnce ≠
    (Engine.new (some 0)).runBehind (.limit none) 8 expandedOnce := by
  have hunlimited : ((Engine.new (some 0)).runBehind (.limit none) 8 expandedOnce).outcome.satisfies
      (fun _ => true) = true := by decide +kernel
  have hlimited : ((Engine.new (some 0)).runBehind (.limit (some 0)) 8
      expandedOnce).outcome.satisfies (fun _ => true) = false := by decide +kernel
  intro hsame
  rw [hsame, hunlimited] at hlimited
  cases hlimited

theorem limit_guards_run :
    let args := ["--expansion-limit", "0", "run", "t/a.lisp"]
    parse args = some (.command (.run "t/a.lisp") (some 0)) ∧
      ∃ fault, (run (oneFile expandedOnce.text) args .empty).faults = [fault] ∧
        fault.kind = .eval := by
  intro args
  have hparse : parse args = some (.command (.run "t/a.lisp") (some 0)) := by decide +kernel
  have hread : readSource (oneFile expandedOnce.text).files "t/a.lisp" = .ok expandedOnce := rfl
  obtain ⟨hguarded, hresult⟩ := ((limit_guards hparse .empty).1 "t/a.lisp" expandedOnce hread).1 rfl
  obtain ⟨o, hfault⟩ := hguarded.fault_of_ne expandedOnce_exceeds
  refine ⟨hparse, o.fault 0, ?_, o.kind_fault 0⟩
  rw [hresult, showPerformance, hfault]
  rfl

/-- The same form passes as a test with the limit 0. -/
theorem limit_not_for_tests :
    let args := ["--expansion-limit", "0", "test", "t"]
    let script := "(defmacro m (fn () nil)) (test \"a\" (expect nil) (m))"
    parse args = some (.command (.test "t") (some 0)) ∧
      (∃ o : Overrun, ((Engine.new (some 0)).run 8 expandedOnce).outcome = .fault (o.fault 0)) ∧
      (run (oneFile script) args .empty).status = 0 := by
  intro args script
  have hparse : parse args = some (.command (.test "t") (some 0)) := by decide +kernel
  have hrun : (Script.runFile 8 (oneFile script).files "t/a.lisp").tally? = some (1, 0) := by
    decide +kernel
  have hpass : Script.FilePasses 8 (oneFile script).files "t/a.lisp" :=
    Script.filePasses_of_tally hrun
  refine ⟨hparse, ?_, ?_⟩
  · rw [Engine.run_eq_behind]
    exact ((Engine.new (some 0)).services_guarded 8 expandedOnce 0).1.fault_of_ne
      expandedOnce_exceeds
  · rw [run_eq_execute hparse]
    refine runTests_status_iff_passes.2 ⟨_, rfl, fun file hfile _ => ?_⟩
    obtain rfl := List.mem_singleton.1 hfile
    exact hpass

end MacroLisp.CommandLine
