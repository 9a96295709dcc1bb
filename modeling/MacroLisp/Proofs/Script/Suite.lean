import MacroLisp.CommandLine
import MacroLisp.Proofs.Script.Passing

/-!
# Suites report everything once

The report on a suite is put together from one report a file, in the order of the paths: a script
that runs adds one result a test, every other file adds its fault. The command ends with the status
0 only if no file adds a fault and no result is a failure, so every script below the path has been
read, set up and found to pass. The report that is shown has a PASS for exactly the results that
passed.
-/

namespace MacroLisp

theorem Path.pairwise_sort (paths : List String) :
    (Path.sort paths).Pairwise fun a b => Path.sortKey a ≤ Path.sortKey b := by
  have htrans (a b c : String) (hab : decide (sortKey a ≤ sortKey b) = true)
      (hbc : decide (sortKey b ≤ sortKey c) = true) : decide (sortKey a ≤ sortKey c) = true :=
    decide_eq_true (List.le_trans (of_decide_eq_true hab) (of_decide_eq_true hbc))
  have htotal (a b : String) :
      (decide (sortKey a ≤ sortKey b) || decide (sortKey b ≤ sortKey a)) = true := by
    rw [Bool.or_eq_true, decide_eq_true_iff, decide_eq_true_iff]
    exact List.le_total ..
  have hsorted : (sort paths).Pairwise fun a b => decide (sortKey a ≤ sortKey b) = true :=
    List.pairwise_mergeSort htrans htotal paths
  exact hsorted.imp of_decide_eq_true

namespace Script

def FileBegins (depth : Nat) (files : Files) (path : String) (tests : List Test) (s : EvalState) :
    Prop :=
  ∃ text, files.readText path = .ok text ∧ Begins depth ⟨path, text⟩ tests s

/-- The file runs, and all its tests pass. -/
def FilePasses (depth : Nat) (files : Files) (path : String) : Prop :=
  ∃ tests s, FileBegins depth files path tests s ∧
    ∀ test ∈ tests, test.Passes depth (Engine.new none).global s

/-- What a suite has to say of one file: a result for each test, or one fault. -/
inductive FileReport (depth : Nat) (files : Files) (path : String) : Summary → Prop where
  | ran {tests : List Test} {s : EvalState} {results : List TestResult}
      (hbegins : FileBegins depth files path tests s)
      (hresults : List.Forall₂ (Test.Reported depth (Engine.new none).global path s) tests results) :
      FileReport depth files path ⟨results, []⟩
  | broken {fault : Fault} (hfault : runFile depth files path = .fault fault)
      (h : ∀ tests s, ¬ FileBegins depth files path tests s) :
      FileReport depth files path ⟨[], [(path, fault)]⟩

section Files

variable {depth : Nat} {files : Files} {path : String} {paths : List String}
  {results : List TestResult} {summary : Summary}

theorem runFile_eq_of_readText {text : String} (h : files.readText path = .ok text) :
    runFile depth files path = runSource depth ⟨path, text⟩ := by
  cases hread : Script.read ⟨path, text⟩ <;> simp only [runFile, runSource, load, h, hread]

theorem runFile_eq_value_iff :
    runFile depth files path = .value results ↔
      ∃ text, files.readText path = .ok text ∧ runSource depth ⟨path, text⟩ = .value results := by
  constructor
  · intro h
    cases htext : files.readText path with
    | error e =>
      simp only [runFile, load, htext, reduceCtorEq] at h
    | ok text => exact ⟨text, rfl, (runFile_eq_of_readText htext).symm.trans h⟩
  · rintro ⟨text, htext, h⟩
    exact (runFile_eq_of_readText htext).trans h

theorem filePasses_iff :
    FilePasses depth files path ↔
      ∃ results, runFile depth files path = .value results ∧
        ∀ result ∈ results, result.passed = true := by
  constructor
  · rintro ⟨tests, s, ⟨text, htext, hbegins⟩, hpasses⟩
    obtain ⟨results, hrun, hpassed⟩ := runSource_passed_iff.2 ⟨tests, s, hbegins, hpasses⟩
    exact ⟨results, runFile_eq_value_iff.2 ⟨text, htext, hrun⟩, hpassed⟩
  · rintro ⟨results, h, hpassed⟩
    obtain ⟨text, htext, hrun⟩ := runFile_eq_value_iff.1 h
    obtain ⟨tests, s, hbegins, hpasses⟩ := runSource_passed_iff.1 ⟨results, hrun, hpassed⟩
    exact ⟨tests, s, ⟨text, htext, hbegins⟩, hpasses⟩

theorem filePasses_of_tally {count : Nat}
    (h : (runFile depth files path).tally? = some (count, 0)) : FilePasses depth files path := by
  obtain ⟨results, hresults, -, hfailed⟩ := Outcome.exists_of_tally? h
  refine filePasses_iff.2 ⟨results, hresults, ?_⟩
  simpa [List.countP_eq_zero] using hfailed

theorem fileReport_of_results (h : runFile depth files path = .value results) :
    FileReport depth files path ⟨results, []⟩ := by
  obtain ⟨text, htext, hrun⟩ := runFile_eq_value_iff.1 h
  obtain ⟨tests, s, hbegins, hresults⟩ := runSource_eq_value_iff.1 hrun
  exact .ran ⟨text, htext, hbegins⟩ (hresults.imp fun _ _ => reported_of_runTest)

theorem fileReport_of_fault {fault : Fault} (h : runFile depth files path = .fault fault) :
    FileReport depth files path ⟨[], [(path, fault)]⟩ := by
  refine .broken h fun tests s ⟨text, htext, hbegins⟩ => ?_
  exact runSource_ne_fault hbegins fault ((runFile_eq_of_readText htext).symm.trans h)

theorem runFiles_cons_eq_value_iff :
    runFiles depth files (path :: paths) = .value summary ↔
      ∃ rest, runFiles depth files paths = .value rest ∧
        ((∃ results, runFile depth files path = .value results ∧
            summary = { rest with results := results ++ rest.results }) ∨
          ∃ fault, runFile depth files path = .fault fault ∧
            summary = { rest with broken := (path, fault) :: rest.broken }) := by
  rw [runFiles]
  cases runFile depth files path <;> cases runFiles depth files paths <;> simp [eq_comm]

/-- The report on a suite is put together from those on its files. -/
theorem reports_of_runFiles (h : runFiles depth files paths = .value summary) :
    ∃ reports, List.Forall₂ (FileReport depth files) paths reports ∧
      summary.results = reports.flatMap Summary.results ∧
      summary.broken = reports.flatMap Summary.broken := by
  induction paths generalizing summary with
  | nil =>
    cases h
    exact ⟨[], .nil, rfl, rfl⟩
  | cons path paths ih =>
    obtain ⟨rest, hrest, hfile⟩ := runFiles_cons_eq_value_iff.1 h
    obtain ⟨reports, hreports, hresults, hbroken⟩ := ih hrest
    rcases hfile with ⟨results, hfile, rfl⟩ | ⟨fault, hfile, rfl⟩
    · exact ⟨_, .cons (fileReport_of_results hfile) hreports, congrArg (results ++ ·) hresults,
        hbroken⟩
    · exact ⟨_, .cons (fileReport_of_fault hfile) hreports, hresults,
        congrArg ((path, fault) :: ·) hbroken⟩

theorem Summary.success_iff (s : Summary) :
    s.success = true ↔ (∀ result ∈ s.results, result.passed = true) ∧ s.broken = [] := by
  unfold success failed
  rw [Bool.and_eq_true, decide_eq_true_iff, List.countP_eq_zero, List.isEmpty_iff]
  refine and_congr_left' (forall₂_congr fun result _ => ?_)
  cases result.passed <;> decide

theorem runFiles_success_iff :
    (∃ summary, runFiles depth files paths = .value summary ∧ summary.success = true) ↔
      ∀ path ∈ paths, FilePasses depth files path := by
  induction paths with
  | nil => exact ⟨fun _ => List.forall_mem_nil _, fun _ => ⟨_, rfl, rfl⟩⟩
  | cons path paths ih =>
    rw [List.forall_mem_cons, ← ih, filePasses_iff]
    constructor
    · rintro ⟨summary, h, hsuccess⟩
      obtain ⟨hpassed, hbroken⟩ := summary.success_iff.1 hsuccess
      obtain ⟨rest, hrest, ⟨results, hfile, rfl⟩ | ⟨fault, -, rfl⟩⟩ := runFiles_cons_eq_value_iff.1 h
      · obtain ⟨hresults, hothers⟩ := List.forall_mem_append.1 hpassed
        exact ⟨⟨results, hfile, hresults⟩, rest, hrest, rest.success_iff.2 ⟨hothers, hbroken⟩⟩
      · cases hbroken
    · rintro ⟨⟨results, hfile, hresults⟩, rest, hrest, hsuccess⟩
      obtain ⟨hothers, hbroken⟩ := rest.success_iff.1 hsuccess
      refine ⟨_, runFiles_cons_eq_value_iff.2 ⟨rest, hrest, Or.inl ⟨results, hfile, rfl⟩⟩, ?_⟩
      exact (Summary.success_iff _).2 ⟨List.forall_mem_append.2 ⟨hresults, hothers⟩, hbroken⟩

theorem runSuite_eq_value_iff :
    runSuite depth files path = .value summary ↔ ∃ walked, files.walk path = .ok walked ∧
      runFiles depth files (Path.sort (walked.filter isScriptPath)) = .value summary := by
  unfold runSuite discover
  cases files.walk path with
  | error e => simp only [reduceCtorEq, false_and, exists_false]
  | ok walked => simp only [Except.ok.injEq, exists_eq_left']

end Files

end Script

namespace Report

variable (t : Terminal)

theorem label_prefix_status (label : String) (color : Color) (message : String) :
    (t.bold color label).toList <+: (status t label color message).toList := by
  rw [status, String.append_assoc, String.append_assoc, String.toList_append]
  exact List.prefix_append ..

/-- The line shown for a result begins with the label of a pass if and only if the result is passed,
whether or not the terminal shows colours. -/
theorem testResult_shows_pass_iff (r : TestResult) :
    (t.bold .green "PASS").toList <+: (testResult t r).toList ↔ r.passed = true := by
  unfold testResult
  cases r.passed with
  | true => exact iff_of_true (label_prefix_status ..) rfl
  | false =>
    refine iff_of_false (fun h => ?_) Bool.false_ne_true
    -- both labels are of one length, so the one would have to be the other
    have hlength : (t.bold .green "PASS").toList.length ≤ (t.bold .red "FAIL").toList.length := by
      obtain ⟨_ | _⟩ := t <;> decide
    have hlabel := List.prefix_of_prefix_length_le h (label_prefix_status ..) hlength
    revert hlabel
    obtain ⟨_ | _⟩ := t <;> decide

end Report

namespace CommandLine

open Script

theorem runTests_status_eq_zero_iff {s : Setting} {path : String} :
    (runTests s path).status = 0 ↔
      ∃ summary, runSuite s.depth s.files path = .value summary ∧ summary.success = true := by
  unfold runTests
  cases runSuite s.depth s.files path with
  | value summary => cases hsuccess : summary.success <;> simp [hsuccess]
  | fault f => simp [failWith]
  | unfinished => simp

theorem runTests_status_iff_passes {s : Setting} {path : String} :
    (runTests s path).status = 0 ↔ ∃ walked, s.files.walk path = .ok walked ∧
      ∀ file ∈ walked, isScriptPath file = true → FilePasses s.depth s.files file := by
  rw [runTests_status_eq_zero_iff]
  constructor
  · rintro ⟨summary, hsummary, hsuccess⟩
    obtain ⟨walked, hwalk, hfiles⟩ := runSuite_eq_value_iff.1 hsummary
    have hpass := runFiles_success_iff.1 ⟨summary, hfiles, hsuccess⟩
    refine ⟨walked, hwalk, fun file hfile hscript => hpass file ?_⟩
    exact (List.mergeSort_perm ..).mem_iff.2 (List.mem_filter.2 ⟨hfile, hscript⟩)
  · rintro ⟨walked, hwalk, hpass⟩
    obtain ⟨summary, hfiles, hsuccess⟩ := runFiles_success_iff.2 fun file hfile =>
      have hfound := List.mem_filter.1 ((List.mergeSort_perm ..).mem_iff.1 hfile)
      hpass file hfound.1 hfound.2
    exact ⟨summary, runSuite_eq_value_iff.2 ⟨walked, hwalk, hfiles⟩, hsuccess⟩

/-- Whatever files there are: the command for tests ends with the status 0 if and only if the path
can be walked and every script found can be read, begins, and passes all its tests. The report has
one result a test, in the order of the paths and within a file in that of the forms, and one fault
for each script that cannot be run; every result counts as passed or as failed. -/
theorem test_reports_all {s : Setting} {args : List String} {path : String} {limit : Option Nat}
    (h : parse args = some (.command (.test path) limit)) (input : ByteArray) :
    ((run s args input).status = 0 ↔ ∃ walked, s.files.walk path = .ok walked ∧
      ∀ file ∈ walked, isScriptPath file = true → FilePasses s.depth s.files file) ∧
    ∀ summary, runSuite s.depth s.files path = .value summary →
      (run s args input).shown = Report.summary s.terminal summary ∧
      ∃ walked paths reports, s.files.walk path = .ok walked ∧
        paths.Perm (walked.filter isScriptPath) ∧
        (paths.Pairwise fun a b => Path.sortKey a ≤ Path.sortKey b) ∧
        List.Forall₂ (FileReport s.depth s.files) paths reports ∧
        summary.results = reports.flatMap Summary.results ∧
        summary.broken = reports.flatMap Summary.broken ∧
        summary.passed + summary.failed = summary.results.length := by
  rw [run_eq_execute h]
  refine ⟨runTests_status_iff_passes, fun summary hsummary => ?_⟩
  have hshown : (runTests s path).shown = Report.summary s.terminal summary := by
    unfold runTests
    rw [hsummary]
  obtain ⟨walked, hwalk, hfiles⟩ := runSuite_eq_value_iff.1 hsummary
  obtain ⟨reports, hreports, hresults, hbroken⟩ := reports_of_runFiles hfiles
  exact ⟨hshown, walked, _, reports, hwalk, List.mergeSort_perm .., Path.pairwise_sort _, hreports,
    hresults, hbroken, summary.passed_add_failed⟩

def sampleSetting : Setting where
  files := ⟨fun _ => .ok "(defmacro m (fn (x) x))
(test \"a\" (expect nil) (m nil))
(test \"b\" (expect-error UnboundSymbol) (m y))", fun _ => .ok ["t/a.lisp"]⟩
  terminal := ⟨false⟩
  depth := 8

theorem test_reports_all_sample :
    parse ["test", "t"] = some (.command (.test "t") none) ∧
      FilePasses 8 sampleSetting.files "t/a.lisp" ∧
      (run sampleSetting ["test", "t"] .empty).status = 0 := by
  have hparse : parse ["test", "t"] = some (.command (.test "t") none) := by decide +kernel
  have hrun : (runFile 8 sampleSetting.files "t/a.lisp").tally? = some (2, 0) := by decide +kernel
  have hpass : FilePasses 8 sampleSetting.files "t/a.lisp" := filePasses_of_tally hrun
  refine ⟨hparse, hpass, (test_reports_all hparse .empty).1.2 ⟨_, rfl, fun file hfile _ => ?_⟩⟩
  obtain rfl := List.mem_singleton.1 hfile
  exact hpass

end CommandLine

end MacroLisp
