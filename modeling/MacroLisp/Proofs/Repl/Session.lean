import MacroLisp.CommandLine
import MacroLisp.Proofs.Spans.Session

/-!
# Inputs of a session

Of the lines that a session is given, some are commands, some are gathered, and some complete an
input, which is run. Only the inputs are evaluated, each by an engine with the limit of the session,
and the faults that the session reports are theirs, apart from the one of a line that cannot be
read.
-/

namespace MacroLisp

namespace Repl

/-- The input that a line completes, unless the line is a command or there is more to come. -/
def input? (r : Repl) (text : List Char) : Option (List Char) :=
  let line := Text.trimEnd text
  if r.buffer.isEmpty && (Text.trimStart line).head? = some ':' then none
  else
    let input := r.gathered line
    if (isComplete input || line.isEmpty) && !Text.allBlank input then some input else none

def sourceOf (r : Repl) (input : List Char) : Source :=
  ⟨"<repl:" ++ toString r.number ++ ">", String.ofList input⟩

variable (depth : Nat) (t : Terminal)

/-- A line is a command, or is gathered or dropped, or completes an input that is run. -/
theorem feed_cases (r : Repl) (text : List Char) :
    (r.input? text = none ∧ ∃ c, r.feed depth t text = r.obey c) ∨
    (r.input? text = none ∧ ∃ buffer, r.feed depth t text = ⟨{ r with buffer }, "", [], false⟩) ∨
    ∃ input, r.input? text = some input ∧ r.feed depth t text = r.submit depth t input := by
  unfold input? feed
  dsimp only
  by_cases hcommand : (r.buffer.isEmpty &&
      (Text.trimStart (Text.trimEnd text)).head? = some ':') = true
  · rw [if_pos hcommand, if_pos hcommand]
    exact Or.inl ⟨rfl, _, rfl⟩
  · rw [if_neg hcommand, if_neg hcommand]
    by_cases hdone : (isComplete (r.gathered (Text.trimEnd text)) ||
        (Text.trimEnd text).isEmpty) = true
    · rw [if_pos hdone, hdone, Bool.true_and]
      by_cases hblank : Text.allBlank (r.gathered (Text.trimEnd text)) = true
      · rw [if_pos hblank, hblank]
        exact Or.inr (Or.inl ⟨rfl, _, rfl⟩)
      · rw [if_neg hblank, Bool.eq_false_iff.2 hblank]
        exact Or.inr (Or.inr ⟨_, rfl, rfl⟩)
    · rw [if_neg hdone, Bool.eq_false_iff.2 hdone, Bool.false_and]
      exact Or.inr (Or.inl ⟨rfl, _, rfl⟩)

theorem obey_faults (r : Repl) (c : Command) : (r.obey c).faults = [] := by
  cases c <;> rfl

theorem obey_expansionLimit (r : Repl) (c : Command) :
    (r.obey c).repl.engine.expansionLimit = r.engine.expansionLimit := by
  cases c <;> rfl

theorem submit_faults (r : Repl) (input : List Char) : (r.submit depth t input).faults =
    (r.engine.run depth (r.sourceOf input)).outcome.fault?.toList := by
  unfold submit sourceOf
  dsimp only
  split <;> simp only [*] <;> rfl

theorem submit_engine (r : Repl) (input : List Char) :
    (r.submit depth t input).repl.engine = (r.engine.run depth (r.sourceOf input)).engine := by
  unfold submit sourceOf
  dsimp only
  split <;> rfl

theorem feed_expansionLimit (r : Repl) (text : List Char) :
    (r.feed depth t text).repl.engine.expansionLimit = r.engine.expansionLimit := by
  obtain ⟨-, c, hfeed⟩ | ⟨-, buffer, hfeed⟩ | ⟨input, -, hfeed⟩ := r.feed_cases depth t text
  · rw [hfeed, obey_expansionLimit]
  · rw [hfeed]
  · rw [hfeed, submit_engine]
    exact r.engine.perform_expansionLimit ..

theorem feed_faults (r : Repl) (text : List Char) : (r.feed depth t text).faults =
    (r.input? text).toList.flatMap fun input =>
      (r.engine.run depth (r.sourceOf input)).outcome.fault?.toList := by
  obtain ⟨hnone, c, hfeed⟩ | ⟨hnone, buffer, hfeed⟩ | ⟨input, hsome, hfeed⟩ :=
    r.feed_cases depth t text
  · rw [hfeed, hnone, obey_faults]
    rfl
  · rw [hfeed, hnone]
    rfl
  · rw [hfeed, hsome, submit_faults]
    simp

end Repl

namespace CommandLine

/-- The inputs that a session runs on these lines, each with the session that runs it. -/
def inputs (s : Setting) (repl : Repl) : List (Option (List Char)) → List (Repl × List Char)
  | [] => []
  | none :: _ => []
  | some line :: lines =>
    let here := (repl.input? line).toList.map fun input => (repl, input)
    let turn := repl.feed s.depth s.terminal line
    if turn.finished then here else here ++ inputs s turn.repl lines

def performed (s : Setting) (x : Repl × List Char) : Performance Node :=
  x.1.engine.run s.depth (x.1.sourceOf x.2)

def unreadable : Fault :=
  .unlocated (.reported .internal ("error reading input: " ++ FileError.notUtf8.text))

variable {s : Setting} {repl : Repl} {lines : List (Option (List Char))}

theorem inputs_expansionLimit :
    ∀ x ∈ inputs s repl lines, x.1.engine.expansionLimit = repl.engine.expansionLimit := by
  induction lines generalizing repl with
  | nil => exact List.forall_mem_nil _
  | cons line lines ih =>
    cases line with
    | none => exact List.forall_mem_nil _
    | some line =>
      have hhere : ∀ x ∈ (repl.input? line).toList.map fun input => (repl, input),
          x.1.engine.expansionLimit = repl.engine.expansionLimit := by
        simp
      unfold inputs
      dsimp only
      split
      · exact hhere
      · refine List.forall_mem_append.2 ⟨hhere, fun x hx => ?_⟩
        exact (ih x hx).trans (repl.feed_expansionLimit s.depth s.terminal line)

/-- A session reports the faults of its inputs, and that a line cannot be read. -/
theorem interact_faults : ∃ rest, (interact s repl lines).faults =
    (inputs s repl lines).flatMap (fun x => (performed s x).outcome.fault?.toList) ++ rest ∧
      ∀ f ∈ rest, f = unreadable := by
  induction lines generalizing repl with
  | nil => exact ⟨[], rfl, List.forall_mem_nil _⟩
  | cons line lines ih =>
    cases line with
    | none => exact ⟨[unreadable], rfl, by simp⟩
    | some line =>
      have hhere : ((repl.input? line).toList.map fun input => (repl, input)).flatMap
          (fun x => (performed s x).outcome.fault?.toList) =
            (repl.feed s.depth s.terminal line).faults := by
        rw [Repl.feed_faults, List.flatMap_map]
        rfl
      unfold interact inputs
      dsimp only
      split
      · exact ⟨[], by rw [List.append_nil, hhere], List.forall_mem_nil _⟩
      · obtain ⟨rest, hrest, hall⟩ := @ih (repl.feed s.depth s.terminal line).repl
        refine ⟨rest, ?_, hall⟩
        rw [List.flatMap_append, hhere, hrest, List.append_assoc]

end CommandLine

end MacroLisp
