import MacroLisp.CommandLine
import MacroLisp.Proofs.Evaluation.Convergence
import MacroLisp.Proofs.Repl.Trimming

/-!
# Lines that make one input

A session gathers the lines of a text as long as what it has is not complete, and then runs them as
one input. What it runs is the text without the blanks at the ends of its lines. This is the text as
it was typed, up to spans, unless a string literal has blanks before a line break or a word ends in
blanks: then the session runs something else than a file with the same text.
-/

namespace MacroLisp

namespace Repl

open Text (allBlank joined lines trimEnd trimStart)

variable {r : Repl} {line : List Char} {done : List (List Char)}

theorem joined_ne_nil (h : ∀ line ∈ done, allBlank line = false) (hdone : done ≠ []) :
    joined done ≠ [] := by
  obtain ⟨first, rest, rfl⟩ := List.exists_cons_of_ne_nil hdone
  have hfirst : trimEnd first ≠ [] := fun hnil => by
    rw [Text.trimEnd_eq_nil_iff, h first List.mem_cons_self] at hnil
    cases hnil
  cases rest with
  | nil => exact hfirst
  | cons next rest => exact List.append_ne_nil_of_left_ne_nil hfirst _

theorem gathered_joined (hbuffer : r.buffer = joined done) (h : ∀ line ∈ done, allBlank line = false)
    (line : List Char) : r.gathered (trimEnd line) = joined (done ++ [line]) := by
  unfold gathered
  rw [hbuffer]
  by_cases hdone : done = []
  · subst hdone
    rfl
  · rw [if_neg (by simpa using joined_ne_nil h hdone), Text.joined_concat hdone]

section Feeding

variable (hbuffer : r.buffer = joined done) (hdone : ∀ line ∈ done, allBlank line = false)
  (hline : allBlank line = false) (hcolon : done = [] → (trimStart line).head? ≠ some ':')

include hbuffer hdone hline hcolon

/-- A line that is no command is gathered, and everything is run once it is complete. -/
theorem feed_eq (depth : Nat) (t : Terminal) : r.feed depth t line =
    if isComplete (joined (done ++ [line])) = true then r.submit depth t (joined (done ++ [line]))
    else ⟨{ r with buffer := joined (done ++ [line]) }, "", [], false⟩ := by
  have hnonempty : trimEnd line ≠ [] := fun hnil => by
    rw [Text.trimEnd_eq_nil_iff, hline] at hnil
    cases hnil
  have hcommand : (r.buffer.isEmpty && (trimStart (trimEnd line)).head? = some ':') = false := by
    by_cases hfirst : done = []
    · rw [Text.head?_trimStart_trimEnd, decide_eq_false (hcolon hfirst), Bool.and_false]
    · rw [hbuffer, List.isEmpty_eq_false_iff.2 (joined_ne_nil hdone hfirst), Bool.false_and]
  unfold feed
  dsimp only
  rw [hcommand, if_neg Bool.false_ne_true, gathered_joined hbuffer hdone]
  by_cases hcomplete : isComplete (joined (done ++ [line])) = true
  · rw [if_pos hcomplete, hcomplete, Bool.true_or, if_pos rfl, ((isComplete_iff _).1 hcomplete).1,
      if_neg Bool.false_ne_true]
  · rw [if_neg hcomplete, Bool.eq_false_iff.2 hcomplete, Bool.false_or,
      if_neg (by simpa using hnonempty)]

end Feeding

end Repl

namespace CommandLine

open Text (allBlank joined lines trimStart)
open Repl (isComplete)

def Result.behind (shown : String) (faults : List Fault) (rest : Result) : Result :=
  ⟨rest.status, shown ++ rest.shown, faults ++ rest.faults⟩

/-- A session from a turn on, with the prompts that were shown for it. -/
def afterTurn (s : Setting) (prompts : String) (turn : Repl.Turn)
    (rest : List (Option (List Char))) : Result :=
  if turn.finished then ⟨0, prompts ++ turn.shown, turn.faults⟩
  else .behind (prompts ++ turn.shown) turn.faults (interact s turn.repl rest)

def furtherPrompts : Nat → String
  | 0 => ""
  | n + 1 => "    -> " ++ furtherPrompts n

section Session

variable {s : Setting} {r : Repl} {done todo : List (List Char)}

theorem behind_afterTurn (shown prompts : String) (turn : Repl.Turn)
    (rest : List (Option (List Char))) :
    Result.behind shown [] (afterTurn s prompts turn rest) =
      afterTurn s (shown ++ prompts) turn rest := by
  unfold afterTurn
  split <;> simp only [Result.behind, List.nil_append, String.append_assoc]

theorem interact_cons (line : List Char) (rest : List (Option (List Char))) :
    interact s r (some line :: rest) =
      afterTurn s r.prompt (r.feed s.depth s.terminal line) rest := rfl

/-- Lines are gathered until all of them are complete, and then are one input. -/
theorem interact_joined (hbuffer : r.buffer = joined done)
    (hblank : ∀ line ∈ done ++ todo, allBlank line = false) (htodo : todo ≠ [])
    (hcolon : done = [] → (trimStart todo.flatten).head? ≠ some ':')
    (hopen : ∀ k, done.length < k → k < (done ++ todo).length →
      isComplete (joined ((done ++ todo).take k)) = false)
    (hwhole : isComplete (joined (done ++ todo)) = true) (rest : List (Option (List Char))) :
    interact s r (todo.map some ++ rest) =
      afterTurn s (r.prompt ++ furtherPrompts (todo.length - 1))
        (r.submit s.depth s.terminal (joined (done ++ todo))) rest := by
  induction todo generalizing r done with
  | nil => exact absurd rfl htodo
  | cons line todo ih =>
    obtain ⟨hdone, hlines⟩ := List.forall_mem_append.1 hblank
    have hline := hlines line List.mem_cons_self
    have hfirst : done = [] → (trimStart line).head? ≠ some ':' := fun h => by
      have hhead := hcolon h
      rwa [List.flatten_cons, Text.head?_trimStart_append hline] at hhead
    have hfeed := Repl.feed_eq hbuffer hdone hline hfirst s.depth s.terminal
    have hsplit : done ++ line :: todo = done ++ [line] ++ todo := List.append_cons ..
    rw [List.map_cons, List.cons_append, interact_cons, hfeed]
    by_cases hlast : todo = []
    · subst hlast
      rw [if_pos hwhole]
      exact congrArg (afterTurn s · _ rest) String.append_empty.symm
    · have hheld : isComplete (joined (done ++ [line])) = false := by
        have hlength := hopen (done.length + 1) (Nat.lt_succ_self _) (by
          rw [List.length_append, List.length_cons]
          exact Nat.add_lt_add_left (Nat.succ_lt_succ (List.length_pos_of_ne_nil hlast)) _)
        rwa [hsplit, List.take_left' (by rw [List.length_append]; rfl)] at hlength
      rw [if_neg (by simp [hheld]), hsplit]
      rw [hsplit] at hblank hopen hwhole
      have hmore :
          interact s { r with buffer := joined (done ++ [line]) } (todo.map some ++ rest) = _ :=
        ih rfl hblank hlast (fun h => absurd h (by simp))
          (fun k hk hlt => hopen k (by rw [List.length_append] at hk; omega) hlt) hwhole
      have hprompt : ({ r with buffer := joined (done ++ [line]) } : Repl).prompt = "    -> " := by
        have hgathered := Repl.joined_ne_nil (List.forall_mem_append.1 hblank).1 (by simp)
        rw [Repl.prompt, List.isEmpty_eq_false_iff.2 hgathered, if_neg Bool.false_ne_true]
      obtain ⟨n, hn⟩ := Nat.exists_eq_succ_of_ne_zero (mt List.length_eq_zero_iff.1 hlast)
      rw [afterTurn, if_neg Bool.false_ne_true, hmore, behind_afterTurn, hprompt, List.length_cons,
        Nat.add_sub_cancel, String.append_empty, hn]
      rfl

theorem interact_gathered {typed : List (List Char)} (hbuffer : r.buffer = [])
    (hlines : Text.AreLines typed) (hblank : ∀ line ∈ typed, allBlank line = false)
    (hcolon : (trimStart typed.flatten).head? ≠ some ':')
    (hopen : ∀ k, 0 < k → k < typed.length → isComplete (typed.take k).flatten = false)
    (hwhole : isComplete typed.flatten = true) (rest : List (Option (List Char))) :
    interact s r (typed.map some ++ rest) =
      afterTurn s ("quasi> " ++ furtherPrompts (typed.length - 1))
        (r.submit s.depth s.terminal (joined typed)) rest := by
  have hnone : r.buffer = joined [] := hbuffer
  have hprompt : r.prompt = "quasi> " := by
    rw [Repl.prompt, hbuffer]
    rfl
  have htyped : typed ≠ [] := by
    rintro rfl
    cases hwhole
  -- trimming the lines does not change which of their prefixes are complete
  have htrimmed (ls : List (List Char)) (hls : Text.AreLines ls)
      (hnonblank : ∀ line ∈ ls, allBlank line = false) :
      isComplete (joined ls) = isComplete ls.flatten := by
    rw [← (Text.trimLines_flatten hls hnonblank).1, Repl.isComplete_trimLines]
  rw [← hprompt]
  refine interact_joined hnone hblank htyped (fun _ => hcolon) (fun k hk hlt => ?_) ?_ rest
  · rw [List.nil_append, htrimmed _ (hlines.take k) fun line hline =>
      hblank line (List.mem_of_mem_take hline)]
    exact hopen k hk hlt
  · rw [List.nil_append, htrimmed typed hlines hblank, hwhole]

theorem afterTurn_submit (prompts : String) (input : List Char) (rest : List (Option (List Char))) :
    let p := r.engine.run s.depth ⟨"<repl:" ++ toString r.number ++ ">", String.ofList input⟩
    let next : Repl := ⟨p.engine, r.number + 1, []⟩
    let shown := prompts ++ printedLines p.emitted.toList
    (∀ v, p.outcome = .value v →
      afterTurn s prompts (r.submit s.depth s.terminal input) rest =
        .behind (shown ++ Report.value s.terminal v) [] (interact s next rest)) ∧
    (∀ f, p.outcome = .fault f →
      afterTurn s prompts (r.submit s.depth s.terminal input) rest =
        .behind shown [f] (interact s next rest)) := by
  intro p next shown
  refine ⟨fun v hv => ?_, fun f hf => ?_⟩
  · have hturn : r.submit s.depth s.terminal input =
        ⟨next, printedLines p.emitted.toList ++ Report.value s.terminal v, [], false⟩ := by
      unfold Repl.submit
      dsimp only
      rw [hv]
    rw [hturn, afterTurn, if_neg Bool.false_ne_true, ← String.append_assoc]
  · have hturn : r.submit s.depth s.terminal input =
        ⟨next, printedLines p.emitted.toList, [f], false⟩ := by
      unfold Repl.submit
      dsimp only
      rw [hf]
    rw [hturn, afterTurn, if_neg Bool.false_ne_true]

/-- The lines of a text that is accepted, has a form, does not begin like a command, has no blank
line and is not complete before its last line are run as one input: its text is that of the lines
without the blanks at their ends. If no string literal has a blank before a line feed and no word
ends in a blank, this comes to the same as a run of the text as it is, but for spans and sources. -/
theorem interact_lines {text : String} {form : Node} {forms : List Node} (hbuffer : r.buffer = [])
    (hparse : Reader.parse text = .ok (form :: forms))
    (hcolon : (trimStart text.toList).head? ≠ some ':')
    (hblank : ∀ line ∈ lines text.toList, allBlank line = false)
    (hopen : ∀ k, 0 < k → k < (lines text.toList).length →
      isComplete ((lines text.toList).take k).flatten = false) :
    let typed := lines text.toList
    let p := r.engine.run s.depth
      ⟨"<repl:" ++ toString r.number ++ ">", String.ofList (joined typed)⟩
    let next : Repl := ⟨p.engine, r.number + 1, []⟩
    let shown := "quasi> " ++ furtherPrompts (typed.length - 1) ++ printedLines p.emitted.toList
    (∀ rest,
      (∀ v, p.outcome = .value v → interact s r (typed.map some ++ rest) =
        .behind (shown ++ Report.value s.terminal v) [] (interact s next rest)) ∧
      (∀ f, p.outcome = .fault f → interact s r (typed.map some ++ rest) =
        .behind shown [f] (interact s next rest))) ∧
    ((∀ token ∈ Token.scan text.toList, token.lexeme.KeepsLines) → ∀ name,
      let q := r.engine.run s.depth ⟨name, text⟩
      q.SameButSpans p ∧ q.texts = p.texts) := by
  intro typed p next shown
  have hlines := Text.areLines_lines text.toList
  have hflatten := Text.flatten_lines text.toList
  have hcomplete := Repl.isComplete_of_parse hparse
  refine ⟨fun rest => ?_, fun hkeeps name => ?_⟩
  · rw [← hflatten] at hcolon hcomplete
    have hsession : interact s r (typed.map some ++ rest) = _ :=
      interact_gathered hbuffer hlines hblank hcolon hopen hcomplete rest
    rw [hsession]
    exact afterTurn_submit ..
  · obtain ⟨others, hothers, hlike⟩ := Reader.parse_trimLines r.engine.store hparse hkeeps
    have htrimmed := (Text.trimLines_flatten hlines hblank).1
    rw [hflatten] at htrimmed
    rw [htrimmed] at hothers
    intro q
    have hq : q = r.engine.performForms s.depth ⟨name, text⟩ (form :: forms) :=
      r.engine.run_of_parse s.depth hparse
    have hp : p = r.engine.performForms s.depth _ others := r.engine.run_of_parse s.depth hothers
    rw [hq, hp]
    exact Engine.performForms_like s.depth r.engine.like_same hlike _ _

end Session

def bareSetting : Setting := ⟨⟨fun _ => .ok "", fun _ => .ok []⟩, ⟨false⟩, 2⟩

section Literal

open Text.Quoted (Denotes)

theorem parse_literal {text : String} {raw cs : List Char} {span : Span}
    (hblank : allBlank text.toList = false)
    (htokens : Token.scan text.toList = [⟨.string raw, span⟩]) (h : Denotes raw cs) :
    Reader.parse text = .ok [.string (String.ofList cs) span] := by
  rw [Reader.parse, hblank, if_neg Bool.false_ne_true, htokens]
  exact (Reader.Brackets.string h .nil).formsOf_eq _

theorem held_of_two {ls : List (List Char)} {first second : List Char} (hls : ls = [first, second])
    (hfirst : isComplete first = false) (k : Nat) (hk : 0 < k) (hlt : k < ls.length) :
    isComplete (ls.take k).flatten = false := by
  subst hls
  obtain rfl : k = 1 := by
    rw [List.length_cons, List.length_singleton] at hlt
    omega
  simpa using hfirst

theorem interact_lines_literal :
    let text := "\"a\nb\""
    let r := Repl.start none
    let p := r.engine.run 2
      ⟨"<repl:" ++ toString r.number ++ ">", String.ofList (joined (lines text.toList))⟩
    let q := r.engine.run 2 ⟨"t", text⟩
    (r.buffer = [] ∧ Reader.parse text = .ok [.string "a\nb" ⟨0, 5⟩] ∧
      (trimStart text.toList).head? ≠ some ':' ∧
      (∀ line ∈ lines text.toList, allBlank line = false) ∧
      (∀ k, 0 < k → k < (lines text.toList).length →
        isComplete ((lines text.toList).take k).flatten = false) ∧
      ∀ token ∈ Token.scan text.toList, token.lexeme.KeepsLines) ∧
    q.SameButSpans p ∧ q.texts = p.texts := by
  intro text r p q
  have hlines : lines text.toList = [['"', 'a', '\n'], ['b', '"']] := by decide
  have htokens : Token.scan text.toList = [⟨.string ['a', '\n', 'b'], 0, 5⟩] := by decide +kernel
  have hraw : Denotes ['a', '\n', 'b'] ['a', '\n', 'b'] :=
    .plain (by decide) (by decide) (.plain (by decide) (by decide)
      (.plain (by decide) (by decide) .nil))
  have hparse := parse_literal (by decide) htokens hraw
  have hcolon : (trimStart text.toList).head? ≠ some ':' := by decide
  have hblank : ∀ line ∈ lines text.toList, allBlank line = false := by decide
  have hheld : ∀ k, 0 < k → k < (lines text.toList).length →
      isComplete ((lines text.toList).take k).flatten = false := held_of_two hlines (by decide)
  have hkeeps : ∀ token ∈ Token.scan text.toList, token.lexeme.KeepsLines := by
    rw [htokens]
    refine List.forall_mem_singleton.2 ?_
    show List.IsChain (fun c d => ¬ (Text.isBlank c = true ∧ d = '\n')) ['a', '\n', 'b']
    decide
  exact ⟨⟨rfl, hparse, hcolon, hblank, hheld, hkeeps⟩,
    (interact_lines (s := bareSetting) rfl hparse hcolon hblank hheld).2 hkeeps "t"⟩

/-- A literal with a blank before its line feed: a file with this text has the blank in the value, a
session that is given its lines has not. -/
theorem interact_trims_literal :
    let text := "\"a \nb\""
    (Reader.parse text = .ok [.string "a \nb" ⟨0, 6⟩] ∧ (trimStart text.toList).head? ≠ some ':' ∧
      (∀ line ∈ lines text.toList, allBlank line = false) ∧
      ∀ k, 0 < k → k < (lines text.toList).length →
        isComplete ((lines text.toList).take k).flatten = false) ∧
    (((Engine.new none).run 2 ⟨"t", text⟩).outcome.satisfies
      fun v => v.string? = some "a \nb") = true ∧
    (interact bareSetting (.start none) ((lines text.toList).map some)).shown =
      "quasi>     -> \"a\\nb\"\nquasi> \nGoodbye!\n" := by
  intro text
  have hlines : lines text.toList = [['"', 'a', ' ', '\n'], ['b', '"']] := by decide
  have htokens : Token.scan text.toList = [⟨.string ['a', ' ', '\n', 'b'], 0, 6⟩] := by decide +kernel
  have hraw : Denotes ['a', ' ', '\n', 'b'] ['a', ' ', '\n', 'b'] :=
    .plain (by decide) (by decide) (.plain (by decide) (by decide)
      (.plain (by decide) (by decide) (.plain (by decide) (by decide) .nil)))
  exact ⟨⟨parse_literal (by decide) htokens hraw, by decide, by decide,
    held_of_two hlines (by decide)⟩, by decide +kernel, by decide +kernel⟩

end Literal

end CommandLine

end MacroLisp
