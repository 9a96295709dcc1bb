import MacroLisp.Text.Blank
import Mathlib.Data.List.Basic

/-!
# Lines without their blank ends

A session drops the blanks at the end of each line and puts line feeds between what is left. If no
line is blank, this is the text without the blanks that only blanks and a line feed follow, or only
blanks and the end: `trimLines` decides for each character whether it stays, and so can be followed
through a text character by character.
-/

namespace MacroLisp.Text

/-- The lines of a text, each with its line feed if it has one. -/
def lines : List Char → List (List Char)
  | [] => []
  | c :: cs =>
    if c = '\n' then [c] :: lines cs
    else
      match lines cs with
      | [] => [[c]]
      | line :: rest => (c :: line) :: rest

def joined : List (List Char) → List Char
  | [] => []
  | [line] => trimEnd line
  | line :: rest => trimEnd line ++ '\n' :: joined rest

/-- A line is over before this text. -/
def EndsLine (cs : List Char) : Prop := cs = [] ∨ cs.head? = some '\n'

instance (cs : List Char) : Decidable (EndsLine cs) := inferInstanceAs (Decidable (_ ∨ _))

/-- The text without the blanks behind which a line is over. -/
def trimLines : List Char → List Char
  | [] => []
  | c :: cs =>
    if isBlank c = true ∧ EndsLine (trimLines cs) then trimLines cs else c :: trimLines cs

section Trimming

variable {c : Char} {cs ds rest : List Char}

theorem isBlank_lineFeed : isBlank '\n' = true := by decide

theorem trimLines_of_blank (hc : isBlank c = true) (hrest : EndsLine (trimLines cs)) :
    trimLines (c :: cs) = trimLines cs := if_pos ⟨hc, hrest⟩

theorem trimLines_of_not_blank (hc : isBlank c = false) :
    trimLines (c :: cs) = c :: trimLines cs :=
  if_neg fun h => Bool.false_ne_true (hc.symm.trans h.1)

theorem trimLines_of_not_endsLine (hrest : ¬ EndsLine (trimLines cs)) :
    trimLines (c :: cs) = c :: trimLines cs := if_neg fun h => hrest h.2

theorem EndsLine.trimLines (h : EndsLine cs) : EndsLine (trimLines cs) := by
  cases cs with
  | nil => exact Or.inl rfl
  | cons c cs =>
    obtain rfl : c = '\n' := by simpa [EndsLine] using h
    by_cases hrest : EndsLine (Text.trimLines cs)
    · rwa [trimLines_of_blank isBlank_lineFeed hrest]
    · rw [trimLines_of_not_endsLine hrest]
      exact Or.inr rfl

theorem allBlank_trimLines (cs : List Char) : allBlank (trimLines cs) = allBlank cs := by
  induction cs with
  | nil => rfl
  | cons c cs ih =>
    unfold allBlank at ih ⊢
    by_cases h : isBlank c = true ∧ EndsLine (trimLines cs)
    · rw [trimLines_of_blank h.1 h.2, ih, List.all_cons, h.1, Bool.true_and]
    · rw [trimLines, if_neg h, List.all_cons, List.all_cons, ih]

theorem trimEnd_cons (c : Char) (cs : List Char) :
    trimEnd (c :: cs) = if isBlank c = true ∧ trimEnd cs = [] then [] else c :: trimEnd cs := by
  unfold trimEnd
  rw [List.reverse_cons, List.dropWhile_append]
  generalize cs.reverse.dropWhile isBlank = kept
  cases kept with
  | nil => cases hc : isBlank c <;> simp [hc]
  | cons d kept => simp

theorem trimEnd_eq_nil_iff : trimEnd cs = [] ↔ allBlank cs = true := by
  induction cs with
  | nil => exact ⟨fun _ => rfl, fun _ => rfl⟩
  | cons c cs ih =>
    rw [trimEnd_cons, allBlank, List.all_cons, Bool.and_eq_true, ← allBlank, ← ih]
    by_cases h : isBlank c = true ∧ trimEnd cs = []
    · rw [if_pos h]
      exact ⟨fun _ => h, fun _ => rfl⟩
    · rw [if_neg h]
      exact ⟨fun h' => (List.cons_ne_nil _ _ h').elim, fun h' => absurd h' h⟩

theorem mem_of_mem_trimEnd (h : c ∈ trimEnd cs) : c ∈ cs :=
  List.mem_reverse.1 ((List.dropWhile_sublist isBlank).subset (List.mem_reverse.1 h))

theorem head?_trimStart_trimEnd (cs : List Char) :
    (trimStart (trimEnd cs)).head? = (trimStart cs).head? := by
  induction cs with
  | nil => rfl
  | cons c cs ih =>
    rw [trimEnd_cons]
    by_cases hc : isBlank c = true
    · by_cases hcs : trimEnd cs = []
      · have hblank : allBlank (c :: cs) = true := by
          rw [allBlank, List.all_cons, hc, Bool.true_and]
          exact trimEnd_eq_nil_iff.1 hcs
        rw [if_pos ⟨hc, hcs⟩, trimStart_eq_nil_iff.2 hblank]
        rfl
      · rw [if_neg fun h => hcs h.2]
        simpa only [trimStart, List.dropWhile_cons_of_pos hc] using ih
    · rw [if_neg fun h => hc h.1, trimStart, trimStart, List.dropWhile_cons_of_neg hc,
        List.dropWhile_cons_of_neg hc]
      rfl

theorem head?_trimStart_append (h : allBlank cs = false) (ds : List Char) :
    (trimStart (cs ++ ds)).head? = (trimStart cs).head? := by
  have hne : (trimStart cs).isEmpty = false := by
    rw [List.isEmpty_eq_false_iff, Ne, trimStart_eq_nil_iff, h]
    exact Bool.false_ne_true
  unfold trimStart at hne ⊢
  rw [List.dropWhile_append, hne, if_neg Bool.false_ne_true,
    List.head?_append_of_ne_nil _ (List.isEmpty_eq_false_iff.1 hne)]

/-- In front of a line end, characters of the line are dropped just where `trimEnd` drops them. -/
theorem trimLines_append (hcs : '\n' ∉ cs) (hrest : EndsLine (trimLines rest)) :
    trimLines (cs ++ rest) = trimEnd cs ++ trimLines rest := by
  induction cs with
  | nil => rfl
  | cons c cs ih =>
    obtain ⟨-, hcs⟩ := not_or.1 (mt List.mem_cons.2 hcs)
    have hends : EndsLine (trimLines (cs ++ rest)) ↔ trimEnd cs = [] := by
      rw [ih hcs]
      constructor
      · intro h
        cases htrimmed : trimEnd cs with
        | nil => rfl
        | cons d ds =>
          rw [htrimmed] at h
          obtain rfl : d = '\n' := by simpa [EndsLine] using h
          exact absurd (mem_of_mem_trimEnd (htrimmed ▸ List.mem_cons_self)) hcs
      · intro h
        rwa [h]
    rw [List.cons_append, trimEnd_cons, trimLines]
    by_cases h : isBlank c = true ∧ trimEnd cs = []
    · rw [if_pos ⟨h.1, hends.2 h.2⟩, if_pos h, ih hcs, h.2]
    · rw [if_neg fun h' => h ⟨h'.1, hends.1 h'.2⟩, if_neg h, ih hcs, List.cons_append]

end Trimming

/-- Each line but the last has a line feed, at its end only. -/
inductive AreLines : List (List Char) → Prop where
  | nil : AreLines []
  | last {line : List Char} (hline : '\n' ∉ line) : AreLines [line]
  | cons {body : List Char} {lines : List (List Char)} (hbody : '\n' ∉ body)
      (hlines : AreLines lines) : AreLines ((body ++ ['\n']) :: lines)

section Lines

variable {ls : List (List Char)}

theorem areLines_lines (cs : List Char) : AreLines (lines cs) := by
  induction cs with
  | nil => exact .nil
  | cons c cs ih =>
    unfold lines
    by_cases hc : c = '\n'
    · rw [if_pos hc, hc]
      have hfirst : AreLines (([] ++ ['\n']) :: lines cs) := .cons List.not_mem_nil ih
      exact hfirst
    · rw [if_neg hc]
      have hcons {line : List Char} (hline : '\n' ∉ line) : '\n' ∉ c :: line :=
        mt List.mem_cons.1 (not_or.2 ⟨Ne.symm hc, hline⟩)
      generalize lines cs = ls at ih
      cases ih with
      | nil => exact .last (hcons List.not_mem_nil)
      | last hline => exact .last (hcons hline)
      | @cons body ls hbody hlines =>
        have hfirst : AreLines ((c :: body ++ ['\n']) :: ls) := .cons (hcons hbody) hlines
        exact hfirst

theorem flatten_lines (cs : List Char) : (lines cs).flatten = cs := by
  induction cs with
  | nil => rfl
  | cons c cs ih =>
    unfold lines
    split
    · rw [List.flatten_cons, ih]
      rfl
    · split
      · next hnone =>
        rw [hnone] at ih
        rw [← ih]
        rfl
      · next hsome =>
        rw [hsome] at ih
        rw [← ih]
        rfl

theorem AreLines.take (h : AreLines ls) (k : Nat) : AreLines (ls.take k) := by
  induction h generalizing k with
  | nil => rw [List.take_nil]; exact .nil
  | last hline =>
    cases k with
    | zero => exact .nil
    | succ k => rw [List.take_succ_cons, List.take_nil]; exact .last hline
  | cons hbody _ ih =>
    cases k with
    | zero => exact .nil
    | succ k => exact .cons hbody (ih k)

theorem joined_cons {line : List Char} (h : ls ≠ []) :
    joined (line :: ls) = trimEnd line ++ '\n' :: joined ls := by
  obtain ⟨next, rest, rfl⟩ := List.exists_cons_of_ne_nil h
  rfl

theorem joined_concat {line : List Char} (h : ls ≠ []) :
    joined (ls ++ [line]) = joined ls ++ '\n' :: trimEnd line := by
  induction ls with
  | nil => exact absurd rfl h
  | cons first ls ih =>
    by_cases hls : ls = []
    · subst hls
      rfl
    · rw [List.cons_append, joined_cons (List.append_ne_nil_of_left_ne_nil hls _), ih hls,
        joined_cons hls, List.append_assoc, List.cons_append]

theorem trimEnd_concat_lineFeed (cs : List Char) : trimEnd (cs ++ ['\n']) = trimEnd cs := by
  unfold trimEnd
  rw [List.reverse_concat, List.dropWhile_cons_of_pos isBlank_lineFeed]

theorem not_endsLine_trimEnd {line rest : List Char} (hline : '\n' ∉ line)
    (hblank : allBlank line = false) : ¬ EndsLine (trimEnd line ++ rest) := by
  cases htrimmed : trimEnd line with
  | nil => simp [trimEnd_eq_nil_iff.1 htrimmed] at hblank
  | cons c cs =>
    have hmem : c ∈ line := mem_of_mem_trimEnd (htrimmed ▸ List.mem_cons_self)
    rintro (hnil | hfeed)
    · cases hnil
    · obtain rfl : c = '\n' := by simpa using hfeed
      exact hline hmem

/-- What a session makes out of lines none of which is blank: no line feed is dropped but the last,
since no line is over where one begins. -/
theorem trimLines_flatten (hlines : AreLines ls) (hblank : ∀ line ∈ ls, allBlank line = false) :
    trimLines ls.flatten = joined ls ∧ (ls ≠ [] → ¬ EndsLine (joined ls)) := by
  induction hlines with
  | nil => exact ⟨rfl, fun h => absurd rfl h⟩
  | @last line hline =>
    have htrim : trimLines (line ++ []) = trimEnd line ++ trimLines [] :=
      trimLines_append hline (Or.inl rfl)
    have hends : ¬ EndsLine (trimEnd line ++ []) :=
      not_endsLine_trimEnd hline (hblank line List.mem_cons_self)
    rw [List.append_nil] at hends
    refine ⟨?_, fun _ => hends⟩
    rw [List.flatten_cons, List.flatten_nil, htrim]
    exact List.append_nil _
  | @cons body ls hbody hlines ih =>
    obtain ⟨hfirst, hblank⟩ := List.forall_mem_cons.1 hblank
    obtain ⟨hflatten, hends⟩ := ih hblank
    have hbodyBlank : allBlank body = false := by
      rw [← hfirst, allBlank, allBlank, List.all_append]
      simp [isBlank_lineFeed]
    rw [List.flatten_cons, List.append_assoc, List.singleton_append]
    by_cases hls : ls = []
    · subst hls
      have hfeed : trimLines ['\n'] = [] := trimLines_of_blank isBlank_lineFeed (Or.inl rfl)
      rw [List.flatten_nil, trimLines_append hbody (Or.inl hfeed), hfeed, List.append_nil, joined,
        trimEnd_concat_lineFeed]
      refine ⟨rfl, fun _ => ?_⟩
      rw [← List.append_nil (trimEnd body)]
      exact not_endsLine_trimEnd hbody hbodyBlank
    · have hfeed : trimLines ('\n' :: ls.flatten) = '\n' :: joined ls := by
        rw [trimLines_of_not_endsLine (hflatten ▸ hends hls), hflatten]
      rw [trimLines_append hbody (Or.inr (by rw [hfeed]; rfl)), hfeed, joined_cons hls,
        trimEnd_concat_lineFeed]
      exact ⟨rfl, fun _ => not_endsLine_trimEnd hbody hbodyBlank⟩

end Lines

end MacroLisp.Text
