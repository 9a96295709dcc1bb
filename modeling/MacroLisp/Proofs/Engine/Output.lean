import MacroLisp.Proofs.Engine.Splitting

/-!
# Captured and printed output

What a program prints is shown as lines, each text followed by a line break. Gathered into one text
instead, it is joined by line breaks. But a text that is gathered first leaves no trace if it is
empty: the next one is taken for the first again. So the empty texts before the first other one are
lost, and with them as many line breaks; nothing is lost if and only if the first text is not empty
or the only one.
-/

namespace MacroLisp

/-- What is held after one more text. -/
def capture (held : String) (e : Emission) : String :=
  (if held = "" then held else held ++ "\n") ++ e.text

theorem gather_eq_foldl (es : List Emission) : gather es = es.foldl capture "" := rfl

theorem capture_empty (e : Emission) : capture "" e = e.text := by
  rw [capture, if_pos rfl, String.empty_append]

theorem capture_of_ne_empty {held : String} (h : held ≠ "") (e : Emission) :
    capture held e = held ++ "\n" ++ e.text := by
  rw [capture, if_neg h]

theorem foldl_capture {held : String} (h : held ≠ "") (es : List Emission) :
    es.foldl capture held = "\n".intercalate (held :: es.map (·.text)) := by
  -- what is held grows, so it stays a text that is not empty
  induction es generalizing held with
  | nil => rw [List.foldl_nil, List.map_nil, String.intercalate_singleton]
  | cons e es ih =>
    have hne : held ++ "\n" ++ e.text ≠ "" := by simp
    rw [List.foldl_cons, capture_of_ne_empty h, ih hne, String.intercalate_cons_append,
      List.map_cons, String.intercalate_cons_cons]

theorem gather_eq_intercalate (es : List Emission) :
    gather es = "\n".intercalate ((es.map (·.text)).dropWhile (· = "")) := by
  rw [gather_eq_foldl]
  induction es with
  | nil => rw [List.foldl_nil, List.map_nil, List.dropWhile_nil, String.intercalate_nil]
  | cons e es ih =>
    rw [List.foldl_cons, capture_empty, List.map_cons]
    by_cases he : e.text = ""
    · rw [he, ih, List.dropWhile_cons_of_pos (by decide)]
    · rw [foldl_capture he, List.dropWhile_cons_of_neg (by simpa using he)]

theorem printedLines_cons (e : Emission) (es : List Emission) :
    printedLines (e :: es) = e.text ++ "\n" ++ printedLines es := by
  rw [printedLines, List.map_cons, String.join_cons, printedLines]

theorem printedLines_eq_intercalate (e : Emission) (es : List Emission) :
    printedLines (e :: es) = "\n".intercalate (e.text :: es.map (·.text)) ++ "\n" := by
  induction es generalizing e with
  | nil =>
    rw [List.map_nil, String.intercalate_singleton, printedLines_cons, printedLines, List.map_nil,
      String.join_nil, String.append_empty]
  | cons next es ih =>
    rw [printedLines_cons, ih next, List.map_cons, String.intercalate_cons_cons]
    simp only [String.append_assoc]

/-- The empty texts that other texts follow and no other text precedes. -/
def lostLines : List String → Nat
  | text :: next :: rest => if text = "" then lostLines (next :: rest) + 1 else 0
  | [_] | [] => 0

theorem lostLines_eq_zero_iff (first : String) (rest : List String) :
    lostLines (first :: rest) = 0 ↔ first ≠ "" ∨ rest = [] := by
  cases rest with
  | nil => exact iff_of_true rfl (Or.inr rfl)
  | cons next rest =>
    rw [lostLines]
    by_cases h : first = "" <;> simp [h]

/-- All that is lost are line breaks at the beginning. -/
theorem intercalate_eq_lost (texts : List String) :
    "\n".intercalate texts = String.join (List.replicate (lostLines texts) "\n") ++
      "\n".intercalate (texts.dropWhile (· = "")) := by
  induction texts with
  | nil => rfl
  | cons first rest ih =>
    by_cases h : first = ""
    · rw [List.dropWhile_cons_of_pos (by simpa using h), h]
      cases rest with
      | nil => rfl
      | cons next rest =>
        rw [lostLines, if_pos rfl, String.intercalate_cons_cons, ih, List.replicate_succ,
          String.join_cons, String.empty_append, String.append_assoc]
    · have hlost : lostLines (first :: rest) = 0 := (lostLines_eq_zero_iff first rest).2 (.inl h)
      rw [List.dropWhile_cons_of_neg (by simpa using h), hlost, List.replicate_zero,
        String.join_nil, String.empty_append]

theorem length_lineBreaks (n : Nat) : (String.join (List.replicate n "\n")).length = n := by
  induction n with
  | zero => rfl
  | succ n ih =>
    have hbreak : "\n".length = 1 := by decide
    rw [List.replicate_succ, String.join_cons, String.length_append, ih, hbreak, Nat.add_comm]

section Runs

variable {α : Type} (p : Performance α)

/-- Whatever is performed, what it prints is gathered as its texts without the empty ones at the
beginning, joined by line breaks. What is shown as lines is this and a line break, behind as many
line breaks as there are empty texts lost; so the two agree if and only if the first text is not
empty or the only one. -/
theorem captured_behind_lost_lines {first : String} {rest : List String}
    (htexts : p.texts = first :: rest) :
    let captured := gather p.emitted.toList
    let shown := printedLines p.emitted.toList
    captured = "\n".intercalate (p.texts.dropWhile (· = "")) ∧
      shown = String.join (List.replicate (lostLines p.texts) "\n") ++ (captured ++ "\n") ∧
      (captured ++ "\n" = shown ↔ first ≠ "" ∨ rest = []) := by
  intro captured shown
  have hcaptured : captured = "\n".intercalate (p.texts.dropWhile (· = "")) :=
    gather_eq_intercalate p.emitted.toList
  have hshown : shown = String.join (List.replicate (lostLines p.texts) "\n") ++
      (captured ++ "\n") := by
    obtain ⟨e, es, hemitted⟩ : ∃ e es, p.emitted.toList = e :: es :=
      List.exists_cons_of_ne_nil fun hnil => by simp [Performance.texts, hnil] at htexts
    have hlines : shown = "\n".intercalate p.texts ++ "\n" := by
      show printedLines p.emitted.toList = "\n".intercalate (p.emitted.toList.map _) ++ "\n"
      rw [hemitted, printedLines_eq_intercalate, List.map_cons]
    rw [hlines, intercalate_eq_lost, ← hcaptured, String.append_assoc]
  refine ⟨hcaptured, hshown, ?_⟩
  rw [← lostLines_eq_zero_iff, ← htexts]
  constructor
  · intro heq
    have hlength := congrArg String.length (heq.trans hshown)
    simp only [String.length_append, length_lineBreaks] at hlength
    omega
  · intro hzero
    rw [hshown, hzero, List.replicate_zero, String.join_nil, String.empty_append]

end Runs

theorem captured_behind_lost_lines_second :
    let p := (Engine.new none).run 4 ⟨"t", "(println) (println \"a\nb\") (println)"⟩
    p.texts = ["", "a\nb", ""] ∧
      printedLines p.emitted.toList = "\n" ++ (gather p.emitted.toList ++ "\n") := by
  intro p
  have htexts : p.texts = ["", "a\nb", ""] := by decide +kernel
  obtain ⟨-, hshown, -⟩ := captured_behind_lost_lines p htexts
  rw [htexts] at hshown
  exact ⟨htexts, hshown⟩

/-- The line of the first of two texts is lost. -/
theorem first_line_lost :
    let p := (Engine.new none).run 4 ⟨"t", "(println) (println \"a\")"⟩
    p.texts = ["", "a"] ∧ gather p.emitted.toList ++ "\n" = "a\n" ∧
      printedLines p.emitted.toList = "\na\n" := by
  decide +kernel

end MacroLisp
