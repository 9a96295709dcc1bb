import MacroLisp.Token

/-!
# The next token

What `scanFrom` does at the beginning of a text, said for each kind of token by itself: layout is
passed over, a parenthesis is a token, and so are a whole quoted string and a whole word, whatever
follows. What follows a word is the end of the text or a delimiter.
-/

namespace MacroLisp.Token

/-- A word that comes before the text ends there. -/
def EndsWord (rest : List Char) : Prop := ∀ c cs, rest = c :: cs → isDelimiter c = true

theorem endsWord_nil : EndsWord [] := fun _ _ h => by cases h

theorem endsWord_cons {c : Char} (h : isDelimiter c = true) (cs : List Char) :
    EndsWord (c :: cs) := fun _ _ heq => by
  cases heq
  exact h

section Equations

variable (offset : Nat) (rest : List Char)

theorem scanFrom_nil : scanFrom offset [] = [] := by
  rw [scanFrom]

theorem scanFrom_layout {c : Char} (h : isLayout c = true) :
    scanFrom offset (c :: rest) = scanFrom (offset + c.utf8Size) rest := by
  rw [scanFrom, if_pos h]

theorem scanFrom_opening :
    scanFrom offset ('(' :: rest) =
      ⟨.opening, offset, offset + 1⟩ :: scanFrom (offset + 1) rest := by
  rw [scanFrom, if_neg (by decide), if_neg (by decide), if_pos rfl]

theorem scanFrom_closing :
    scanFrom offset (')' :: rest) =
      ⟨.closing, offset, offset + 1⟩ :: scanFrom (offset + 1) rest := by
  rw [scanFrom, if_neg (by decide), if_neg (by decide), if_neg (by decide), if_pos rfl]

theorem scanFrom_string {cs raw : List Char} (h : Text.Quoted.close? cs = some (raw, rest)) :
    scanFrom offset ('"' :: cs) =
      ⟨.string raw, offset, offset + byteLength raw + 2⟩ ::
        scanFrom (offset + byteLength raw + 2) rest := by
  rw [scanFrom, if_neg (by decide), if_neg (by decide), if_neg (by decide), if_neg (by decide),
    if_pos rfl]
  split
  · next hnone =>
    rw [h] at hnone
    cases hnone
  · next hsome =>
    rw [h] at hsome
    cases hsome
    rfl

theorem scanFrom_unclosed {cs : List Char} (h : Text.Quoted.close? cs = none) :
    scanFrom offset ('"' :: cs) = [⟨.unclosed, offset, offset⟩] := by
  rw [scanFrom, if_neg (by decide), if_neg (by decide), if_neg (by decide), if_neg (by decide),
    if_pos rfl]
  split
  · rfl
  · next hsome =>
    rw [h] at hsome
    cases hsome

theorem isWordChar_iff {c : Char} :
    isWordChar c = true ↔ isLayout c = false ∧ c ≠ '(' ∧ c ≠ ')' ∧ c ≠ '"' ∧ c ≠ ';' ∧
      Trigger.ofChar? c = none := by
  simp only [isWordChar, isDelimiter, Bool.not_eq_true', Bool.or_eq_false_iff,
    decide_eq_false_iff_not, Option.isSome_eq_false_iff, Option.isNone_iff_eq_none, and_assoc,
    ne_eq]

theorem isWordChar_of_not_isDelimiter {c : Char} (h : isDelimiter c = false) :
    isWordChar c = true := by
  rw [isWordChar, h]
  rfl

theorem not_isDelimiter_of_isWordChar {c : Char} (h : isWordChar c = true) :
    isDelimiter c = false := by
  simpa [isWordChar] using h

theorem word_split {run rest : List Char} (hrun : ∀ c ∈ run, isWordChar c = true)
    (hrest : EndsWord rest) :
    (run ++ rest).takeWhile isWordChar = run ∧ (run ++ rest).dropWhile isWordChar = rest := by
  rw [List.takeWhile_append_of_pos hrun, List.dropWhile_append_of_pos hrun]
  cases rest with
  | nil => exact ⟨List.append_nil run, rfl⟩
  | cons c cs =>
    have hc : ¬ isWordChar c = true := by
      rw [isWordChar, hrest c cs rfl]
      decide
    rw [List.takeWhile_cons_of_neg hc, List.dropWhile_cons_of_neg hc, List.append_nil]
    exact ⟨rfl, rfl⟩

/-- A run of word characters is one token if no word character follows. -/
theorem scanFrom_word {run rest : List Char} (hne : run ≠ [])
    (hrun : ∀ c ∈ run, isWordChar c = true) (hrest : EndsWord rest) :
    scanFrom offset (run ++ rest) =
      ⟨.word run, offset, offset + byteLength run⟩ :: scanFrom (offset + byteLength run) rest := by
  cases run with
  | nil => exact absurd rfl hne
  | cons c cs =>
    obtain ⟨hlayout, hopening, hclosing, hquote, hsemicolon, htrigger⟩ :=
      isWordChar_iff.1 (hrun c List.mem_cons_self)
    obtain ⟨htake, hdrop⟩ := word_split (fun d hd => hrun d (List.mem_cons_of_mem c hd)) hrest
    rw [List.cons_append, scanFrom, hlayout, if_neg Bool.false_ne_true, if_neg hsemicolon,
      if_neg hopening, if_neg hclosing, if_neg hquote]
    simp only [htrigger, htake, hdrop]

end Equations

end MacroLisp.Token
