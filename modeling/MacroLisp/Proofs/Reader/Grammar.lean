import MacroLisp.Proofs.Number.ReadBack
import MacroLisp.Proofs.Reader.Scanning
import MacroLisp.Reader

/-!
# The grammar

Which texts the reader is to accept, and as what, said without reading them. `Token.Splits` cuts a
text into layout and tokens: a comment runs up to a line feed or the end, a word as far as no
delimiter comes, and a string literal to the first quote that is no part of a pair. `Brackets` makes
forms out of tokens: a parenthesis is closed by its own, and a trigger takes the one form after it.

The first half of the comparison with the reader is here: the tokens that a text splits into are
those that are scanned from it.
-/

namespace MacroLisp

namespace Text.Quoted

/-- The letter behind a backslash, and the character that the two stand for. -/
inductive Escape : Char → Char → Prop where
  | lineFeed : Escape 'n' '\n'
  | tab : Escape 't' '\t'
  | backslash : Escape '\\' '\\'
  | quote : Escape '"' '"'

/-- What can stand between the quotes of a literal, and the characters that it stands for. A
backslash and the character behind it are a pair; a pair that is no escape stands for itself. -/
inductive Denotes : List Char → List Char → Prop where
  | nil : Denotes [] []
  | plain {c : Char} {raw cs : List Char} (hquote : c ≠ '"') (hslash : c ≠ '\\')
      (h : Denotes raw cs) : Denotes (c :: raw) (c :: cs)
  | escape {c d : Char} {raw cs : List Char} (hescape : Escape c d) (h : Denotes raw cs) :
      Denotes ('\\' :: c :: raw) (d :: cs)
  | kept {c : Char} {raw cs : List Char} (hescape : ∀ d, ¬ Escape c d) (h : Denotes raw cs) :
      Denotes ('\\' :: c :: raw) ('\\' :: c :: cs)

theorem decode_escape {c d : Char} (h : Escape c d) (raw : List Char) :
    decode ('\\' :: c :: raw) = d :: decode raw := by
  cases h <;> rw [decode]

theorem decode_kept {c : Char} (h : ∀ d, ¬ Escape c d) (raw : List Char) :
    decode ('\\' :: c :: raw) = '\\' :: c :: decode raw := by
  have hne {d e : Char} (hescape : Escape d e) : c ≠ d := fun heq => h e (heq ▸ hescape)
  rw [decode]
  · exact hne .lineFeed
  · exact hne .tab
  · exact hne .backslash
  · exact hne .quote

theorem Denotes.decode_eq {raw cs : List Char} (h : Denotes raw cs) : decode raw = cs := by
  induction h with
  | nil => rfl
  | plain _ hslash _ ih => rw [decode_cons hslash, ih]
  | escape hescape _ ih => rw [decode_escape hescape, ih]
  | kept hescape _ ih => rw [decode_kept hescape, ih]

theorem close?_pair (c : Char) (cs : List Char) :
    close? ('\\' :: c :: cs) = (close? cs).map fun r => ('\\' :: c :: r.1, r.2) := by
  rw [close?]

theorem Denotes.close?_eq {raw cs : List Char} (h : Denotes raw cs) (rest : List Char) :
    close? (raw ++ '"' :: rest) = some (raw, rest) := by
  induction h with
  | nil => rfl
  | plain hquote hslash _ ih => rw [List.cons_append, close?_cons hquote hslash, ih, Option.map_some]
  | escape _ _ ih | kept _ _ ih =>
    rw [List.cons_append, List.cons_append, close?_pair, ih, Option.map_some]

theorem denotes_of_close? {cs raw rest : List Char} (h : close? cs = some (raw, rest)) :
    ∃ ds, Denotes raw ds := by
  fun_induction close? cs generalizing raw with
  | case1 => cases h
  | case2 cs =>
    cases h
    exact ⟨[], .nil⟩
  | case3 c cs ih =>
    obtain ⟨⟨b, r⟩, hb, he⟩ := Option.map_eq_some_iff.1 h
    obtain ⟨rfl, rfl⟩ := Prod.mk.inj he
    obtain ⟨ds, hds⟩ := ih hb
    by_cases hescape : ∃ d, Escape c d
    · obtain ⟨d, hescape⟩ := hescape
      exact ⟨d :: ds, .escape hescape hds⟩
    · exact ⟨_, .kept (not_exists.1 hescape) hds⟩
  | case4 c cs hquote hslash ih =>
    obtain ⟨⟨b, r⟩, hb, he⟩ := Option.map_eq_some_iff.1 h
    obtain ⟨rfl, rfl⟩ := Prod.mk.inj he
    obtain ⟨ds, hds⟩ := ih hb
    refine ⟨c :: ds, .plain hquote (fun hc => ?_) hds⟩
    -- a backslash with nothing behind it is not followed by a closing quote either
    cases cs with
    | nil => cases hb
    | cons d cs => exact hslash d cs hc rfl

end Text.Quoted

namespace Token

inductive Layout : List Char → List Char → Prop where
  | blank {c : Char} {rest : List Char} (h : isLayout c = true) : Layout [c] rest
  | comment {body rest : List Char} (hbody : '\n' ∉ body)
      (hrest : rest = [] ∨ rest.head? = some '\n') : Layout (';' :: body) rest

/-- Characters that make one word if no other comes before or behind them. -/
structure IsWord (run : List Char) : Prop where
  ne_nil : run ≠ []
  not_isDelimiter : ∀ c ∈ run, isDelimiter c = false

theorem IsWord.isWordChar {run : List Char} (h : IsWord run) {c : Char} (hc : c ∈ run) :
    Token.isWordChar c = true :=
  isWordChar_of_not_isDelimiter (h.not_isDelimiter c hc)

theorem isWord_of_all {run : List Char} (hne : run ≠ []) (h : run.all Token.isWordChar = true) :
    IsWord run :=
  ⟨hne, fun c hc => not_isDelimiter_of_isWordChar (List.all_eq_true.1 h c hc)⟩

/-- The characters of one token, and what may follow them: a word goes on as long as it can. -/
inductive Spells : Lexeme → List Char → List Char → Prop where
  | opening {rest : List Char} : Spells .opening ['('] rest
  | closing {rest : List Char} : Spells .closing [')'] rest
  | trigger {rest : List Char} (t : Trigger) : Spells (.trigger t) [t.char] rest
  | string {raw cs rest : List Char} (h : Text.Quoted.Denotes raw cs) :
      Spells (.string raw) ('"' :: raw ++ ['"']) rest
  | word {run rest : List Char} (hrun : IsWord run) (hrest : EndsWord rest) :
      Spells (.word run) run rest

/-- From the offset on, the text is layout and these tokens. -/
inductive Splits : Nat → List Char → List Token → Prop where
  | done (offset : Nat) : Splits offset [] []
  | layout {offset : Nat} {cs rest : List Char} {tokens : List Token} (hcs : Layout cs rest)
      (h : Splits (offset + byteLength cs) rest tokens) : Splits offset (cs ++ rest) tokens
  | token {offset : Nat} {lexeme : Lexeme} {cs rest : List Char} {tokens : List Token}
      (hcs : Spells lexeme cs rest) (h : Splits (offset + byteLength cs) rest tokens) :
      Splits offset (cs ++ rest) (⟨lexeme, offset, offset + byteLength cs⟩ :: tokens)

section Scanning

variable {offset : Nat} {cs rest : List Char} {tokens : List Token} {lexeme : Lexeme}

theorem inComment_iff {c : Char} : inComment c = true ↔ c ≠ '\n' := by
  simp [inComment]

theorem comment_split {body : List Char} (hbody : '\n' ∉ body)
    (hrest : rest = [] ∨ rest.head? = some '\n') :
    (body ++ rest).takeWhile inComment = body ∧ (body ++ rest).dropWhile inComment = rest := by
  have hall (c : Char) (hc : c ∈ body) : inComment c = true :=
    inComment_iff.2 fun heq => hbody (heq ▸ hc)
  rw [List.takeWhile_append_of_pos hall, List.dropWhile_append_of_pos hall]
  cases rest with
  | nil => exact ⟨List.append_nil body, rfl⟩
  | cons c cs =>
    have hc : c = '\n' := by simpa using hrest
    rw [List.takeWhile_cons_of_neg (by simp [hc, inComment]),
      List.dropWhile_cons_of_neg (by simp [hc, inComment]), List.append_nil]
    exact ⟨rfl, rfl⟩

theorem scanFrom_of_layout (h : Layout cs rest) :
    scanFrom offset (cs ++ rest) = scanFrom (offset + byteLength cs) rest := by
  cases h with
  | blank h => exact scanFrom_layout offset rest h
  | comment hbody hrest =>
    obtain ⟨htake, hdrop⟩ := comment_split hbody hrest
    rw [List.cons_append, scanFrom, if_neg (by decide), if_pos rfl, htake, hdrop]

theorem scanFrom_trigger (t : Trigger) :
    scanFrom offset (t.char :: rest) =
      ⟨.trigger t, offset, offset + 1⟩ :: scanFrom (offset + 1) rest := by
  have hlayout : isLayout t.char = false := by cases t <;> decide
  have hother : t.char ≠ ';' ∧ t.char ≠ '(' ∧ t.char ≠ ')' ∧ t.char ≠ '"' := by
    cases t <;> decide
  obtain ⟨hsemicolon, hopening, hclosing, hquote⟩ := hother
  rw [scanFrom, hlayout, if_neg Bool.false_ne_true, if_neg hsemicolon, if_neg hopening,
    if_neg hclosing, if_neg hquote]
  simp only [Trigger.ofChar?_char]

theorem byteLength_trigger (t : Trigger) : byteLength [t.char] = 1 := by
  cases t <;> rfl

theorem byteLength_literal (raw : List Char) :
    byteLength ('"' :: raw ++ ['"']) = byteLength raw + 2 := by
  have hquote : '"'.utf8Size = 1 := rfl
  simp only [byteLength_append, byteLength_cons, byteLength_nil, hquote]
  omega

theorem scanFrom_of_spells (h : Spells lexeme cs rest) :
    scanFrom offset (cs ++ rest) =
      ⟨lexeme, offset, offset + byteLength cs⟩ :: scanFrom (offset + byteLength cs) rest := by
  cases h with
  | opening => exact scanFrom_opening offset rest
  | closing => exact scanFrom_closing offset rest
  | trigger t =>
    rw [byteLength_trigger]
    exact scanFrom_trigger t
  | @string raw ds _ h =>
    rw [byteLength_literal, List.cons_append, List.cons_append, List.append_assoc, List.singleton_append,
      scanFrom_string offset rest (h.close?_eq rest), Nat.add_assoc]
  | word hrun hrest => exact scanFrom_word offset hrun.ne_nil (fun _ => hrun.isWordChar) hrest

theorem Splits.scanFrom_eq (h : Splits offset cs tokens) : scanFrom offset cs = tokens := by
  induction h with
  | done offset => exact scanFrom_nil offset
  | layout hcs _ ih => rw [scanFrom_of_layout hcs, ih]
  | token hcs _ ih => rw [scanFrom_of_spells hcs, ih]

theorem endsWord_dropWhile (cs : List Char) : EndsWord (cs.dropWhile isWordChar) := by
  intro c ds hcs
  have hc := List.head?_dropWhile_not isWordChar cs
  rw [hcs] at hc
  simpa [isWordChar] using hc

theorem layout_comment (cs : List Char) :
    Layout (';' :: cs.takeWhile inComment) (cs.dropWhile inComment) := by
  refine .comment (fun hmem => inComment_iff.1 (List.mem_takeWhile_imp hmem) rfl) ?_
  cases hrest : cs.dropWhile inComment with
  | nil => exact Or.inl rfl
  | cons c ds =>
    have hc := List.head?_dropWhile_not inComment cs
    rw [hrest] at hc
    exact Or.inr (by simpa [inComment] using hc)

end Scanning

end Token

namespace Reader

open Number

inductive Stands : List Char → Atom → Prop where
  | number (negative : Bool) {whole fraction : List Char} (hne : whole ≠ [])
      (hwhole : AllDigits whole) (hfraction : AllDigits fraction) :
      Stands (sign negative ++ joinFraction (whole, fraction))
        (.number (ofMagnitude negative
          (nearest (ofDigits (whole ++ fraction)) (10 ^ fraction.length))))
  | affirmed : Stands "true".toList (.bool true)
  | denied : Stands "false".toList (.bool false)
  | nil : Stands "nil".toList .nil
  | symbol {run : List Char} (hnumber : ¬ IsLiteral run)
      (hreserved : run ∉ ["true".toList, "false".toList, "nil".toList]) :
      Stands run (.symbol (String.ofList run))

/-- The tokens make up these forms, one after another. -/
inductive Brackets : List Token → List Node → Prop where
  | nil : Brackets [] []
  | word {run : List Char} {value : Atom} {span : Span} {rest : List Token} {forms : List Node}
      (hvalue : Stands run value) (hrest : Brackets rest forms) :
      Brackets (⟨.word run, span⟩ :: rest) (.atom value span :: forms)
  | string {raw cs : List Char} {span : Span} {rest : List Token} {forms : List Node}
      (hcs : Text.Quoted.Denotes raw cs) (hrest : Brackets rest forms) :
      Brackets (⟨.string raw, span⟩ :: rest) (.string (String.ofList cs) span :: forms)
  | list {opening closing : Span} {inner rest : List Token} {items forms : List Node}
      (hitems : Brackets inner items) (hrest : Brackets rest forms) :
      Brackets (⟨.opening, opening⟩ :: inner ++ ⟨.closing, closing⟩ :: rest)
        (.list items ⟨opening.start, closing.stop⟩ :: forms)
  | prefixed {t : Trigger} {span : Span} {rest : List Token} {form : Node} {forms : List Node}
      (hrest : Brackets rest (form :: forms)) :
      Brackets (⟨.trigger t, span⟩ :: rest)
        (.form t.head [form] ⟨span.start, form.span.stop⟩ :: forms)

section Words

variable {run : List Char} {value : Atom}

theorem ofLiteral?_parts {negative : Bool} {whole fraction : List Char} (hne : whole ≠ [])
    (hwhole : AllDigits whole) (hfraction : AllDigits fraction) :
    ofLiteral? (sign negative ++ joinFraction (whole, fraction)) =
      some (ofMagnitude negative (nearest (ofDigits (whole ++ fraction)) (10 ^ fraction.length))) := by
  refine ofLiteral?_sign_append negative ?_
  rw [unsigned?, literalParts?_joinFraction hne hwhole hfraction, Option.map_some, Nat.pow_eq]

theorem Stands.ofWord_eq (h : Stands run value) (span : Span) :
    Node.ofWord run span = .atom value span := by
  cases h with
  | number negative hne hwhole hfraction =>
    rw [Node.ofWord, ofLiteral?_parts hne hwhole hfraction]
  | affirmed | denied | nil => rfl
  | symbol hnumber hreserved =>
    simp only [List.mem_cons, List.not_mem_nil, or_false, not_or] at hreserved
    obtain ⟨htrue, hfalse, hnil⟩ := hreserved
    simp only [Node.ofWord, ofLiteral?_eq_none hnumber, if_neg htrue, if_neg hfalse, if_neg hnil]

theorem exists_stands (run : List Char) : ∃ value, Stands run value := by
  by_cases hreserved : run ∈ ["true".toList, "false".toList, "nil".toList]
  · simp only [List.mem_cons, List.not_mem_nil, or_false] at hreserved
    rcases hreserved with rfl | rfl | rfl
    · exact ⟨_, .affirmed⟩
    · exact ⟨_, .denied⟩
    · exact ⟨_, .nil⟩
  · by_cases hnumber : IsLiteral run
    · rcases hnumber with h | ⟨unsigned, h, rfl⟩
      · obtain ⟨whole, fraction, hne, hwhole, hfraction, rfl⟩ := h
        exact ⟨_, .number false hne hwhole hfraction⟩
      · obtain ⟨whole, fraction, hne, hwhole, hfraction, rfl⟩ := h
        exact ⟨_, .number true hne hwhole hfraction⟩
    · exact ⟨_, .symbol hnumber hreserved⟩

end Words

end Reader

end MacroLisp
