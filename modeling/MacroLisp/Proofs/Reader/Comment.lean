import MacroLisp.Proofs.Reader.Joining

/-!
# A comment in front of a text

A line that is a comment is layout, so the text behind it splits into its own tokens, moved by the
length of the line, and is read as its own forms. This fails for one kind of text. Blank characters
other than layout make words, but a text that holds nothing else but blanks is taken for empty;
behind a comment it is not, and its words are read as symbols.
-/

namespace MacroLisp

open Token
open Text (allBlank isBlank)

namespace Token

/-- The text is all blank, and still it has words: not all of its blanks are layout. -/
def HidesWords (cs : List Char) : Prop := allBlank cs = true ∧ ∃ c ∈ cs, isLayout c = false

theorem leads_comment {comment : List Char} (h : '\n' ∉ comment) (rest : List Char) :
    Leads 0 (';' :: comment ++ ['\n']) [] rest :=
  have hfeed : Leads (0 + byteLength (';' :: comment)) ['\n'] [] rest :=
    @Leads.layout _ ['\n'] [] rest [] (.blank rfl) (.done _ rest)
  .layout (.comment h (Or.inr rfl)) hfeed

end Token

namespace Reader

theorem exists_brackets_of_allBlank {offset : Nat} {cs : List Char} {tokens : List Token}
    (h : Splits offset cs tokens) (hblank : allBlank cs = true) :
    ∃ forms, Brackets tokens forms ∧ (forms = [] ↔ ∀ c ∈ cs, isLayout c = true) := by
  induction h with
  | done => exact ⟨[], .nil, by simp⟩
  | @layout offset cs rest tokens hcs _ ih =>
    rw [allBlank, List.all_append, Bool.and_eq_true] at hblank
    obtain ⟨forms, hforms, hiff⟩ := ih hblank.2
    cases hcs with
    | blank hc => exact ⟨forms, hforms, hiff.trans (by simp [hc])⟩
    | comment => exact absurd (List.all_eq_true.1 hblank.1 _ List.mem_cons_self) (by decide)
  | @token offset lexeme cs rest tokens hcs _ ih =>
    rw [allBlank, List.all_append, Bool.and_eq_true] at hblank
    obtain ⟨forms, hforms, -⟩ := ih hblank.2
    cases hcs with
    | word hrun _ =>
      obtain ⟨value, hvalue⟩ := exists_stands cs
      refine ⟨_, .word hvalue hforms, iff_of_false (List.cons_ne_nil _ _) fun hlayout => ?_⟩
      obtain ⟨c, hc⟩ := List.exists_mem_of_ne_nil cs hrun.ne_nil
      have hword := (isWordChar_iff.1 (hrun.isWordChar hc)).1
      rw [hlayout c (List.mem_append_left rest hc)] at hword
      cases hword
    | opening | closing | string =>
      exact absurd (List.all_eq_true.1 hblank.1 _ List.mem_cons_self) (by decide)
    | trigger t =>
      exact absurd (List.all_eq_true.1 hblank.1 _ List.mem_cons_self) (by cases t <;> decide)

theorem exists_splits_of_allBlank {cs : List Char} (h : allBlank cs = true) :
    ∃ tokens, Splits 0 cs tokens := by
  obtain ⟨before, rest, tokens, rfl, hleads, hstuck⟩ := leadsOn 0 cs
  cases hstuck with
  | done =>
    rw [List.append_nil]
    exact ⟨tokens, hleads.splits⟩
  | unclosed =>
    have hquote := List.all_eq_true.1 h '"' (List.mem_append_right _ List.mem_cons_self)
    exact absurd hquote (by decide)

theorem parse_behind_comment_iff {comment text : String} (hcomment : '\n' ∉ comment.toList)
    {forms : List Node} :
    parse (";" ++ comment ++ "\n" ++ text) = .ok forms ↔
      ∃ tokens plain, Splits 0 text.toList tokens ∧ Brackets tokens plain ∧
        forms = plain.map (Node.shift (comment.utf8ByteSize + 2)) := by
  have hchars : (";" ++ comment ++ "\n" ++ text).toList =
      ';' :: comment.toList ++ ['\n'] ++ text.toList := by
    simp only [String.toList_append]
    rfl
  have hsize : 0 + byteLength (';' :: comment.toList ++ ['\n']) = 0 + (comment.utf8ByteSize + 2) := by
    have hsemicolon : ';'.utf8Size = 1 := rfl
    have hfeed : '\n'.utf8Size = 1 := rfl
    rw [byteLength_append, byteLength_cons, byteLength_cons, byteLength_nil, byteLength_toList,
      hsemicolon, hfeed]
    omega
  have hblank : allBlank (";" ++ comment ++ "\n" ++ text).toList = false := by
    rw [hchars]
    rfl
  rw [(parse_ok_iff hblank).1, hchars]
  simp only [(leads_comment hcomment text.toList).splits_append_iff, hsize, List.nil_append]
  constructor
  · rintro ⟨tokens, ⟨others, hothers, rfl⟩, hforms⟩
    obtain ⟨unmoved, hsplits, rfl⟩ := hothers.of_shift
    obtain ⟨plain, hplain, rfl⟩ := hforms.of_shift
    exact ⟨unmoved, plain, hsplits, hplain, rfl⟩
  · rintro ⟨tokens, plain, hsplits, hplain, rfl⟩
    exact ⟨_, ⟨_, hsplits.shift _, rfl⟩, hplain.shift _⟩

theorem exists_parse_behind_comment {comment text : String} (hcomment : '\n' ∉ comment.toList)
    (hblank : allBlank text.toList = true) :
    ∃ forms, parse (";" ++ comment ++ "\n" ++ text) = .ok forms ∧
      (forms = [] ↔ ∀ c ∈ text.toList, isLayout c = true) := by
  obtain ⟨tokens, hsplits⟩ := exists_splits_of_allBlank hblank
  obtain ⟨plain, hplain, hiff⟩ := exists_brackets_of_allBlank hsplits hblank
  refine ⟨_, (parse_behind_comment_iff hcomment).2 ⟨tokens, plain, hsplits, hplain, rfl⟩, ?_⟩
  rw [List.map_eq_nil_iff, hiff]

/-- A comment in front of a text does not change it, unless the text is one that hides words: by
itself this is taken for empty, and behind the comment it has some forms. -/
theorem parse_behind_comment {comment text : String} (hcomment : '\n' ∉ comment.toList) :
    (¬ HidesWords text.toList →
      ∀ forms, parse (";" ++ comment ++ "\n" ++ text) = .ok forms ↔
        ∃ plain, parse text = .ok plain ∧
          forms = plain.map (Node.shift (comment.utf8ByteSize + 2))) ∧
    (HidesWords text.toList →
      parse text = .ok [] ∧
        ∃ form forms, parse (";" ++ comment ++ "\n" ++ text) = .ok (form :: forms)) := by
  constructor
  · intro hshown forms
    cases hblank : allBlank text.toList with
    | false =>
      rw [parse_behind_comment_iff hcomment]
      simp only [(parse_ok_iff hblank).1]
      exact ⟨fun ⟨tokens, plain, hsplits, hplain, hforms⟩ => ⟨plain, ⟨tokens, hsplits, hplain⟩, hforms⟩,
        fun ⟨plain, ⟨tokens, hsplits, hplain⟩, hforms⟩ => ⟨tokens, plain, hsplits, hplain, hforms⟩⟩
    | true =>
      have hlayout (c : Char) (hc : c ∈ text.toList) : isLayout c = true := by
        by_contra hword
        exact hshown ⟨hblank, c, hc, Bool.eq_false_iff.2 hword⟩
      obtain ⟨found, hfound, hiff⟩ := exists_parse_behind_comment hcomment hblank
      rw [hfound, hiff.2 hlayout, parse_of_allBlank hblank]
      constructor
      · rintro ⟨⟩
        exact ⟨[], rfl, rfl⟩
      · rintro ⟨plain, ⟨⟩, rfl⟩
        rfl
  · rintro ⟨hblank, c, hc, hword⟩
    obtain ⟨found, hfound, hiff⟩ := exists_parse_behind_comment hcomment hblank
    have hne : found ≠ [] := fun hnil => by
      rw [hiff.1 hnil c hc] at hword
      cases hword
    obtain ⟨form, forms, rfl⟩ := List.exists_cons_of_ne_nil hne
    exact ⟨parse_of_allBlank hblank, form, forms, hfound⟩

theorem parse_behind_comment_sample :
    let comment := "a ) \" é"
    '\n' ∉ comment.toList ∧
      parse (";" ++ comment ++ "\n" ++ "'a") = .ok [.form "quote" [.symbol "a" ⟨11, 12⟩] ⟨10, 12⟩] ∧
      parse "\u00a0" = .ok [] ∧
      ∃ form forms, parse (";" ++ comment ++ "\n" ++ "\u00a0") = .ok (form :: forms) := by
  intro comment
  have hcomment : '\n' ∉ comment.toList := by decide
  have hquoted : parse "'a" = .ok [.form "quote" [.symbol "a" ⟨1, 2⟩] ⟨0, 2⟩] := by
    have htokens : scan "'a".toList = [⟨.trigger .quote, 0, 1⟩, ⟨.word ['a'], 1, 2⟩] := by
      decide +kernel
    rw [parse, if_neg (by decide), htokens]
    rfl
  have hshown := (@parse_behind_comment comment "'a" hcomment).1 fun h => by
    cases h.1
  have hhidden := (@parse_behind_comment comment "\u00a0" hcomment).2
    ⟨by decide, '\u00a0', by decide, by decide⟩
  exact ⟨hcomment, (hshown _).2 ⟨_, hquoted, rfl⟩, hhidden⟩

/-- A form feed is read as nothing by itself and as a symbol behind a comment. -/
theorem form_feed_behind_comment :
    ('\n' ∉ "".toList ∧ parse "\x0c" = .ok [] ∧
      parse (";" ++ "" ++ "\n" ++ "\x0c") = .ok [.symbol "\x0c" ⟨2, 3⟩]) ∧
    ¬ ∀ comment text : String, '\n' ∉ comment.toList →
      ∀ forms, parse (";" ++ comment ++ "\n" ++ text) = .ok forms ↔
        ∃ plain, parse text = .ok plain ∧
          forms = plain.map (Node.shift (comment.utf8ByteSize + 2)) := by
  have hempty : parse "\x0c" = .ok [] := parse_of_allBlank (by decide)
  have hsymbol : parse (";" ++ "" ++ "\n" ++ "\x0c") = .ok [.symbol "\x0c" ⟨2, 3⟩] := by
    have htokens : scan (";" ++ "" ++ "\n" ++ "\x0c").toList = [⟨.word ['\x0c'], 2, 3⟩] := by
      decide +kernel
    rw [parse, if_neg (by decide), htokens]
    rfl
  refine ⟨⟨by decide, hempty, hsymbol⟩, fun h => ?_⟩
  obtain ⟨plain, hplain, hforms⟩ := (h "" "\x0c" (by decide) _).1 hsymbol
  rw [hempty] at hplain
  cases hplain
  cases hforms

end Reader

end MacroLisp
