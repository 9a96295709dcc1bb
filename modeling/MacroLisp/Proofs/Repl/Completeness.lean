import MacroLisp.Proofs.Reader.Refusal
import MacroLisp.Proofs.Repl.Lines
import MacroLisp.Repl

/-!
# What is held back

Whether input is held back depends on where the scan stops, and of that only on whether it is in a
literal and how many lists are open. Blanks change neither, so it makes no difference that a session
drops those at the ends of lines. A text that is accepted closes each of its lists and literals, so
it is not held back; one that is refused for a literal or a list that is still open is held back.
-/

namespace MacroLisp.Repl

open Text (isBlank allBlank trim trimStart trimEnd trimLines EndsLine)

def Place.inLiteral : Place → Bool
  | .string | .escape => true
  | .code | .comment => false

/-- Whether the scan stops in a literal, and the number of lists that are open there. -/
def stop (cs : List Char) (place : Place) (open_ : Int) : Bool × Int :=
  ((scan cs place open_).1.inLiteral, (scan cs place open_).2)

section Scanning

variable {place place' : Place} {open_ : Int} {c : Char} {cs ds : List Char}

theorem scan_append (cs ds : List Char) (place : Place) (open_ : Int) :
    scan (cs ++ ds) place open_ = scan ds (scan cs place open_).1 (scan cs place open_).2 := by
  induction cs generalizing place open_ with
  | nil => rfl
  | cons c cs ih =>
    rw [List.cons_append]
    cases place with
    | code =>
      simp only [scan]
      split
      · exact ih ..
      · split
        · exact ih ..
        · split
          · exact ih ..
          · split <;> exact ih ..
    | string | escape | comment => exact ih ..

theorem stop_append (cs ds : List Char) (place : Place) (open_ : Int) :
    stop (cs ++ ds) place open_ = stop ds (scan cs place open_).1 (scan cs place open_).2 := by
  rw [stop, scan_append, stop]

def Place.afterBlank (c : Char) : Place → Place
  | .code => .code
  | .string | .escape => .string
  | .comment => if c = '\n' then .code else .comment

theorem Place.inLiteral_afterBlank (c : Char) (place : Place) :
    (place.afterBlank c).inLiteral = place.inLiteral := by
  cases place with
  | comment =>
    rw [afterBlank]
    split <;> rfl
  | code | string | escape => rfl

theorem scan_blank (hc : isBlank c = true) :
    scan (c :: cs) place open_ = scan cs (place.afterBlank c) open_ := by
  have hne (d : Char) (hd : isBlank d = false) : c ≠ d := fun heq => by
    rw [heq, hd] at hc
    cases hc
  cases place with
  | code =>
    rw [scan, if_neg (hne '"' (by decide)), if_neg (hne ';' (by decide)),
      if_neg (hne '(' (by decide)), if_neg (hne ')' (by decide)), Place.afterBlank]
  | string =>
    rw [scan, if_neg (hne '\\' (by decide)), if_neg (hne '"' (by decide)), Place.afterBlank]
  | escape | comment => rw [scan, Place.afterBlank]

theorem stop_blank (hc : isBlank c = true) :
    stop (c :: cs) place open_ = stop cs (place.afterBlank c) open_ := by
  rw [stop, scan_blank hc, stop]

theorem stop_of_allBlank (h : allBlank cs = true) :
    stop cs place open_ = (place.inLiteral, open_) := by
  induction cs generalizing place with
  | nil => rfl
  | cons c cs ih =>
    rw [allBlank, List.all_cons, Bool.and_eq_true] at h
    rw [stop_blank h.1, ih h.2, Place.inLiteral_afterBlank]

theorem stop_trim (cs : List Char) : stop (trim cs) .code 0 = stop cs .code 0 := by
  have hstart : stop (trimStart cs) .code 0 = stop cs .code 0 := by
    induction cs with
    | nil => rfl
    | cons c cs ih =>
      rw [trimStart] at ih ⊢
      by_cases hc : isBlank c = true
      · rw [List.dropWhile_cons_of_pos hc, ih, stop_blank hc, Place.afterBlank]
      · rw [List.dropWhile_cons_of_neg hc]
  have hend (ds : List Char) : stop (trimEnd ds) .code 0 = stop ds .code 0 := by
    have hsplit : trimEnd ds ++ (ds.reverse.takeWhile isBlank).reverse = ds := by
      rw [trimEnd, ← List.reverse_append, List.takeWhile_append_dropWhile, List.reverse_reverse]
    have hblank : allBlank (ds.reverse.takeWhile isBlank).reverse = true :=
      List.all_eq_true.2 fun c hc => List.mem_takeWhile_imp (List.mem_reverse.1 hc)
    conv_rhs => rw [← hsplit, stop_append, stop_of_allBlank hblank]
    rfl
  rw [trim, hend, hstart]

theorem trim_eq_nil_iff : trim cs = [] ↔ allBlank cs = true := by
  have hstart : allBlank (trimStart cs) = allBlank cs := by
    induction cs with
    | nil => rfl
    | cons c cs ih =>
      rw [trimStart] at ih ⊢
      by_cases hc : isBlank c = true
      · rw [List.dropWhile_cons_of_pos hc, ih, allBlank, allBlank, List.all_cons, hc, Bool.true_and]
      · rw [List.dropWhile_cons_of_neg hc]
  rw [trim, Text.trimEnd_eq_nil_iff, hstart]

/-- Input is complete if it is not blank, no list is open in it and no literal either. -/
theorem isComplete_iff (cs : List Char) :
    isComplete cs = true ↔
      allBlank cs = false ∧ (stop cs .code 0).1 = false ∧ (stop cs .code 0).2 ≤ 0 := by
  rw [← Bool.not_eq_true, ← trim_eq_nil_iff, ← stop_trim]
  unfold isComplete stop
  dsimp only
  generalize scan (trim cs) .code 0 = r
  obtain ⟨place, open_⟩ := r
  cases place <;> simp [Place.inLiteral]

/-- Where a line is over, it does not matter by which of two like places one comes to its end. -/
theorem stop_eq_of_endsLine (h : place.inLiteral = place'.inLiteral) (hcs : EndsLine cs) :
    stop cs place open_ = stop cs place' open_ := by
  rcases hcs with rfl | hfeed
  · rw [stop_of_allBlank rfl, stop_of_allBlank rfl, h]
  · obtain ⟨cs, rfl⟩ : ∃ ds, cs = '\n' :: ds := List.head?_eq_some_iff.1 hfeed
    rw [stop_blank Text.isBlank_lineFeed, stop_blank Text.isBlank_lineFeed]
    cases place <;> cases place' <;> first | rfl | cases h

theorem stop_trimLines (cs : List Char) (place : Place) (open_ : Int) :
    stop (trimLines cs) place open_ = stop cs place open_ := by
  induction cs generalizing place open_ with
  | nil => rfl
  | cons c cs ih =>
    -- a blank that is dropped may change the place, but a line is over behind it in any case
    by_cases h : isBlank c = true ∧ EndsLine (trimLines cs)
    · rw [Text.trimLines_of_blank h.1 h.2, stop_blank h.1, ← ih]
      exact stop_eq_of_endsLine (Place.inLiteral_afterBlank c place).symm h.2
    · rw [trimLines, if_neg h, ← List.singleton_append, stop_append, ih, ← stop_append]
      rfl

theorem isComplete_trimLines (cs : List Char) : isComplete (trimLines cs) = isComplete cs := by
  rw [Bool.eq_iff_iff, isComplete_iff, isComplete_iff, Text.allBlank_trimLines, stop_trimLines]

end Scanning

section Accepted

open Token

/-- How many lists a token opens. -/
def opened : Lexeme → Int
  | .opening => 1
  | .closing => -1
  | .trigger _ | .string _ | .word _ | .unclosed => 0

def balance (tokens : List Token) : Int := (tokens.map fun token => opened token.lexeme).sum

variable {offset : Nat} {open_ : Int} {cs rest : List Char} {tokens : List Token}

theorem isBlank_of_isLayout {c : Char} (h : isLayout c = true) : isBlank c = true := by
  unfold isLayout at h
  simp only [Bool.or_eq_true, decide_eq_true_iff] at h
  rcases h with ((rfl | rfl) | rfl) | rfl <;> decide

theorem scan_comment {body : List Char} (hbody : '\n' ∉ body) :
    scan (body ++ rest) .comment open_ = scan rest .comment open_ := by
  induction body with
  | nil => rfl
  | cons c body ih =>
    obtain ⟨hc, hbody⟩ := not_or.1 (mt List.mem_cons.2 hbody)
    rw [List.cons_append, scan, if_neg (Ne.symm hc), ih hbody]

theorem scan_literal {raw : List Char} (h : Text.Quoted.Denotes raw cs) :
    scan (raw ++ '"' :: rest) .string open_ = scan rest .code open_ := by
  induction h with
  | nil => rfl
  | plain hquote hslash _ ih => rw [List.cons_append, scan, if_neg hslash, if_neg hquote, ih]
  | escape _ _ ih | kept _ _ ih =>
    rw [List.cons_append, List.cons_append, scan, if_pos rfl, scan, ih]

theorem scan_word {run : List Char} (hrun : ∀ c ∈ run, isDelimiter c = false) :
    scan (run ++ rest) .code open_ = scan rest .code open_ := by
  induction run with
  | nil => rfl
  | cons c run ih =>
    obtain ⟨hc, hrun⟩ := List.forall_mem_cons.1 hrun
    obtain ⟨-, hopening, hclosing, hquote, hsemicolon, -⟩ :=
      isWordChar_iff.1 (isWordChar_of_not_isDelimiter hc)
    rw [List.cons_append, scan, if_neg hquote, if_neg hsemicolon, if_neg hopening, if_neg hclosing,
      ih hrun]

theorem scan_of_spells {lexeme : Lexeme} (h : Spells lexeme cs rest) :
    scan (cs ++ rest) .code open_ = scan rest .code (open_ + opened lexeme) := by
  cases h with
  | opening | closing => rfl
  | trigger t =>
    cases t <;> exact (congrArg (scan rest .code) (Int.add_zero open_)).symm
  | string h =>
    rw [List.cons_append, List.cons_append, List.append_assoc, List.singleton_append, scan, if_pos rfl,
      scan_literal h, opened, Int.add_zero]
  | word hrun _ => rw [scan_word hrun.not_isDelimiter, opened, Int.add_zero]

theorem stop_of_leads (h : Leads offset cs tokens rest) (open_ : Int) :
    stop (cs ++ rest) .code open_ = stop rest .code (open_ + balance tokens) := by
  induction h generalizing open_ with
  | done => exact congrArg (stop _ .code) (Int.add_zero open_).symm
  | @layout offset cs ds rest tokens hcs _ ih =>
    rw [List.append_assoc]
    cases hcs with
    | @blank c _ h =>
      rw [List.singleton_append, stop_blank (isBlank_of_isLayout h)]
      exact ih open_
    | comment hbody hrest =>
      have hend : stop (ds ++ rest) .comment open_ = stop (ds ++ rest) .code open_ :=
        stop_eq_of_endsLine rfl hrest
      rw [List.cons_append, stop, scan, if_neg (by decide), if_pos rfl, scan_comment hbody, ← stop,
        hend]
      exact ih open_
  | @token offset lexeme cs ds rest tokens hcs _ ih =>
    rw [List.append_assoc, stop, scan_of_spells hcs, ← stop, ih, balance, balance, List.map_cons,
      List.sum_cons, Int.add_assoc]

theorem stop_of_splits (h : Splits offset cs tokens) (open_ : Int) :
    stop cs .code open_ = (false, open_ + balance tokens) := by
  have hstop := stop_of_leads h.leads open_
  rwa [List.append_nil] at hstop

theorem balance_append (tokens more : List Token) :
    balance (tokens ++ more) = balance tokens + balance more := by
  rw [balance, List.map_append, List.sum_append, balance, balance]

theorem balance_of_brackets {forms : List Node} (h : Reader.Brackets tokens forms) :
    balance tokens = 0 := by
  induction h with
  | nil => rfl
  | word _ _ ih | string _ _ ih | prefixed _ ih =>
    rw [balance, List.map_cons, List.sum_cons, ← balance, ih]
    rfl
  | @list opening closing inner rest items forms _ _ ihitems ih =>
    rw [List.cons_append, ← List.singleton_append, ← List.singleton_append (l := rest), balance_append,
      balance_append, balance_append, ihitems, ih]
    rfl

theorem isComplete_of_brackets {forms : List Node} (hblank : allBlank cs = false)
    (hsplits : Splits 0 cs tokens) (hforms : Reader.Brackets tokens forms) :
    isComplete cs = true := by
  rw [isComplete_iff, stop_of_splits hsplits, balance_of_brackets hforms]
  exact ⟨hblank, rfl, Int.le_refl 0⟩

/-- Text that is accepted and has a form is complete. -/
theorem isComplete_of_parse {text : String} {form : Node} {forms : List Node}
    (h : Reader.parse text = .ok (form :: forms)) : isComplete text.toList = true := by
  have hblank := Reader.not_allBlank_of_parse h
  obtain ⟨tokens, hsplits, hforms⟩ := Reader.parse_splits hblank h
  exact isComplete_of_brackets hblank hsplits hforms

end Accepted

section Refused

open Token
open Reader (Pending Accounts Offence openLists)

variable {open_ : Int} {cs before rest : List Char} {tokens : List Token}

/-- Each list that waits for its end is one that was opened and not closed. -/
theorem balance_of_accounts {pending : List Pending} {forms : List Node}
    (h : Accounts tokens pending forms) : balance tokens = openLists pending := by
  induction h with
  | top h => exact balance_of_brackets h
  | @list tokens inner opening items forms pending _ hitems ih =>
    rw [← List.singleton_append (l := inner), balance_append, balance_append, ih,
      balance_of_brackets hitems]
    rfl
  | trigger _ ih =>
    rw [balance_append, ih]
    exact Int.add_zero _

theorem openLists_pos {pending : List Pending} {start : Nat} {items : List Node}
    (h : .list start items ∈ pending) : 0 < openLists pending := by
  induction pending with
  | nil => cases h
  | cons waiting pending ih =>
    cases waiting with
    | list => exact Nat.succ_pos _
    | trigger =>
      rcases List.mem_cons.1 h with h | h
      · cases h
      · exact ih h

theorem inLiteral_of_unclosed (h : Text.Quoted.close? cs = none) :
    (scan cs .string open_).1.inLiteral = true := by
  fun_induction Text.Quoted.close? cs with
  | case1 => rfl
  | case2 => cases h
  | case3 c cs ih =>
    rw [scan, if_pos rfl, scan]
    exact ih (Option.map_eq_none_iff.1 h)
  | case4 c cs hquote hslash ih =>
    by_cases hc : c = '\\'
    · cases cs with
      | nil =>
        rw [scan, if_pos hc]
        rfl
      | cons d cs => exact absurd rfl (hslash d cs hc)
    · rw [scan, if_neg hc, if_neg hquote]
      exact ih (Option.map_eq_none_iff.1 h)

theorem close?_eq_none_of_open
    (h : ∀ raw ds more, Text.Quoted.Denotes raw ds → cs ≠ raw ++ '"' :: more) :
    Text.Quoted.close? cs = none := by
  cases hclose : Text.Quoted.close? cs with
  | none => rfl
  | some found =>
    obtain ⟨ds, hds⟩ := Text.Quoted.denotes_of_close? hclose
    exact absurd (Text.Quoted.close?_eq_append hclose) (h _ ds _ hds)

theorem isComplete_eq_false_of_quote (h : Offence before ('"' :: rest)) :
    isComplete (before ++ '"' :: rest) = false := by
  cases h with
  | quote hleads hopen =>
    refine Bool.eq_false_iff.2 fun hcomplete => ?_
    have hstop := ((isComplete_iff _).1 hcomplete).2.1
    rw [stop_of_leads hleads, stop, scan, if_pos rfl,
      inLiteral_of_unclosed (close?_eq_none_of_open hopen)] at hstop
    cases hstop

/-- Text is held back while a list is open in it. -/
theorem isComplete_eq_false_of_list (h : Reader.EndsInList cs) : isComplete cs = false := by
  obtain ⟨tokens, pending, forms, start, items, hsplits, haccounts, hlist⟩ := h
  refine Bool.eq_false_iff.2 fun hcomplete => ?_
  have hle := ((isComplete_iff cs).1 hcomplete).2.2
  have hpos := openLists_pos hlist
  rw [stop_of_splits hsplits, balance_of_accounts haccounts] at hle
  dsimp only at hle
  omega

/-- The scan counts every parenthesis once at most. -/
theorem scan_bounds (cs : List Char) (place : Place) (open_ : Int) :
    open_ - cs.count ')' ≤ (scan cs place open_).2 ∧
      (scan cs place open_).2 ≤ open_ + cs.count '(' := by
  induction cs generalizing place open_ with
  | nil => simp [scan]
  | cons c cs ih =>
    have hclosing : cs.count ')' ≤ (c :: cs).count ')' := List.count_le_count_cons
    have hopening : cs.count '(' ≤ (c :: cs).count '(' := List.count_le_count_cons
    have hsame (next : Place) : open_ - (c :: cs).count ')' ≤ (scan cs next open_).2 ∧
        (scan cs next open_).2 ≤ open_ + (c :: cs).count '(' := by
      obtain ⟨hlower, hupper⟩ := ih next open_
      omega
    cases place with
    | comment | escape | string => exact hsame _
    | code =>
      rw [scan]
      split
      · exact hsame _
      · split
        · exact hsame _
        · split
          · next hc =>
            obtain ⟨hlower, hupper⟩ := ih .code (open_ + 1)
            rw [hc, List.count_cons_self]
            rw [hc] at hclosing
            omega
          · split
            · next hc =>
              obtain ⟨hlower, hupper⟩ := ih .code (open_ - 1)
              rw [hc, List.count_cons_self]
              rw [hc] at hopening
              omega
            · exact hsame _

theorem trim_sublist (cs : List Char) : (trim cs).Sublist cs := by
  have hend : (trimEnd (trimStart cs)).Sublist (trimStart cs) := by
    rw [trimEnd, ← List.reverse_sublist, List.reverse_reverse]
    exact List.dropWhile_sublist isBlank
  exact hend.trans (List.dropWhile_sublist isBlank)

theorem scan_trim_bounds {front : List Char} (h : front <+: trim cs)
    (hcount : cs.count '(' + cs.count ')' < 2 ^ 31) :
    -2 ^ 31 < (scan front .code 0).2 ∧ (scan front .code 0).2 < 2 ^ 31 := by
  have hsublist := h.sublist.trans (trim_sublist cs)
  have hopening := hsublist.count_le '('
  have hclosing := hsublist.count_le ')'
  obtain ⟨hlower, hupper⟩ := scan_bounds front .code 0
  omega

/-- The scan agrees with the reader on every text that is not blank: it holds no accepted text back,
and it does hold back what the reader refuses for a literal that is never closed, or for its end
where a list is open. With fewer than `2 ^ 31` parentheses its count keeps within 32 bits all the
way. -/
theorem scan_agrees_with_reader {text : String} (hblank : trim text.toList ≠ [])
    (hcount : text.toList.count '(' + text.toList.count ')' < 2 ^ 31) :
    (∀ forms, Reader.parse text = .ok forms → isComplete text.toList = true) ∧
    (∀ c, Reader.parse text = .error c →
      Reader.PointsAtQuote text c ∨ Reader.EndsInList text.toList →
      isComplete text.toList = false) ∧
    ∀ front, front <+: trim text.toList →
      -2 ^ 31 < (scan front .code 0).2 ∧ (scan front .code 0).2 < 2 ^ 31 := by
  refine ⟨fun forms h => ?_, fun c h hopen => ?_, fun front hfront => scan_trim_bounds hfront hcount⟩
  · have hshown : allBlank text.toList = false := Bool.eq_false_iff.2 (mt trim_eq_nil_iff.2 hblank)
    obtain ⟨tokens, hsplits, hforms⟩ := Reader.parse_splits hshown h
    exact isComplete_of_brackets hshown hsplits hforms
  · rcases hopen with hquote | hlist
    · obtain ⟨before, rest, htext, hoffence⟩ := Reader.offence_of_pointsAtQuote h hquote
      rw [htext]
      exact isComplete_eq_false_of_quote hoffence
    · exact isComplete_eq_false_of_list hlist

/-- A semicolon in a literal and a parenthesis in a comment do not mislead the scan, nor does a
blank behind a backslash that trimming drops. -/
theorem scan_agrees_with_reader_sample :
    let accepted := "(\";\" ;(\n)"
    let listed := "(;)"
    let unclosed := "\"\\ "
    (trim accepted.toList ≠ [] ∧ (∃ forms, Reader.parse accepted = .ok forms) ∧
      isComplete accepted.toList = true) ∧
    (∃ c, Reader.parse listed = .error c ∧ Reader.EndsInList listed.toList ∧
      isComplete listed.toList = false) ∧
    ∃ c, Reader.parse unclosed = .error c ∧ Reader.PointsAtQuote unclosed c ∧
      isComplete unclosed.toList = false := by
  intro accepted listed unclosed
  have haccepted : trim accepted.toList ≠ [] := by decide
  have hparse : Reader.parse accepted = .ok [.list [.string ";" ⟨1, 4⟩] ⟨0, 9⟩] := by
    have htokens : Token.scan accepted.toList =
        [⟨.opening, 0, 1⟩, ⟨.string [';'], 1, 4⟩, ⟨.closing, 8, 9⟩] := by decide +kernel
    rw [Reader.parse, if_neg (by decide), htokens]
    rfl
  have hlisted : Reader.parse listed = .error ⟨.unexpectedEnd, 3, 3⟩ := by
    have htokens : Token.scan listed.toList = [⟨.opening, 0, 1⟩] := by decide +kernel
    rw [Reader.parse, if_neg (by decide), htokens]
    rfl
  have hopen : Reader.EndsInList listed.toList := by
    have hchars : listed.toList = ['('] ++ [';', ')'] := by decide
    have hcomment : Splits 1 [';', ')'] [] :=
      .layout (@Layout.comment [')'] [] (by decide) (Or.inl rfl)) (.done _)
    have haccounts : Accounts [⟨.opening, 0, 1⟩] [.list 0 []] [] :=
      @Accounts.list [] [] _ [] [] [] (.top .nil) .nil
    rw [hchars]
    exact ⟨_, _, _, _, _, .token .opening hcomment, haccounts, List.mem_cons_self⟩
  have hunclosed : Reader.parse unclosed = .error ⟨.unexpectedToken .program, 0, 0⟩ := by
    have htokens : Token.scan unclosed.toList = [⟨.unclosed, 0, 0⟩] := by decide +kernel
    rw [Reader.parse, if_neg (by decide), htokens]
    rfl
  have hquote : Reader.PointsAtQuote unclosed ⟨.unexpectedToken .program, 0, 0⟩ :=
    ⟨[], ['\\', ' '], by decide, rfl⟩
  exact ⟨⟨haccepted, ⟨_, hparse⟩, (scan_agrees_with_reader haccepted (by decide)).1 _ hparse⟩,
    ⟨_, hlisted, hopen,
      (scan_agrees_with_reader (by decide) (by decide)).2.1 _ hlisted (Or.inr hopen)⟩,
    _, hunclosed, hquote,
    (scan_agrees_with_reader (by decide) (by decide)).2.1 _ hunclosed (Or.inl hquote)⟩

end Refused

end MacroLisp.Repl
