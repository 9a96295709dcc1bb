import MacroLisp.Proofs.Reader.Joining

/-!
# Refused texts

A text is refused at the first place where it cannot be helped any more. Before that place it can
still be completed: an empty list there gives every open trigger and list a form, and a parenthesis
for each open list closes them. At the place itself stands a closing parenthesis that nothing waits
for, a quote that is never closed, or the end of the text.
-/

namespace MacroLisp.Reader

open Token

variable {tokens front back more : List Token} {pending : List Pending} {forms : List Node}
  {p q : Progress} {c : Complaint}

section Completion

def openLists : List Pending → Nat
  | [] => 0
  | .list _ _ :: pending => openLists pending + 1
  | .trigger _ _ :: pending => openLists pending

theorem Accounts.exists_brackets (h : Accounts tokens pending forms) {node : Node}
    {closings : List Token} (hnode : Brackets more [node])
    (hclosings : ∀ token ∈ closings, token.lexeme = .closing)
    (hlength : closings.length = openLists pending) :
    ∃ all, Brackets (tokens ++ (more ++ closings)) all := by
  induction h generalizing more node closings with
  | top h =>
    obtain rfl := List.length_eq_zero_iff.1 hlength
    rw [List.append_nil]
    exact ⟨_, h.append hnode⟩
  | @list tokens inner opening items forms pending h hitems ih =>
    -- the first parenthesis closes this list, which is then the form that the others wait for
    obtain ⟨⟨lexeme, span⟩, rest, rfl⟩ :=
      List.exists_cons_of_length_eq_add_one (hlength.trans rfl)
    obtain ⟨hlexeme : lexeme = .closing, hrest⟩ := List.forall_mem_cons.1 hclosings
    subst hlexeme
    have hlist : Brackets (⟨.opening, opening⟩ :: (inner ++ more) ++ [⟨.closing, span⟩]) [_] :=
      .list (hitems.append hnode) .nil
    obtain ⟨all, hall⟩ := ih hlist hrest (Nat.succ.inj hlength)
    refine ⟨all, ?_⟩
    simpa using hall
  | trigger h ih =>
    obtain ⟨all, hall⟩ := ih (.prefixed hnode) hclosings hlength
    refine ⟨all, ?_⟩
    simpa using hall

theorem exists_splits_closings (n offset : Nat) :
    ∃ closings, Splits offset (List.replicate n ')') closings ∧ closings.length = n ∧
      ∀ token ∈ closings, token.lexeme = .closing := by
  induction n generalizing offset with
  | zero => exact ⟨[], .done offset, rfl, List.forall_mem_nil _⟩
  | succ n ih =>
    obtain ⟨closings, hsplits, hlength, hclosings⟩ := ih (offset + 1)
    have hmore : Splits offset ([')'] ++ List.replicate n ')') _ := .token .closing hsplits
    exact ⟨_ :: closings, hmore, congrArg (· + 1) hlength, List.forall_mem_cons.2 ⟨rfl, hclosings⟩⟩

/-- Characters whose tokens account for what is held can be continued to a text that is accepted. -/
theorem Accounts.exists_continuation {before : List Char} (h : Accounts tokens pending forms)
    (hsplits : Splits 0 before tokens) :
    ∃ after found, parse (String.ofList (before ++ after)) = .ok found := by
  let offset := 0 + byteLength before + 1
  obtain ⟨closings, hclosings, hlength, hall⟩ :=
    exists_splits_closings (openLists pending + 1) (offset + 1)
  obtain ⟨⟨lexeme, span⟩, rest, rfl⟩ := List.exists_cons_of_length_eq_add_one hlength
  obtain ⟨hlexeme : lexeme = .closing, hrest⟩ := List.forall_mem_cons.1 hall
  subst hlexeme
  have hlist : Brackets [⟨.opening, offset, offset + 1⟩, ⟨.closing, span⟩] [_] :=
    @Brackets.list _ _ [] [] _ _ .nil .nil
  obtain ⟨found, hfound⟩ := h.exists_brackets hlist hrest (Nat.succ.inj hlength)
  have hmore : Splits offset (['('] ++ List.replicate (openLists pending + 1) ')') _ :=
    .token .opening hclosings
  refine ⟨'\n' :: '(' :: List.replicate (openLists pending + 1) ')', found, ?_⟩
  refine parse_of_splits ?_ ?_ hfound
  · rw [String.toList_ofList]
    exact Text.allBlank_eq_false_of_mem
      (List.mem_append_right before (List.mem_cons_of_mem '\n' List.mem_cons_self)) (by decide)
  · rw [String.toList_ofList]
    exact hsplits.append hmore

end Completion

section Stopping

theorem Progress.takeAll_append (p : Progress) (front back : List Token) :
    p.takeAll (front ++ back) = (p.takeAll front).bind fun q => q.takeAll back := by
  induction front generalizing p with
  | nil => rfl
  | cons token front ih =>
    rw [List.cons_append, takeAll, takeAll]
    cases p.take token with
    | error refused => rfl
    | ok next => exact ih next

theorem Progress.exists_of_takeAll_error (h : p.takeAll tokens = .error c) :
    ∃ front token back q, tokens = front ++ token :: back ∧ p.takeAll front = .ok q ∧
      q.take token = .error c := by
  induction tokens generalizing p with
  | nil => cases h
  | cons token tokens ih =>
    rw [takeAll] at h
    cases hnext : p.take token with
    | error refused =>
      rw [hnext] at h
      cases h
      exact ⟨[], token, tokens, p, rfl, rfl, hnext⟩
    | ok next =>
      rw [hnext] at h
      obtain ⟨front, last, back, q, rfl, hfront, hlast⟩ := ih h
      exact ⟨token :: front, last, back, q, rfl, takeAll_cons_iff.2 ⟨next, hnext, hfront⟩, hlast⟩

/-- Nothing but a closing parenthesis and a quote that is never closed is refused. -/
theorem Progress.take_error {token : Token} (h : p.take token = .error c) :
    c = p.refuse token.span.start ∧ (token.lexeme = .closing ∨ token.lexeme = .unclosed) := by
  obtain ⟨lexeme, span⟩ := token
  cases lexeme with
  | opening | trigger | string | word => cases h
  | unclosed =>
    cases h
    exact ⟨rfl, Or.inr rfl⟩
  | closing =>
    refine ⟨?_, Or.inl rfl⟩
    rw [take] at h
    dsimp only at h
    split at h
    · cases h
    · exact (Except.error.inj h).symm

theorem Progress.take_closing_ne_ok {span : Span} (h : p.take ⟨.closing, span⟩ = .error c)
    (moved : Span) : ∀ next, p.take ⟨.closing, moved⟩ ≠ .ok next := by
  intro next hnext
  rw [take] at h hnext
  dsimp only at h hnext
  split at hnext
  · next hpending =>
    rw [hpending] at h
    cases h
  · cases hnext

theorem formsOf_error_iff {size : Nat} :
    formsOf tokens size = .error c ↔
      Progress.start.takeAll tokens = .error c ∨
        ∃ q, Progress.start.takeAll tokens = .ok q ∧ q.pending ≠ [] ∧
          c = ⟨.unexpectedEnd, size, size⟩ := by
  rw [formsOf]
  split
  · next refused htaken =>
    rw [htaken]
    simp
  · next finished htaken =>
    rw [htaken]
    simp
  · next waiting pending finished htaken =>
    rw [htaken]
    simp [eq_comm]

end Stopping

section Offence

/-- What stands where a text is refused, behind the characters before that place. -/
inductive Offence (before : List Char) : List Char → Prop where
  /-- The text ends while a list is open or a trigger waits for its form. -/
  | ending {tokens : List Token} {pending : List Pending} {forms : List Node}
      (hsplits : Splits 0 before tokens) (hopen : Accounts tokens pending forms)
      (hpending : pending ≠ []) : Offence before []
  /-- No text that goes on with this parenthesis is accepted. -/
  | closing {rest : List Char}
      (h : ∀ more forms, parse (String.ofList (before ++ ')' :: more)) ≠ .ok forms) :
      Offence before (')' :: rest)
  /-- The quote opens a literal, and no quote behind it closes the literal. -/
  | quote {tokens : List Token} {rest : List Char} (hleads : Leads 0 before tokens ('"' :: rest))
      (hopen : ∀ raw cs more, Text.Quoted.Denotes raw cs → rest ≠ raw ++ '"' :: more) :
      Offence before ('"' :: rest)

def EndsInList (cs : List Char) : Prop :=
  ∃ tokens pending forms start items,
    Splits 0 cs tokens ∧ Accounts tokens pending forms ∧ .list start items ∈ pending

def PointsAtQuote (text : String) (c : Complaint) : Prop :=
  ∃ before rest, text.toList = before ++ '"' :: rest ∧ c.span.start = byteLength before

variable {text : String} {before rest : List Char}

theorem accounts_of_takeAll {offset : Nat} (hsplits : Splits offset before tokens)
    (htaken : Progress.start.takeAll tokens = .ok q) : Accounts tokens q.pending q.forms := by
  have haccounts := Accounts.takeAll (.top .nil) (isWhole_of_splits hsplits) htaken
  rwa [List.nil_append] at haccounts

theorem parse_ne_ok_of_closing {span : Span} (hleads : Leads 0 before front (')' :: rest))
    (hfront : Progress.start.takeAll front = .ok q) (hrefused : q.take ⟨.closing, span⟩ = .error c)
    (more : List Char) (forms : List Node) :
    parse (String.ofList (before ++ ')' :: more)) ≠ .ok forms := by
  intro h
  have hblank : Text.allBlank (before ++ ')' :: more) = false :=
    Text.allBlank_eq_false_of_mem (List.mem_append_right before List.mem_cons_self) (by decide)
  rw [parse, String.toList_ofList, hblank, if_neg Bool.false_ne_true, formsOf_eq_ok_iff, scan,
    (hleads.of_head more).scanFrom_append, scanFrom_closing,
    Progress.takeAll_append, hfront] at h
  obtain ⟨next, hnext, -⟩ := Progress.takeAll_cons_iff.1 h
  exact Progress.take_closing_ne_ok hrefused _ next hnext

/-- Where and why a text is refused. -/
structure Refused (text : String) (c : Complaint) (before rest : List Char) : Prop where
  text_eq : text.toList = before ++ rest
  span_eq : c.span = ⟨byteLength before, byteLength before⟩
  viable : ∃ tokens pending forms, Splits 0 before tokens ∧ Accounts tokens pending forms
  offence : Offence before rest
  cause : rest = [] ∧ c.cause = .unexpectedEnd ∨
    rest ≠ [] ∧ ∃ wanted, c.cause = .unexpectedToken wanted

theorem refused_of_take_error {token : Token} {cs : List Char} (htext : text.toList = cs ++ rest)
    (hleads : Leads 0 cs (front ++ token :: back) rest)
    (hfront : Progress.start.takeAll front = .ok q) (hrefused : q.take token = .error c) :
    ∃ before rest, Refused text c before rest := by
  obtain ⟨before, own, after, rfl, hbefore, hown, hspan, -⟩ := hleads.cut
  obtain ⟨rfl, hlexeme⟩ := Progress.take_error hrefused
  obtain ⟨lexeme, span⟩ := token
  dsimp only at hown hspan hlexeme
  rcases hlexeme with rfl | rfl
  · cases hown
    subst hspan
    refine ⟨before, ')' :: (after ++ rest), ?_, ?_, ?_, ?_, ?_⟩
    · simpa using htext
    · rw [Progress.refuse, Nat.zero_add]
    · exact ⟨front, _, _, hbefore.splits, accounts_of_takeAll hbefore.splits hfront⟩
    · exact .closing (parse_ne_ok_of_closing hbefore hfront hrefused)
    · exact Or.inr ⟨List.cons_ne_nil _ _, _, rfl⟩
  · cases hown

theorem refused_of_unclosed (htext : text.toList = before ++ '"' :: rest)
    (hleads : Leads 0 before tokens ('"' :: rest)) (hclose : Text.Quoted.close? rest = none)
    (htaken : Progress.start.takeAll tokens = .ok q) :
    Refused text (q.refuse (byteLength before)) before ('"' :: rest) where
  text_eq := htext
  span_eq := rfl
  viable := ⟨tokens, _, _, hleads.splits, accounts_of_takeAll hleads.splits htaken⟩
  offence := .quote hleads fun raw cs more hdenotes hrest => by
    rw [hrest, hdenotes.close?_eq] at hclose
    cases hclose
  cause := Or.inr ⟨List.cons_ne_nil _ _, _, rfl⟩

theorem refused_of_pending (hsplits : Splits 0 text.toList tokens)
    (htaken : Progress.start.takeAll tokens = .ok q) (hpending : q.pending ≠ []) :
    Refused text ⟨.unexpectedEnd, text.utf8ByteSize, text.utf8ByteSize⟩ text.toList [] where
  text_eq := (List.append_nil _).symm
  span_eq := by rw [byteLength_toList]
  viable := ⟨tokens, _, _, hsplits, accounts_of_takeAll hsplits htaken⟩
  offence := .ending hsplits (accounts_of_takeAll hsplits htaken) hpending
  cause := Or.inl ⟨rfl, rfl⟩

theorem exists_refused (h : parse text = .error c) : ∃ before rest, Refused text c before rest := by
  have hblank : Text.allBlank text.toList = false := not_allBlank_of_parse_ne (by simp [h])
  rw [parse, hblank, if_neg Bool.false_ne_true, scan] at h
  obtain ⟨before, rest, tokens, htext, hleads, hstuck⟩ := leadsOn 0 text.toList
  rw [htext, hleads.scanFrom_append, formsOf_error_iff, Progress.takeAll_append] at h
  -- a whole token is refused, or else what comes behind the last one is to blame
  cases htaken : Progress.start.takeAll tokens with
  | error refused =>
    obtain ⟨front, token, back, q, rfl, hfront, hrefused⟩ := Progress.exists_of_takeAll_error htaken
    rw [htaken] at h
    rcases h with h | ⟨_, h, -⟩
    · cases h
      exact refused_of_take_error htext hleads hfront hrefused
    · cases h
  | ok q =>
    rw [htaken] at h
    cases hstuck with
    | done =>
      rw [List.append_nil] at htext
      rw [scanFrom_nil] at h
      rcases h with h | ⟨_, h, hpending, rfl⟩
      · cases h
      · cases h
        rw [← htext] at hleads
        exact ⟨_, _, refused_of_pending hleads.splits htaken hpending⟩
    | unclosed hclose =>
      rw [scanFrom_unclosed _ hclose, Nat.zero_add] at h
      rcases h with h | ⟨_, h, -⟩
      · cases h
        exact ⟨_, _, refused_of_unclosed htext hleads hclose htaken⟩
      · cases h

theorem offence_of_pointsAtQuote (h : parse text = .error c) (hquote : PointsAtQuote text c) :
    ∃ before rest, text.toList = before ++ '"' :: rest ∧ Offence before ('"' :: rest) := by
  obtain ⟨before, rest, htext, hstart⟩ := hquote
  obtain ⟨before', rest', hrefused⟩ := exists_refused h
  rw [hrefused.span_eq] at hstart
  obtain ⟨rfl, rfl⟩ := append_inj_of_byteLength (hrefused.text_eq.symm.trans htext) hstart
  exact ⟨before', rest, htext, hrefused.offence⟩

theorem Refused.message_iff (h : Refused text c before rest) :
    c.cause.message = "unexpected end of input (unclosed list or string?)" ↔
      c.span.start = text.utf8ByteSize := by
  have hsize : byteLength before + byteLength rest = text.utf8ByteSize := by
    rw [← byteLength_append, ← h.text_eq, byteLength_toList]
  have hend : c.span.start = text.utf8ByteSize ↔ rest = [] := by
    rw [h.span_eq, ← hsize, ← byteLength_eq_zero_iff]
    dsimp only
    omega
  rw [hend]
  rcases h.cause with ⟨hrest, hcause⟩ | ⟨hrest, wanted, hcause⟩
  · rw [hcause]
    exact iff_of_true rfl hrest
  · rw [hcause]
    exact iff_of_false (by cases wanted <;> decide) hrest

/-- A text that is not accepted is refused at one place. What comes before can be continued to a
text that is accepted, and what stands there is to blame: the end of the text while something is
open in it, a parenthesis that no accepted text goes on with, or the quote of a literal that nothing
closes. The message tells of the end of the text just if it is refused there. -/
theorem parse_error_at_offence (h : parse text = .error c) :
    ∃ before rest : List Char, text.toList = before ++ rest ∧
      c.span = ⟨byteLength before, byteLength before⟩ ∧
      (∃ after forms, parse (String.ofList (before ++ after)) = .ok forms) ∧
      Offence before rest ∧
      (c.cause.message = "unexpected end of input (unclosed list or string?)" ↔
        c.span.start = text.utf8ByteSize) := by
  obtain ⟨before, rest, hrefused⟩ := exists_refused h
  obtain ⟨tokens, pending, forms, hsplits, haccounts⟩ := hrefused.viable
  exact ⟨before, rest, hrefused.text_eq, hrefused.span_eq, haccounts.exists_continuation hsplits,
    hrefused.offence, hrefused.message_iff⟩

/-- A trigger that a parenthesis cuts off, in a list, behind a character of two bytes. -/
theorem parse_error_at_offence_trigger :
    let c : Complaint := ⟨.unexpectedToken .form, 5, 5⟩
    parse "(é ')" = .error c ∧
      (∃ after forms, parse (String.ofList ("(é '".toList ++ after)) = .ok forms) ∧
      (∀ more forms, parse (String.ofList ("(é '".toList ++ ')' :: more)) ≠ .ok forms) ∧
      c.cause.message ≠ "unexpected end of input (unclosed list or string?)" := by
  intro c
  have hparse : parse "(é ')" = .error c := by
    have htokens : scan "(é ')".toList = [⟨.opening, 0, 1⟩, ⟨.word ['é'], 1, 3⟩,
        ⟨.trigger .quote, 4, 5⟩, ⟨.closing, 5, 6⟩] := by decide +kernel
    rw [parse, if_neg (by decide), htokens]
    rfl
  obtain ⟨before, rest, htext, hspan, hviable, hoffence, hmessage⟩ := parse_error_at_offence hparse
  have hcut : "(é '".toList ++ [')'] = before ++ rest := htext
  have hlength : byteLength "(é '".toList = byteLength before := congrArg Span.start hspan
  obtain ⟨rfl, rfl⟩ := append_inj_of_byteLength hcut hlength
  cases hoffence with
  | closing h => exact ⟨hparse, hviable, h, fun h => absurd (hmessage.1 h) (by decide)⟩

end Offence

end MacroLisp.Reader
