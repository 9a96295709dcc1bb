import MacroLisp.Proofs.Reader.Beginning

/-!
# The reader accepts its grammar

The reader goes through the tokens once. In one direction, tokens that bracket into forms are taken
one after another in any state, and leave the forms where they are waited for. In the other, the
tokens taken so far account for all that the reader holds: for the finished forms, and for what
waits, each list behind the parenthesis that opened it and each trigger as the last of its tokens.
At the end nothing waits, so the tokens bracket into the finished forms.
-/

namespace MacroLisp.Reader

open Token

def Progress.putAll (p : Progress) (forms : List Node) : Progress :=
  forms.foldl (fun p form => place p.forms form p.pending) p

theorem Progress.takeAll_cons_iff {p q : Progress} {token : Token} {tokens : List Token} :
    p.takeAll (token :: tokens) = .ok q ↔
      ∃ next, p.take token = .ok next ∧ next.takeAll tokens = .ok q := by
  rw [takeAll]
  cases p.take token with
  | error complaint => exact ⟨nofun, nofun⟩
  | ok next => exact ⟨fun h => ⟨next, rfl, h⟩, fun ⟨_, rfl, h⟩ => h⟩

theorem formsOf_eq_ok_iff {tokens : List Token} {size : Nat} {forms : List Node} :
    formsOf tokens size = .ok forms ↔ Progress.start.takeAll tokens = .ok ⟨[], forms.reverse⟩ := by
  rw [formsOf]
  split
  · next htaken =>
    rw [htaken]
    exact ⟨nofun, nofun⟩
  · next finished htaken =>
    rw [htaken]
    constructor
    · intro h
      cases h
      rw [List.reverse_reverse]
    · intro h
      cases h
      rw [List.reverse_reverse]
  · next htaken =>
    rw [htaken]
    exact ⟨nofun, nofun⟩

section Complete

theorem putAll_list (start : Nat) (pending : List Pending) (top : List Node) (items acc : List Node) :
    Progress.putAll ⟨.list start acc :: pending, top⟩ items =
      ⟨.list start (items.reverse ++ acc) :: pending, top⟩ := by
  induction items generalizing acc with
  | nil => rfl
  | cons item items ih =>
    rw [List.reverse_cons, List.append_assoc, List.singleton_append, ← ih (item :: acc)]
    rfl

theorem putAll_top (forms acc : List Node) :
    Progress.putAll ⟨[], acc⟩ forms = ⟨[], forms.reverse ++ acc⟩ := by
  induction forms generalizing acc with
  | nil => rfl
  | cons form forms ih =>
    rw [List.reverse_cons, List.append_assoc, List.singleton_append, ← ih (form :: acc)]
    rfl

/-- Tokens that bracket into forms are taken in any state, whatever comes behind them. -/
theorem Brackets.takeAll_append {tokens : List Token} {forms : List Node}
    (h : Brackets tokens forms) (p : Progress) (rest : List Token) :
    p.takeAll (tokens ++ rest) = (p.putAll forms).takeAll rest := by
  induction h generalizing p rest with
  | nil => rfl
  | @word run value span tokens forms hvalue _ ih =>
    rw [List.cons_append, Progress.takeAll]
    simp only [Progress.take, hvalue.ofWord_eq]
    exact ih _ rest
  | @string raw cs span tokens forms hcs _ ih =>
    rw [List.cons_append, Progress.takeAll]
    simp only [Progress.take, hcs.decode_eq]
    exact ih _ rest
  | @list opening closing inner tokens items forms _ _ ihitems ih =>
    rw [List.append_assoc, List.cons_append, List.cons_append, Progress.takeAll]
    simp only [Progress.take]
    rw [ihitems, putAll_list, Progress.takeAll]
    simp only [Progress.take, List.append_nil, List.reverse_reverse]
    exact ih _ rest
  | @prefixed t span tokens form forms _ ih =>
    rw [List.cons_append, Progress.takeAll]
    simp only [Progress.take]
    exact ih _ rest

theorem Brackets.takeAll_eq {tokens : List Token} {forms : List Node} (h : Brackets tokens forms) :
    Progress.start.takeAll tokens = .ok ⟨[], forms.reverse⟩ := by
  have htaken := h.takeAll_append Progress.start []
  rw [List.append_nil] at htaken
  rw [htaken, Progress.start, putAll_top, List.append_nil]
  rfl

theorem Brackets.formsOf_eq {tokens : List Token} {forms : List Node} (h : Brackets tokens forms)
    (size : Nat) : formsOf tokens size = .ok forms :=
  formsOf_eq_ok_iff.2 h.takeAll_eq

/-- Tokens bracket into one list of forms at most. -/
theorem Brackets.unique {tokens : List Token} {forms forms' : List Node}
    (h : Brackets tokens forms) (h' : Brackets tokens forms') : forms = forms' :=
  Except.ok.inj ((h.formsOf_eq 0).symm.trans (h'.formsOf_eq 0))

end Complete

section Sound

theorem Brackets.append {tokens more : List Token} {forms others : List Node}
    (h : Brackets tokens forms) (hmore : Brackets more others) :
    Brackets (tokens ++ more) (forms ++ others) := by
  induction h with
  | nil => exact hmore
  | word hvalue _ ih => exact .word hvalue ih
  | string hcs _ ih => exact .string hcs ih
  | list hitems _ _ ih =>
    rw [List.append_assoc, List.cons_append]
    exact .list hitems ih
  | prefixed _ ih => exact .prefixed ih

/-- The tokens make up the finished forms and what waits. -/
inductive Accounts : List Token → List Pending → List Node → Prop where
  | top {tokens : List Token} {forms : List Node} (h : Brackets tokens forms.reverse) :
      Accounts tokens [] forms
  | list {tokens inner : List Token} {opening : Span} {items forms : List Node}
      {pending : List Pending} (h : Accounts tokens pending forms)
      (hitems : Brackets inner items.reverse) :
      Accounts (tokens ++ ⟨.opening, opening⟩ :: inner) (.list opening.start items :: pending) forms
  | trigger {tokens : List Token} {t : Trigger} {span : Span} {forms : List Node}
      {pending : List Pending} (h : Accounts tokens pending forms) :
      Accounts (tokens ++ [⟨.trigger t, span⟩]) (.trigger t span.start :: pending) forms

variable {tokens more : List Token} {pending : List Pending} {forms : List Node}

theorem Accounts.place (h : Accounts tokens pending forms) {node : Node}
    (hnode : Brackets more [node]) :
    Accounts (tokens ++ more) (Reader.place forms node pending).pending
      (Reader.place forms node pending).forms := by
  induction h generalizing more node with
  | top h =>
    have hforms := h.append hnode
    rw [← List.reverse_cons] at hforms
    exact .top hforms
  | @list _ inner _ items _ _ h hitems _ =>
    rw [List.append_assoc, List.cons_append]
    have hmore : Brackets (inner ++ more) (node :: items).reverse := by
      rw [List.reverse_cons]
      exact hitems.append hnode
    exact .list h hmore
  | trigger _ ih =>
    rw [List.append_assoc, List.singleton_append]
    exact ih (.prefixed hnode)

/-- A quoted string among the tokens is one that a text can hold. -/
def IsWhole (token : Token) : Prop :=
  ∀ raw, token.lexeme = .string raw → ∃ cs, Text.Quoted.Denotes raw cs

theorem Accounts.take {p next : Progress} {token : Token} (h : Accounts tokens p.pending p.forms)
    (htoken : IsWhole token) (hnext : p.take token = .ok next) :
    Accounts (tokens ++ [token]) next.pending next.forms := by
  obtain ⟨lexeme, span⟩ := token
  cases lexeme with
  | opening =>
    cases hnext
    exact .list h .nil
  | trigger t =>
    cases hnext
    exact .trigger h
  | string raw =>
    cases hnext
    obtain ⟨cs, hcs⟩ := htoken raw rfl
    rw [hcs.decode_eq]
    exact h.place (.string hcs .nil)
  | word run =>
    cases hnext
    obtain ⟨value, hvalue⟩ := exists_stands run
    rw [hvalue.ofWord_eq]
    exact h.place (.word hvalue .nil)
  | closing =>
    obtain ⟨pending, forms⟩ := p
    dsimp only at h
    cases h with
    | top => cases hnext
    | trigger => cases hnext
    | list h hitems =>
      cases hnext
      rw [List.append_assoc]
      exact h.place (.list hitems .nil)
  | unclosed => cases hnext

theorem Accounts.takeAll {p q : Progress} (h : Accounts tokens p.pending p.forms)
    (hmore : ∀ token ∈ more, IsWhole token) (hq : p.takeAll more = .ok q) :
    Accounts (tokens ++ more) q.pending q.forms := by
  induction more generalizing p tokens with
  | nil =>
    cases hq
    rwa [List.append_nil]
  | cons token more ih =>
    obtain ⟨htoken, hmore⟩ := List.forall_mem_cons.1 hmore
    obtain ⟨next, hnext, hq⟩ := Progress.takeAll_cons_iff.1 hq
    have hrest := ih (h.take htoken hnext) hmore hq
    rwa [List.append_assoc, List.singleton_append] at hrest

theorem brackets_of_formsOf {size : Nat} (htokens : ∀ token ∈ tokens, IsWhole token)
    (h : formsOf tokens size = .ok forms) : Brackets tokens forms := by
  have haccounts := Accounts.takeAll (.top .nil) htokens (formsOf_eq_ok_iff.1 h)
  cases haccounts with
  | top hbrackets =>
    rw [List.reverse_reverse] at hbrackets
    exact hbrackets

theorem ne_unclosed_of_takeAll {p q : Progress} (h : p.takeAll tokens = .ok q) :
    ∀ token ∈ tokens, token.lexeme ≠ .unclosed := by
  induction tokens generalizing p with
  | nil => exact nofun
  | cons token tokens ih =>
    obtain ⟨next, hnext, h⟩ := Progress.takeAll_cons_iff.1 h
    refine List.forall_mem_cons.2 ⟨fun hlexeme => ?_, ih h⟩
    rw [Progress.take, hlexeme] at hnext
    cases hnext

theorem ne_unclosed_of_formsOf {size : Nat} (h : formsOf tokens size = .ok forms) :
    ∀ token ∈ tokens, token.lexeme ≠ .unclosed :=
  ne_unclosed_of_takeAll (formsOf_eq_ok_iff.1 h)

theorem isWhole_of_splits {offset : Nat} {cs : List Char} (h : Splits offset cs tokens) :
    ∀ token ∈ tokens, IsWhole token := by
  induction h with
  | done => exact nofun
  | layout _ _ ih => exact ih
  | token hcs _ ih =>
    refine List.forall_mem_cons.2 ⟨fun raw hraw => ?_, ih⟩
    cases hcs with
    | string hdenotes =>
      cases hraw
      exact ⟨_, hdenotes⟩
    | opening | closing | trigger | word => cases hraw

end Sound

theorem formsOf_scan_iff {cs : List Char} {size : Nat} {forms : List Node} :
    formsOf (scan cs) size = .ok forms ↔ ∃ tokens, Splits 0 cs tokens ∧ Brackets tokens forms := by
  constructor
  · intro h
    have hsplits := splits_scanFrom 0 cs (ne_unclosed_of_formsOf h)
    exact ⟨_, hsplits, brackets_of_formsOf (isWhole_of_splits hsplits) h⟩
  · rintro ⟨tokens, hsplits, hbrackets⟩
    rw [scan, hsplits.scanFrom_eq]
    exact hbrackets.formsOf_eq size

/-- A text that is not blank is read as some forms if and only if it splits into layout and tokens
that bracket into these forms, and there is one way at most to do so. -/
theorem parse_ok_iff {text : String} (h : Text.allBlank text.toList = false) :
    (∀ forms, parse text = .ok forms ↔
      ∃ tokens, Splits 0 text.toList tokens ∧ Brackets tokens forms) ∧
    ∀ tokens tokens' forms forms', Splits 0 text.toList tokens → Brackets tokens forms →
      Splits 0 text.toList tokens' → Brackets tokens' forms' → tokens = tokens' ∧ forms = forms' := by
  refine ⟨fun forms => ?_, fun tokens tokens' forms forms' hsplits hforms hsplits' hforms' => ?_⟩
  · rw [parse, h, if_neg Bool.false_ne_true]
    exact formsOf_scan_iff
  · obtain rfl : tokens = tokens' := hsplits.scanFrom_eq.symm.trans hsplits'.scanFrom_eq
    exact ⟨rfl, hforms.unique hforms'⟩

theorem parse_ok_quoted :
    let text := "'a;b\n(\"\\\"\"-1.5)"
    let number := Node.number (Number.ofMagnitude true (Number.nearest 15 10)) ⟨10, 14⟩
    Text.allBlank text.toList = false ∧
      parse text = .ok [.form "quote" [.symbol "a" ⟨1, 2⟩] ⟨0, 2⟩,
        .list [.string "\"" ⟨6, 10⟩, number] ⟨5, 15⟩] := by
  intro text number
  have hblank : Text.allBlank text.toList = false := by decide
  have hdenotes : Text.Quoted.Denotes ['\\', '"'] ['"'] := .escape .quote .nil
  have htokens : scan text.toList = [⟨.trigger .quote, 0, 1⟩, ⟨.word ['a'], 1, 2⟩,
      ⟨.opening, 5, 6⟩, ⟨.string ['\\', '"'], 6, 10⟩, ⟨.word ['-', '1', '.', '5'], 10, 14⟩,
      ⟨.closing, 14, 15⟩] := by decide +kernel
  have hsplits : Splits 0 text.toList (scan text.toList) := by
    refine splits_scanFrom 0 text.toList ?_
    rw [← scan, htokens]
    decide
  have hstands : Stands ['a'] (.symbol "a") := by
    refine .symbol (fun h => ?_) (by decide)
    have hchar := h.char List.mem_cons_self
    revert hchar
    decide
  have hvalue : Stands ['-', '1', '.', '5'] _ :=
    .number true (List.cons_ne_nil '1' []) (List.forall_mem_singleton.2 rfl)
      (List.forall_mem_singleton (a := '5').2 rfl)
  refine ⟨hblank, ((parse_ok_iff hblank).1 _).2 ⟨_, hsplits, ?_⟩⟩
  rw [htokens]
  exact .prefixed (.word hstands (.list (.string hdenotes (.word hvalue .nil)) .nil))

end MacroLisp.Reader
