import MacroLisp.Proofs.Reader.Grammar

/-!
# The beginning of a text

`Leads` says that characters are layout and tokens where some others come behind them: it is
`Splits` for a part of a text, since what comes behind decides where a comment or a word ends. Such
a part can be cut at each of its tokens. Every text is layout and tokens up to its end, or else up
to a quote that is never closed.
-/

namespace MacroLisp.Token

/-- From the offset on, the characters are layout and these tokens if `rest` comes behind them. -/
inductive Leads : Nat → List Char → List Token → List Char → Prop where
  | done (offset : Nat) (rest : List Char) : Leads offset [] [] rest
  | layout {offset : Nat} {cs ds rest : List Char} {tokens : List Token}
      (hcs : Layout cs (ds ++ rest)) (h : Leads (offset + byteLength cs) ds tokens rest) :
      Leads offset (cs ++ ds) tokens rest
  | token {offset : Nat} {lexeme : Lexeme} {cs ds rest : List Char} {tokens : List Token}
      (hcs : Spells lexeme cs (ds ++ rest)) (h : Leads (offset + byteLength cs) ds tokens rest) :
      Leads offset (cs ++ ds) (⟨lexeme, offset, offset + byteLength cs⟩ :: tokens) rest

/-- Where neither layout nor a token begins: the end of a text, or a quote that is never closed. -/
inductive Stuck : List Char → Prop where
  | done : Stuck []
  | unclosed {cs : List Char} (h : Text.Quoted.close? cs = none) : Stuck ('"' :: cs)

variable {offset : Nat} {cs ds rest : List Char} {lexeme : Lexeme}
  {tokens more : List Token}

section Rest

theorem Layout.of_append (h : Layout cs (ds ++ rest)) : Layout cs ds := by
  cases h with
  | blank h => exact .blank h
  | comment hbody hrest =>
    refine .comment hbody ?_
    cases ds with
    | nil => exact Or.inl rfl
    | cons d ds =>
      rcases hrest with hnil | hhead
      · cases hnil
      · exact Or.inr hhead

theorem Spells.of_append (h : Spells lexeme cs (ds ++ rest)) : Spells lexeme cs ds := by
  cases h with
  | opening => exact .opening
  | closing => exact .closing
  | trigger t => exact .trigger t
  | string h => exact .string h
  | word hrun hrest =>
    refine .word hrun fun c es hds => hrest c (es ++ rest) ?_
    rw [hds, List.cons_append]

/-- Of what comes behind layout, only the first character counts. -/
theorem Layout.of_head {c : Char} (h : Layout cs (ds ++ c :: rest)) (es : List Char) :
    Layout cs (ds ++ c :: es) := by
  cases h with
  | blank h => exact .blank h
  | comment hbody hrest =>
    refine .comment hbody (Or.inr ?_)
    cases ds with
    | nil => simpa using hrest
    | cons d ds => simpa using hrest

theorem Spells.of_head {c : Char} (h : Spells lexeme cs (ds ++ c :: rest)) (es : List Char) :
    Spells lexeme cs (ds ++ c :: es) := by
  cases h with
  | opening => exact .opening
  | closing => exact .closing
  | trigger t => exact .trigger t
  | string h => exact .string h
  | word hrun hrest =>
    refine .word hrun ?_
    cases ds with
    | nil => exact endsWord_cons (hrest c rest rfl) es
    | cons d ds => exact endsWord_cons (hrest d (ds ++ c :: rest) rfl) _

theorem Leads.of_head {c : Char} (h : Leads offset cs tokens (c :: rest)) (es : List Char) :
    Leads offset cs tokens (c :: es) := by
  generalize hfollow : c :: rest = follow at h
  induction h with
  | done => exact .done _ _
  | layout hcs _ ih =>
    subst hfollow
    exact .layout (hcs.of_head es) (ih rfl)
  | token hcs _ ih =>
    subst hfollow
    exact .token (hcs.of_head es) (ih rfl)

theorem Leads.splits (h : Leads offset cs tokens rest) : Splits offset cs tokens := by
  induction h with
  | done offset => exact .done offset
  | layout hcs _ ih => exact .layout hcs.of_append ih
  | token hcs _ ih => exact .token hcs.of_append ih

theorem Splits.leads (h : Splits offset cs tokens) : Leads offset cs tokens [] := by
  induction h with
  | done offset => exact .done offset []
  | @layout offset cs rest tokens hcs _ ih =>
    rw [← List.append_nil rest] at hcs
    exact .layout hcs ih
  | @token offset lexeme cs rest tokens hcs _ ih =>
    rw [← List.append_nil rest] at hcs
    exact .token hcs ih

end Rest

section Cutting

variable {token : Token} {front back : List Token}

theorem Leads.append (h : Leads offset cs tokens (ds ++ rest))
    (hmore : Leads (offset + byteLength cs) ds more rest) :
    Leads offset (cs ++ ds) (tokens ++ more) rest := by
  generalize hfollow : ds ++ rest = follow at h
  induction h with
  | done => exact hmore
  | layout hcs _ ih =>
    subst hfollow
    rw [byteLength_append, ← Nat.add_assoc] at hmore
    rw [← List.append_assoc] at hcs
    rw [List.append_assoc]
    exact .layout hcs (ih hmore rfl)
  | token hcs _ ih =>
    subst hfollow
    rw [byteLength_append, ← Nat.add_assoc] at hmore
    rw [← List.append_assoc] at hcs
    rw [List.append_assoc]
    exact .token hcs (ih hmore rfl)

/-- At a token, the characters fall into those before it, its own and those behind it. -/
theorem Leads.cut (h : Leads offset cs (front ++ token :: back) rest) :
    ∃ before own after : List Char, cs = before ++ (own ++ after) ∧
      Leads offset before front (own ++ (after ++ rest)) ∧
      Spells token.lexeme own (after ++ rest) ∧
      token.span = ⟨offset + byteLength before, offset + byteLength before + byteLength own⟩ ∧
      Leads (offset + byteLength before + byteLength own) after back rest := by
  generalize htokens : front ++ token :: back = tokens at h
  induction h generalizing front with
  | done => exact absurd htokens (by simp)
  | @layout offset cs ds rest tokens hcs _ ih =>
    obtain ⟨before, own, after, rfl, hfront, hown, hspan, hback⟩ := ih htokens
    rw [List.append_assoc, List.append_assoc] at hcs
    rw [Nat.add_assoc offset, ← byteLength_append] at hspan hback
    exact ⟨cs ++ before, own, after, (List.append_assoc ..).symm, .layout hcs hfront, hown, hspan,
      hback⟩
  | @token offset lexeme cs ds rest tokens hcs h ih =>
    -- the first token is the one to cut at, or it goes to the part before
    cases front with
    | nil =>
      obtain ⟨rfl, rfl⟩ := List.cons.inj htokens
      exact ⟨[], cs, ds, rfl, .done offset _, hcs, rfl, h⟩
    | cons first front =>
      obtain ⟨hfirst, htokens⟩ := List.cons.inj htokens
      obtain ⟨before, own, after, rfl, hfront, hown, hspan, hback⟩ := ih htokens
      subst hfirst
      rw [List.append_assoc, List.append_assoc] at hcs
      rw [Nat.add_assoc offset, ← byteLength_append] at hspan hback
      exact ⟨cs ++ before, own, after, (List.append_assoc ..).symm, .token hcs hfront, hown, hspan,
        hback⟩

theorem leads_of_spells (offset : Nat) (h : Spells lexeme cs rest) :
    Leads offset cs [⟨lexeme, offset, offset + byteLength cs⟩] rest := by
  have hone : Leads offset (cs ++ []) _ rest := .token h (.done (offset + byteLength cs) rest)
  rwa [List.append_nil] at hone

theorem Leads.from_token (h : Leads offset cs (front ++ token :: back) rest) :
    ∃ before after, cs = before ++ after ∧ token.span.start = offset + byteLength before ∧
      Leads (offset + byteLength before) after (token :: back) rest := by
  obtain ⟨before, own, after, rfl, -, hown, hspan, hback⟩ := h.cut
  obtain ⟨lexeme, span⟩ := token
  obtain rfl : span = _ := hspan
  exact ⟨before, own ++ after, rfl, rfl, .token hown hback⟩

theorem Leads.up_to_token (h : Leads offset cs (front ++ token :: back) rest) :
    ∃ before after, cs = before ++ after ∧ token.span.stop = offset + byteLength before ∧
      Leads offset before (front ++ [token]) (after ++ rest) := by
  obtain ⟨before, own, after, rfl, hfront, hown, hspan, -⟩ := h.cut
  obtain ⟨lexeme, span⟩ := token
  obtain rfl : span = _ := hspan
  refine ⟨before ++ own, after, (List.append_assoc ..).symm, ?_, ?_⟩
  · rw [byteLength_append, Nat.add_assoc]
  · exact hfront.append (leads_of_spells _ hown)

theorem Leads.cut_first (h : Leads offset cs (token :: back) rest)
    (hstart : token.span.start = offset) :
    ∃ own after, cs = own ++ after ∧ Spells token.lexeme own (after ++ rest) ∧
      Leads (offset + byteLength own) after back rest := by
  have hfirst : Leads offset cs ([] ++ token :: back) rest := h
  obtain ⟨before, own, after, rfl, -, hown, hspan, hback⟩ := hfirst.cut
  have hzero : byteLength before = 0 := by
    rw [hspan] at hstart
    dsimp only at hstart
    omega
  obtain rfl := byteLength_eq_zero_iff.1 hzero
  exact ⟨own, after, rfl, hown, hback⟩

theorem Leads.cut_last (h : Leads offset cs (front ++ [token]) rest)
    (hstop : token.span.stop = offset + byteLength cs) :
    ∃ before own, cs = before ++ own ∧ Spells token.lexeme own rest ∧
      Leads offset before front (own ++ rest) := by
  obtain ⟨before, own, after, rfl, hfront, hown, hspan, -⟩ := h.cut
  have hzero : byteLength after = 0 := by
    rw [hspan, byteLength_append, byteLength_append] at hstop
    dsimp only at hstop
    omega
  obtain rfl := byteLength_eq_zero_iff.1 hzero
  exact ⟨before, own, by rw [List.append_nil], hown, hfront⟩

end Cutting

section Bounds

theorem Spells.byteLength_pos (h : Spells lexeme cs rest) : 0 < byteLength cs := by
  cases h with
  | opening | closing | string => exact Nat.add_pos_left (Char.utf8Size_pos _) _
  | trigger t => rw [byteLength_trigger]; exact Nat.one_pos
  | word hrun _ => exact Nat.pos_of_ne_zero (mt byteLength_eq_zero_iff.1 hrun.ne_nil)

theorem Leads.span_bounds (h : Leads offset cs tokens rest) :
    ∀ token ∈ tokens, offset ≤ token.span.start ∧ token.span.start < token.span.stop ∧
      token.span.stop ≤ offset + byteLength cs := by
  induction h with
  | done => exact List.forall_mem_nil _
  | layout _ _ ih =>
    intro token htoken
    obtain ⟨hstart, hlt, hstop⟩ := ih token htoken
    rw [byteLength_append]
    omega
  | token hcs _ ih =>
    have hpos := hcs.byteLength_pos
    refine List.forall_mem_cons.2 ⟨?_, fun token htoken => ?_⟩
    · rw [byteLength_append]
      dsimp only
      omega
    · obtain ⟨hstart, hlt, hstop⟩ := ih token htoken
      rw [byteLength_append]
      omega

theorem Leads.pairwise (h : Leads offset cs tokens rest) :
    tokens.Pairwise fun a b => a.span.stop ≤ b.span.start := by
  induction h with
  | done => exact .nil
  | layout _ _ ih => exact ih
  | token _ h ih => exact .cons (fun token htoken => (h.span_bounds token htoken).1) ih

end Bounds

section Scanning

theorem Leads.scanFrom_append (h : Leads offset cs tokens rest) :
    scanFrom offset (cs ++ rest) = tokens ++ scanFrom (offset + byteLength cs) rest := by
  induction h with
  | done => rfl
  | layout hcs _ ih =>
    rw [List.append_assoc, scanFrom_of_layout hcs, ih, byteLength_append, Nat.add_assoc]
  | token hcs _ ih =>
    rw [List.append_assoc, scanFrom_of_spells hcs, ih, byteLength_append, Nat.add_assoc,
      List.cons_append]

/-- The text is layout and tokens up to where neither begins. -/
def LeadsOn (offset : Nat) (cs : List Char) : Prop :=
  ∃ (before rest : List Char) (tokens : List Token),
    cs = before ++ rest ∧ Leads offset before tokens rest ∧ Stuck rest

theorem LeadsOn.layout (hcs : Layout cs rest) (h : LeadsOn (offset + byteLength cs) rest) :
    LeadsOn offset (cs ++ rest) := by
  obtain ⟨before, stuck, tokens, rfl, hleads, hstuck⟩ := h
  exact ⟨cs ++ before, stuck, tokens, (List.append_assoc ..).symm, .layout hcs hleads, hstuck⟩

theorem LeadsOn.token (hcs : Spells lexeme cs rest) (h : LeadsOn (offset + byteLength cs) rest) :
    LeadsOn offset (cs ++ rest) := by
  obtain ⟨before, stuck, tokens, rfl, hleads, hstuck⟩ := h
  exact ⟨cs ++ before, stuck, _, (List.append_assoc ..).symm, .token hcs hleads, hstuck⟩

theorem leadsOn (offset : Nat) (cs : List Char) : LeadsOn offset cs := by
  induction offset, cs using scanFrom.induct with
  | case1 offset => exact ⟨[], [], [], rfl, .done offset [], .done⟩
  | case2 offset c cs hc ih => exact .layout (.blank hc) ih
  | case3 offset cs _ ih =>
    have hcomment := LeadsOn.layout (layout_comment cs) ih
    rwa [List.cons_append, List.takeWhile_append_dropWhile] at hcomment
  | case4 offset cs _ _ ih => exact .token .opening ih
  | case5 offset cs _ _ _ ih => exact .token .closing ih
  | case6 offset cs hclose => exact ⟨[], _, [], rfl, .done offset _, .unclosed hclose⟩
  | case7 offset cs raw rest hclose stop _ _ _ _ ih =>
    obtain ⟨ds, hds⟩ := Text.Quoted.denotes_of_close? hclose
    have hstop : stop = offset + byteLength ('"' :: raw ++ ['"']) := by
      rw [byteLength_literal, ← Nat.add_assoc]
    have hcs : '"' :: cs = ('"' :: raw ++ ['"']) ++ rest := by
      simp [Text.Quoted.close?_eq_append hclose]
    rw [hcs]
    exact .token (.string hds) (hstop ▸ ih)
  | case8 offset c cs _ _ _ _ _ t htrigger ih =>
    rw [← byteLength_trigger t] at ih
    rw [← Trigger.char_of_ofChar? htrigger]
    exact .token (.trigger t) ih
  | case9 offset c cs hlayout hsemicolon hopening hclosing hquote htrigger run stop ih =>
    have hc : isWordChar c = true := isWordChar_iff.2 ⟨by simpa using hlayout, hopening, hclosing,
      hquote, hsemicolon, htrigger⟩
    have hrun (d : Char) (hd : d ∈ run) : isDelimiter d = false := by
      rcases List.mem_cons.1 hd with rfl | hd
      · exact not_isDelimiter_of_isWordChar hc
      · exact not_isDelimiter_of_isWordChar (List.mem_takeWhile_imp hd)
    have hword := LeadsOn.token (.word ⟨List.cons_ne_nil _ _, hrun⟩ (endsWord_dropWhile cs)) ih
    rwa [List.cons_append, List.takeWhile_append_dropWhile] at hword

theorem splits_scanFrom (offset : Nat) (cs : List Char)
    (h : ∀ token ∈ scanFrom offset cs, token.lexeme ≠ .unclosed) :
    Splits offset cs (scanFrom offset cs) := by
  obtain ⟨before, rest, tokens, rfl, hleads, hstuck⟩ := leadsOn offset cs
  rw [hleads.scanFrom_append] at h ⊢
  cases hstuck with
  | done =>
    rw [scanFrom_nil, List.append_nil, List.append_nil]
    exact hleads.splits
  | unclosed hclose =>
    rw [scanFrom_unclosed _ hclose] at h
    exact absurd rfl (h _ (List.mem_append_right _ List.mem_cons_self))

theorem Splits.ne_unclosed (h : Splits offset cs tokens) :
    ∀ token ∈ tokens, token.lexeme ≠ .unclosed := by
  induction h with
  | done => exact List.forall_mem_nil _
  | layout _ _ ih => exact ih
  | @token offset lexeme cs rest tokens hcs _ ih =>
    refine List.forall_mem_cons.2 ⟨fun hlexeme : lexeme = .unclosed => ?_, ih⟩
    rw [hlexeme] at hcs
    cases hcs

/-- Behind such a beginning, a text splits as what comes there does by itself. -/
theorem Leads.splits_append_iff (h : Leads offset cs tokens rest) :
    Splits offset (cs ++ rest) more ↔
      ∃ others, Splits (offset + byteLength cs) rest others ∧ more = tokens ++ others := by
  constructor
  · intro hsplits
    have hmore := hsplits.scanFrom_eq
    rw [h.scanFrom_append] at hmore
    refine ⟨_, splits_scanFrom _ rest fun token htoken => hsplits.ne_unclosed token ?_, hmore.symm⟩
    rw [← hmore]
    exact List.mem_append_right _ htoken
  · rintro ⟨others, hothers, rfl⟩
    rw [← List.append_nil rest] at h
    exact (h.append hothers.leads).splits

end Scanning

end MacroLisp.Token
