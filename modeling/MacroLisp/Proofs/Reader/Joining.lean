import MacroLisp.Proofs.Reader.Parsing

/-!
# Two texts in one

A line feed between two texts ends a comment and a word, and a text that is accepted leaves no
string literal and no list open. So two accepted texts with a line feed between them are accepted as
one, and read as the forms of the first and then those of the second, whose spans are shifted by
what stands before them.
-/

namespace MacroLisp

def Span.shift (k : Nat) (span : Span) : Span := ⟨span.start + k, span.stop + k⟩

def Token.shift (k : Nat) (token : Token) : Token := { token with span := token.span.shift k }

namespace Node

mutual

/-- The node with every span moved by so many bytes. -/
def shift (k : Nat) : Node → Node
  | atom value span => atom value (span.shift k)
  | list items span => list (shiftItems k items) (span.shift k)

def shiftItems (k : Nat) : List Node → List Node
  | [] => []
  | item :: items => shift k item :: shiftItems k items

end

theorem shiftItems_eq_map (k : Nat) (items : List Node) : shiftItems k items = items.map (shift k) := by
  induction items with
  | nil => rfl
  | cons item items ih => rw [shiftItems, ih, List.map_cons]

theorem span_shift (k : Nat) (node : Node) : (node.shift k).span = node.span.shift k := by
  cases node <;> rfl

end Node

namespace Token

variable {offset : Nat} {cs ds rest : List Char} {tokens more : List Token}

theorem Layout.before (h : Layout cs rest) (ds : List Char) : Layout cs (rest ++ '\n' :: ds) := by
  cases h with
  | blank h => exact .blank h
  | comment hbody hrest =>
    refine .comment hbody (Or.inr ?_)
    rcases hrest with rfl | hhead
    · rfl
    · rw [List.head?_append, hhead, Option.some_or]

theorem EndsWord.before (h : EndsWord rest) (ds : List Char) : EndsWord (rest ++ '\n' :: ds) := by
  intro c es heq
  cases rest with
  | nil =>
    obtain ⟨rfl, rfl⟩ := List.cons.inj heq
    decide
  | cons d rest =>
    obtain ⟨rfl, -⟩ := List.cons.inj heq
    exact h _ _ rfl

theorem Spells.before {lexeme : Lexeme} (h : Spells lexeme cs rest) (ds : List Char) :
    Spells lexeme cs (rest ++ '\n' :: ds) := by
  cases h with
  | opening => exact .opening
  | closing => exact .closing
  | trigger t => exact .trigger t
  | string h => exact .string h
  | word hrun hrest => exact .word hrun (hrest.before ds)

theorem Splits.append (h : Splits offset cs tokens)
    (hmore : Splits (offset + byteLength cs + 1) ds more) :
    Splits offset (cs ++ '\n' :: ds) (tokens ++ more) := by
  induction h with
  | done offset =>
    have hfeed : Splits offset (['\n'] ++ ds) more := .layout (.blank rfl) hmore
    exact hfeed
  | @layout offset cs rest tokens hcs _ ih =>
    rw [List.append_assoc]
    refine .layout (hcs.before ds) (ih ?_)
    rwa [byteLength_append, ← Nat.add_assoc] at hmore
  | @token offset lexeme cs rest tokens hcs _ ih =>
    rw [List.append_assoc]
    refine .token (hcs.before ds) (ih ?_)
    rwa [byteLength_append, ← Nat.add_assoc] at hmore

theorem Splits.shift (h : Splits offset cs tokens) (k : Nat) :
    Splits (offset + k) cs (tokens.map (Token.shift k)) := by
  induction h with
  | done offset => exact .done _
  | layout hcs _ ih =>
    rw [Nat.add_right_comm] at ih
    exact .layout hcs ih
  | @token offset lexeme cs rest tokens hcs _ ih =>
    rw [Nat.add_right_comm] at ih
    have htoken := Splits.token hcs ih
    rw [Nat.add_right_comm offset k] at htoken
    exact htoken

theorem Splits.of_shift {k : Nat} (h : Splits (offset + k) cs tokens) :
    ∃ others, Splits offset cs others ∧ others.map (Token.shift k) = tokens := by
  generalize hstart : offset + k = start at h
  induction h generalizing offset with
  | done start => exact ⟨[], .done offset, rfl⟩
  | @layout start cs rest tokens hcs _ ih =>
    obtain ⟨others, hsplits, rfl⟩ := @ih (offset + byteLength cs) (by omega)
    exact ⟨others, .layout hcs hsplits, rfl⟩
  | @token start lexeme cs rest tokens hcs _ ih =>
    obtain ⟨others, hsplits, rfl⟩ := @ih (offset + byteLength cs) (by omega)
    refine ⟨_, .token hcs hsplits, ?_⟩
    rw [List.map_cons, Token.shift, Span.shift, hstart, Nat.add_right_comm, hstart]

end Token

namespace Reader

open Token

theorem Brackets.shift {tokens : List Token} {forms : List Node} (h : Brackets tokens forms)
    (k : Nat) : Brackets (tokens.map (Token.shift k)) (forms.map (Node.shift k)) := by
  induction h with
  | nil => exact .nil
  | word hvalue _ ih => exact .word hvalue ih
  | string hcs _ ih => exact .string hcs ih
  | @list opening closing inner rest items forms _ _ ihitems ih =>
    rw [List.map_append, List.map_cons, List.map_cons, List.map_cons, Node.shift,
      Node.shiftItems_eq_map]
    exact .list ihitems ih
  | @prefixed t span rest form forms _ ih =>
    have hprefixed : Brackets (⟨.trigger t, span.shift k⟩ :: rest.map (Token.shift k)) _ :=
      .prefixed ih
    rw [Node.span_shift] at hprefixed
    exact hprefixed

theorem Brackets.of_shift {tokens : List Token} {forms : List Node} {k : Nat}
    (h : Brackets (tokens.map (Token.shift k)) forms) :
    ∃ others, Brackets tokens others ∧ others.map (Node.shift k) = forms := by
  generalize hmoved : tokens.map (Token.shift k) = moved at h
  induction h generalizing tokens with
  | nil =>
    obtain rfl := List.map_eq_nil_iff.1 hmoved
    exact ⟨[], .nil, rfl⟩
  | @word run value span rest forms hvalue _ ih =>
    obtain ⟨⟨_, span⟩, tokens, rfl, hword, hrest⟩ := List.map_eq_cons_iff.1 hmoved
    cases hword
    obtain ⟨others, hothers, rfl⟩ := ih hrest
    exact ⟨_, .word hvalue hothers, rfl⟩
  | @string raw cs span rest forms hcs _ ih =>
    obtain ⟨⟨_, span⟩, tokens, rfl, hstring, hrest⟩ := List.map_eq_cons_iff.1 hmoved
    cases hstring
    obtain ⟨others, hothers, rfl⟩ := ih hrest
    exact ⟨_, .string hcs hothers, rfl⟩
  | @list opening closing inner rest items forms _ _ ihitems ih =>
    obtain ⟨front, back, rfl, hfront, hback⟩ := List.map_eq_append_iff.1 hmoved
    obtain ⟨⟨_, opening⟩, inner, rfl, hopening, hinner⟩ := List.map_eq_cons_iff.1 hfront
    obtain ⟨⟨_, closing⟩, tokens, rfl, hclosing, hrest⟩ := List.map_eq_cons_iff.1 hback
    cases hopening
    cases hclosing
    obtain ⟨items, hitems, rfl⟩ := ihitems hinner
    obtain ⟨others, hothers, rfl⟩ := ih hrest
    refine ⟨_, .list hitems hothers, ?_⟩
    rw [List.map_cons, Node.shift, Node.shiftItems_eq_map]
    rfl
  | @prefixed t span rest form forms _ ih =>
    obtain ⟨⟨_, span⟩, tokens, rfl, htrigger, hrest⟩ := List.map_eq_cons_iff.1 hmoved
    cases htrigger
    obtain ⟨others, hothers, hforms⟩ := ih hrest
    obtain ⟨other, others, rfl, rfl, rfl⟩ := List.map_eq_cons_iff.1 hforms
    refine ⟨_, .prefixed hothers, ?_⟩
    rw [Node.span_shift]
    rfl

theorem parse_splits {text : String} {forms : List Node}
    (hblank : Text.allBlank text.toList = false) (h : parse text = .ok forms) :
    ∃ tokens, Splits 0 text.toList tokens ∧ Brackets tokens forms :=
  ((parse_ok_iff hblank).1 forms).1 h

theorem parse_of_splits {text : String} {forms : List Node} {tokens : List Token}
    (hblank : Text.allBlank text.toList = false) (hsplits : Splits 0 text.toList tokens)
    (hforms : Brackets tokens forms) : parse text = .ok forms :=
  ((parse_ok_iff hblank).1 forms).2 ⟨tokens, hsplits, hforms⟩

theorem parse_of_allBlank {text : String} (h : Text.allBlank text.toList = true) :
    parse text = .ok [] := by
  rw [parse, if_pos h]

theorem not_allBlank_of_parse_ne {text : String} (h : parse text ≠ .ok []) :
    Text.allBlank text.toList = false :=
  Bool.eq_false_iff.2 (mt parse_of_allBlank h)

theorem not_allBlank_of_parse {text : String} {form : Node} {forms : List Node}
    (h : parse text = .ok (form :: forms)) : Text.allBlank text.toList = false :=
  not_allBlank_of_parse_ne (by simp [h])

/-- Two texts that are accepted, the first of which is not blank while the second has a form, are
accepted as one. -/
theorem parse_joined {first second : String} {forms others : List Node}
    (hblank : Text.allBlank first.toList = false) (hfirst : parse first = .ok forms)
    (hothers : others ≠ []) (hsecond : parse second = .ok others) :
    parse (first ++ "\n" ++ second) =
      .ok (forms ++ others.map (Node.shift (first.utf8ByteSize + 1))) := by
  obtain ⟨tokens, hsplits, hforms⟩ := parse_splits hblank hfirst
  obtain ⟨other, rest, rfl⟩ := List.exists_cons_of_ne_nil hothers
  obtain ⟨more, hmore, hrest⟩ := parse_splits (not_allBlank_of_parse hsecond) hsecond
  have hchars : (first ++ "\n" ++ second).toList = first.toList ++ '\n' :: second.toList := by
    rw [String.toList_append, String.toList_append, List.append_assoc]
    rfl
  have hshifted := hmore.shift (first.utf8ByteSize + 1)
  rw [← byteLength_toList, Nat.zero_add, ← Nat.zero_add (byteLength _)] at hshifted
  have hjoined := hsplits.append hshifted
  rw [← hchars] at hjoined
  refine parse_of_splits ?_ hjoined ?_
  · rw [hchars, Text.allBlank, List.all_append, ← Text.allBlank, hblank, Bool.false_and]
  · rw [Nat.zero_add, byteLength_toList]
    exact hforms.append (hrest.shift _)

end Reader

end MacroLisp
