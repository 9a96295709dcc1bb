import MacroLisp.Node
import MacroLisp.Proofs.Number.ReadBack
import MacroLisp.Proofs.Reader.Scanning
import MacroLisp.Reader
import Mathlib.Data.List.Forall2

/-!
# Printed nodes are read back

Plain data is nil, truth values, finite numbers, strings, symbols that are tokens, and lists of
these. The readable print of plain data is read as an equal node. In between, the print is followed
by any text that ends a word, and what is read is put wherever the reader is: `Reads` says this of a
print at an offset, for every state of the reader. The print of a list is read item by item, since
the blank or the parenthesis behind an item ends it.
-/

namespace MacroLisp

open Token Number

/-- A name that is one word, and no number, truth value or nil. -/
structure IsSymbolToken (name : String) : Prop where
  ne_nil : name.toList ≠ []
  isWord : ∀ c ∈ name.toList, isDelimiter c = false
  notNumber : ¬ IsLiteral name.toList
  notReserved : name ≠ "true" ∧ name ≠ "false" ∧ name ≠ "nil"

def Atom.IsPlain : Atom → Prop
  | nil | bool _ | string _ => True
  | number x => x.isFinite = true
  | symbol name => IsSymbolToken name
  | function _ | expander _ => False

namespace Node

/-- Data without functions and macros, all of whose numbers and symbols can be written. -/
inductive IsPlain : Node → Prop where
  | atom {value : Atom} {span : Span} (h : value.IsPlain) : IsPlain (.atom value span)
  | list {items : List Node} {span : Span} (h : ∀ item ∈ items, IsPlain item) :
      IsPlain (.list items span)

end Node

section Words

variable {run : List Char} {span : Span}

theorem isDigit_bounds {c : Char} (h : c.isDigit = true) : 48 ≤ c.toNat ∧ c.toNat ≤ 57 := by
  simp only [Char.isDigit, Bool.and_eq_true, decide_eq_true_eq] at h
  exact h

theorem isWordChar_of_isDigit {c : Char} (h : c.isDigit = true) : isWordChar c = true := by
  have hne (d : Char) (hd : ¬ (48 ≤ d.toNat ∧ d.toNat ≤ 57)) : c ≠ d :=
    fun heq => hd (heq ▸ isDigit_bounds h)
  rw [isWordChar_iff]
  refine ⟨?_, hne _ (by decide), hne _ (by decide), hne _ (by decide), hne _ (by decide), ?_⟩
  · simp only [isLayout, hne ' ' (by decide), hne '\t' (by decide), hne '\r' (by decide),
      hne '\n' (by decide), decide_false, Bool.or_self]
  · cases htrigger : Trigger.ofChar? c with
    | none => rfl
    | some t =>
      have hc := Trigger.char_of_ofChar? htrigger
      cases t <;> exact absurd hc.symm (hne _ (by decide))

theorem isWordChar_of_isLiteral (h : IsLiteral run) : ∀ c ∈ run, isWordChar c = true := by
  intro c hc
  rcases h.char hc with hdigit | rfl | rfl
  · exact isWordChar_of_isDigit hdigit
  · decide
  · decide

theorem ofWord_symbol {name : String} (h : IsSymbolToken name) :
    Node.ofWord name.toList span = .symbol name span := by
  obtain ⟨htrue, hfalse, hnil⟩ := h.notReserved
  have hne {word : String} (hword : name ≠ word) : name.toList ≠ word.toList :=
    mt String.toList_inj.1 hword
  rw [Node.ofWord, ofLiteral?_eq_none h.notNumber]
  simp only [if_neg (hne htrue), if_neg (hne hfalse), if_neg (hne hnil), String.ofList_toList]

theorem ofWord_reserved :
    Node.ofWord "true".toList span = .bool true span ∧
      Node.ofWord "false".toList span = .bool false span ∧
        Node.ofWord "nil".toList span = .nil span :=
  ⟨rfl, rfl, rfl⟩

end Words

namespace Reader

/-- Wherever the reader is, it reads the characters as the node, if what follows ends a word. -/
def Reads (offset : Nat) (cs : List Char) (node : Node) : Prop :=
  ∀ (p : Progress) rest, EndsWord rest →
    p.takeAll (scanFrom offset (cs ++ rest)) =
      (place p.forms node p.pending).takeAll (scanFrom (offset + byteLength cs) rest)

theorem reads_word (offset : Nat) {run : List Char} (hne : run ≠ [])
    (hrun : ∀ c ∈ run, isWordChar c = true) :
    Reads offset run (.ofWord run ⟨offset, offset + byteLength run⟩) := by
  intro p rest hrest
  rw [scanFrom_word offset hne hrun hrest, Progress.takeAll]
  rfl

theorem reads_string (offset : Nat) (s : String) :
    ∃ span, Reads offset (Atom.string s).chars (.string s span) := by
  refine ⟨⟨offset, offset + byteLength (Text.Quoted.encode s.toList) + 2⟩, fun p rest _ => ?_⟩
  have hclose := Text.Quoted.close?_encode s.toList rest
  have hchars : (Atom.string s).chars ++ rest =
      '"' :: (Text.Quoted.encode s.toList ++ '"' :: rest) := by
    show '"' :: Text.Quoted.encode s.toList ++ ['"'] ++ rest = _
    rw [List.cons_append, List.cons_append, List.append_assoc, List.singleton_append]
  have hlength : byteLength (Atom.string s).chars =
      byteLength (Text.Quoted.encode s.toList) + 2 := by
    have hquote : '"'.utf8Size = 1 := by decide
    show byteLength ('"' :: Text.Quoted.encode s.toList ++ ['"']) = _
    rw [byteLength_append, byteLength_cons, byteLength_cons, byteLength_nil, hquote]
    omega
  rw [hchars, scanFrom_string offset rest hclose, Progress.takeAll, hlength, ← Nat.add_assoc]
  simp only [Progress.take, Text.Quoted.decode_encode, String.ofList_toList]

theorem reads_of_ofWord (offset : Nat) {run : List Char} {node : Node} (hne : run ≠ [])
    (hrun : ∀ c ∈ run, isWordChar c = true)
    (hword : ∀ span, (Node.ofWord run span == node) = true) :
    ∃ m, (m == node) = true ∧ Reads offset run m :=
  ⟨_, hword _, reads_word offset hne hrun⟩

theorem reads_atom (offset : Nat) {value : Atom} (h : value.IsPlain) (span : Span) :
    ∃ m, (m == Node.atom value span) = true ∧ Reads offset value.chars m := by
  cases value with
  | nil =>
    refine reads_of_ofWord offset (by decide) (List.all_eq_true.1 (by decide)) fun place => ?_
    exact ofWord_reserved.2.2 ▸ rfl
  | bool b =>
    cases b with
    | true =>
      refine reads_of_ofWord offset (by decide) (List.all_eq_true.1 (by decide)) fun place => ?_
      exact ofWord_reserved.1 ▸ rfl
    | false =>
      refine reads_of_ofWord offset (by decide) (List.all_eq_true.1 (by decide)) fun place => ?_
      exact ofWord_reserved.2.1 ▸ rfl
  | number x =>
    obtain ⟨y, hread, heq⟩ := ofLiteral?_plain h
    have hliteral := isLiteral_of_ofLiteral? hread
    refine reads_of_ofWord offset hliteral.ne_nil (isWordChar_of_isLiteral hliteral)
      fun place => ?_
    rw [Node.ofWord, show ofLiteral? (Atom.number x).chars = some y from hread]
    exact heq
  | string s =>
    obtain ⟨place, hreads⟩ := reads_string offset s
    exact ⟨_, beq_self_eq_true s, hreads⟩
  | symbol name =>
    refine reads_of_ofWord offset h.ne_nil
      (fun c hc => isWordChar_of_not_isDelimiter (h.isWord c hc)) fun place => ?_
    rw [show (Atom.symbol name).chars = name.toList from rfl, ofWord_symbol h]
    exact beq_self_eq_true name
  | function callable => exact h.elim
  | expander callable => exact h.elim

theorem reads_items {R : Node → Node → Prop} {items : List Node}
    (h : ∀ item ∈ items, ∀ offset, ∃ m, R item m ∧ Reads offset item.chars m) (offset : Nat) :
    ∃ ms, List.Forall₂ R items ms ∧ ∀ start acc pending forms rest,
      Progress.takeAll ⟨.list start acc :: pending, forms⟩
          (scanFrom offset (Node.itemChars items ++ ')' :: rest)) =
        Progress.takeAll ⟨.list start (ms.reverse ++ acc) :: pending, forms⟩
          (scanFrom (offset + byteLength (Node.itemChars items)) (')' :: rest)) := by
  induction items generalizing offset with
  | nil => exact ⟨[], .nil, fun start acc pending forms rest => rfl⟩
  | cons item items ih =>
    obtain ⟨m, hm, hreads⟩ := h item List.mem_cons_self offset
    cases items with
    | nil =>
      refine ⟨[m], .cons hm .nil, fun start acc pending forms rest => ?_⟩
      exact hreads ⟨.list start acc :: pending, forms⟩ (')' :: rest)
        (endsWord_cons (by decide) rest)
    | cons next items =>
      have hrest (item : Node) (hitem : item ∈ next :: items) := h item (List.mem_cons_of_mem _ hitem)
      have hblank : isLayout ' ' = true := by decide
      have hwidth : ' '.utf8Size = 1 := by decide
      obtain ⟨ms, hms, hall⟩ := ih hrest (offset + byteLength item.chars + 1)
      refine ⟨m :: ms, .cons hm hms, fun start acc pending forms rest => ?_⟩
      have hlength : byteLength (Node.itemChars (item :: next :: items)) =
          byteLength item.chars + 1 + byteLength (Node.itemChars (next :: items)) := by
        rw [Node.itemChars, byteLength_append, byteLength_cons, hwidth, Nat.add_assoc]
      rw [hlength, Node.itemChars, List.append_assoc, List.cons_append]
      refine (hreads ⟨.list start acc :: pending, forms⟩ _
        (endsWord_cons (by decide) _)).trans ?_
      rw [scanFrom_layout _ _ hblank, hwidth]
      refine (hall start (m :: acc) pending forms rest).trans ?_
      rw [List.reverse_cons, List.append_assoc, List.singleton_append]
      simp only [Nat.add_assoc]

theorem reads_list {R : Node → Node → Prop} {items : List Node}
    (h : ∀ item ∈ items, ∀ offset, ∃ m, R item m ∧ Reads offset item.chars m) (offset : Nat)
    (span : Span) :
    ∃ ms place, List.Forall₂ R items ms ∧
      Reads offset (Node.list items span).chars (.list ms place) := by
  obtain ⟨ms, hms, hitems⟩ := reads_items h (offset + 1)
  refine ⟨ms, ⟨offset, offset + 1 + byteLength (Node.itemChars items) + 1⟩, hms,
    fun p rest _ => ?_⟩
  have hchars : (Node.list items span).chars ++ rest =
      '(' :: (Node.itemChars items ++ ')' :: rest) := by
    rw [Node.chars, List.cons_append, List.cons_append, List.append_assoc, List.singleton_append]
  have hlength : byteLength (Node.list items span).chars =
      byteLength (Node.itemChars items) + 2 := by
    have hwidth : '('.utf8Size = 1 := by decide
    have hwidth' : ')'.utf8Size = 1 := by decide
    rw [Node.chars, byteLength_append, byteLength_cons, byteLength_cons, byteLength_nil, hwidth,
      hwidth']
    omega
  rw [hchars, scanFrom_opening, Progress.takeAll]
  refine (hitems offset [] p.pending p.forms rest).trans ?_
  rw [scanFrom_closing, Progress.takeAll, List.append_nil, hlength]
  simp only [Progress.take, List.reverse_reverse]
  congr 2
  omega

theorem sameAll_iff {P : Node → Prop} {items ms : List Node}
    (h : List.Forall₂ (fun item m => (m == item) = true ↔ P item) items ms) :
    Node.sameAll ms items = true ↔ ∀ item ∈ items, P item := by
  induction h with
  | nil => exact ⟨fun _ => nofun, fun _ => rfl⟩
  | cons hm _ ih =>
    rw [List.forall_mem_cons, ← hm, ← ih]
    exact Bool.and_eq_true_iff

theorem reads_of_isPlain {node : Node} (h : node.IsPlain) (offset : Nat) :
    ∃ m, (m == node) = true ∧ Reads offset node.chars m := by
  induction h generalizing offset with
  | atom h => exact reads_atom offset h _
  | @list items span _ ih =>
    obtain ⟨ms, place, hms, hreads⟩ := reads_list ih offset span
    have hsame := hms.imp fun item m hm => iff_of_true hm trivial
    exact ⟨.list ms place, (sameAll_iff hsame).2 fun _ _ => trivial, hreads⟩

section Blank

theorem chars_of_symbol? {node : Node} {name : String} (h : node.symbol? = some name) :
    node.chars = name.toList := by
  unfold Node.symbol? at h
  split at h
  · cases h
    rfl
  · cases h

theorem not_allBlank {cs : List Char} {c : Char} (hc : c ∈ cs) (h : Text.isBlank c = false) :
    Text.allBlank cs = false := by
  rw [Text.allBlank, List.all_eq_false]
  exact ⟨c, hc, by simp [h]⟩

theorem isBlank_of_isLiteral {run : List Char} (h : IsLiteral run) {c : Char} (hc : c ∈ run) :
    Text.isBlank c = false := by
  rcases h.char hc with hdigit | rfl | rfl
  · have hbounds := isDigit_bounds hdigit
    simp [Text.isBlank, Text.blankRanges]
    omega
  · decide
  · decide

/-- Plain data that is no bare symbol does not print as blank text. -/
theorem chars_not_allBlank {node : Node} (h : node.IsPlain) (hsymbol : node.symbol? = none) :
    Text.allBlank node.chars = false := by
  cases h with
  | list h => exact not_allBlank List.mem_cons_self (by decide)
  | @atom value span h =>
    cases value with
    | nil =>
      show Text.allBlank "nil".toList = false
      decide
    | bool b =>
      cases b with
      | true =>
        show Text.allBlank "true".toList = false
        decide
      | false =>
        show Text.allBlank "false".toList = false
        decide
    | number x =>
      obtain ⟨y, hread, -⟩ := ofLiteral?_plain h
      have hliteral := isLiteral_of_ofLiteral? hread
      obtain ⟨c, cs, hcs⟩ := List.exists_cons_of_ne_nil hliteral.ne_nil
      have hmem : c ∈ plain x := hcs ▸ List.mem_cons_self
      exact not_allBlank hmem (isBlank_of_isLiteral hliteral hmem)
    | string s => exact not_allBlank List.mem_cons_self (by decide)
    | symbol name => cases hsymbol
    | function callable => exact h.elim
    | expander callable => exact h.elim

end Blank

theorem parse_pretty {node m : Node} (hreads : Reads 0 node.chars m)
    (hprinted : Text.allBlank node.chars = false) : parse node.pretty = .ok [m] := by
  have htaken : Progress.start.takeAll (scan node.chars) = .ok ⟨[], [m]⟩ := by
    have := hreads Progress.start [] endsWord_nil
    rw [List.append_nil, scanFrom_nil] at this
    exact this
  have htext : node.pretty.toList = node.chars := String.toList_ofList
  rw [parse, htext, hprinted, if_neg Bool.false_ne_true, formsOf, htaken]
  rfl

/-- The readable print of plain data is read as an equal node, unless it is a bare symbol that looks
blank. -/
theorem readOne_pretty {node : Node} (h : node.IsPlain)
    (hblank : ∀ name, node.symbol? = some name → Text.allBlank name.toList = false)
    (name : String) :
    ∃ m, readOne ⟨name, node.pretty⟩ = .ok m ∧ (m == node) = true := by
  have hprinted : Text.allBlank node.chars = false := by
    cases hsymbol : node.symbol? with
    | none => exact chars_not_allBlank h hsymbol
    | some symbol => exact chars_of_symbol? hsymbol ▸ hblank symbol hsymbol
  obtain ⟨m, hsame, hreads⟩ := reads_of_isPlain h 0
  refine ⟨m, ?_, hsame⟩
  have hparse : parse node.pretty = .ok [m] := parse_pretty hreads hprinted
  have hread : read ⟨name, node.pretty⟩ = .ok [m] := by
    rw [read, hparse]
    rfl
  rw [readOne, hread]
  rfl

theorem readOne_pretty_list :
    let place : Span := ⟨0, 0⟩
    let node := Node.list [.symbol "a-b" place, .string "say \"hi\"\n" place, .number (-1.5) place,
      .list [] place] place
    node.IsPlain ∧ node.symbol? = none ∧
      ∃ m, readOne ⟨"t", node.pretty⟩ = .ok m ∧ (m == node) = true := by
  intro place node
  have hname : IsSymbolToken "a-b" := by
    have hword : "a-b".toList.all isWordChar = true := by decide
    refine ⟨by decide, fun c hc => ?_, fun h => ?_, by decide⟩
    · exact Bool.not_eq_true' _ ▸ List.all_eq_true.1 hword c hc
    · have hchar := h.char (c := 'a') (by decide)
      revert hchar
      decide
  have hplain : node.IsPlain := by
    refine .list fun item hitem => ?_
    simp only [List.mem_cons, List.not_mem_nil, or_false] at hitem
    rcases hitem with rfl | rfl | rfl | rfl
    · exact .atom hname
    · exact .atom trivial
    · exact .atom (by decide +kernel : (-1.5 : Float).isFinite = true)
    · exact .list fun item h => absurd h List.not_mem_nil
  exact ⟨hplain, rfl, readOne_pretty hplain (fun name h => by cases h) "t"⟩

end Reader

end MacroLisp
