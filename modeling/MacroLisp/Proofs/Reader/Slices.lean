import MacroLisp.Proofs.Reader.Joining

/-!
# What a node is read from

Every node of a text that is accepted, but for the heads that triggers put there, is read from a
slice of the text: the characters from its first token to its last, which are those at its span. The
slice by itself is read as the same node again, since neither layout nor a token in it needs what
comes behind. The slices of the items of a list follow one another within that of the list.
-/

namespace MacroLisp

open Token
open Text (allBlank)

namespace Reader

variable {tokens own : List Token} {forms : List Node} {form node : Node}

theorem Brackets.eq_nil (h : Brackets tokens []) : tokens = [] := by
  cases h
  rfl

theorem Brackets.cons_split (h : Brackets tokens (form :: forms)) :
    ∃ own back, tokens = own ++ back ∧ Brackets own [form] ∧ Brackets back forms := by
  generalize hall : form :: forms = all at h
  induction h generalizing form forms with
  | nil => cases hall
  | @word run value span rest others hvalue hrest _ =>
    cases hall
    exact ⟨[_], rest, rfl, .word hvalue .nil, hrest⟩
  | @string raw cs span rest others hcs hrest _ =>
    cases hall
    exact ⟨[_], rest, rfl, .string hcs .nil, hrest⟩
  | @list opening closing inner rest items others hitems hrest _ _ =>
    cases hall
    refine ⟨⟨.opening, opening⟩ :: inner ++ [⟨.closing, closing⟩], rest, ?_, .list hitems .nil, hrest⟩
    simp
  | @prefixed t span rest first others hrest ih =>
    obtain ⟨rfl, rfl⟩ := List.cons.inj hall
    obtain ⟨own, back, rfl, hown, hback⟩ := ih rfl
    exact ⟨_ :: own, back, rfl, .prefixed hown, hback⟩

theorem Brackets.mem_split (h : Brackets tokens forms) (hform : form ∈ forms) :
    ∃ front own back, tokens = front ++ own ++ back ∧ Brackets own [form] := by
  induction forms generalizing tokens with
  | nil => cases hform
  | cons first forms ih =>
    obtain ⟨own, back, rfl, hown, hback⟩ := h.cons_split
    rcases List.mem_cons.1 hform with rfl | hform
    · exact ⟨[], own, back, rfl, hown⟩
    · obtain ⟨front, mine, last, rfl, hmine⟩ := ih hback hform
      exact ⟨own ++ front, mine, last, by simp only [List.append_assoc], hmine⟩

theorem Brackets.exists_first (h : Brackets own [form]) :
    ∃ first back, own = first :: back ∧ first.span.start = form.span.start := by
  cases h with
  | word | string | list | prefixed => exact ⟨_, _, rfl, rfl⟩

theorem Brackets.exists_last (h : Brackets own [form]) :
    ∃ front last, own = front ++ [last] ∧ last.span.stop = form.span.stop := by
  generalize hall : [form] = all at h
  induction h generalizing form with
  | nil => cases hall
  | word _ hrest _ | string _ hrest _ =>
    cases hall
    obtain rfl := hrest.eq_nil
    exact ⟨[], _, rfl, rfl⟩
  | list _ hrest _ _ =>
    cases hall
    obtain rfl := hrest.eq_nil
    exact ⟨_, _, rfl, rfl⟩
  | prefixed _ ih =>
    obtain ⟨rfl, rfl⟩ := List.cons.inj hall
    obtain ⟨front, last, rfl, hlast⟩ := ih rfl
    exact ⟨_ :: front, last, rfl, hlast⟩

theorem Brackets.list_cases {items : List Node} {span : Span} (h : Brackets own [.list items span]) :
    (∃ opening closing inner, own = ⟨.opening, opening⟩ :: inner ++ [⟨.closing, closing⟩] ∧
      span = ⟨opening.start, closing.stop⟩ ∧ Brackets inner items) ∨
    ∃ t trigger rest form, own = ⟨.trigger t, trigger⟩ :: rest ∧
      items = [.symbol t.head span, form] ∧ span = ⟨trigger.start, form.span.stop⟩ ∧
      Brackets rest [form] := by
  cases h with
  | list hitems hrest =>
    obtain rfl := hrest.eq_nil
    exact Or.inl ⟨_, _, _, rfl, rfl, hitems⟩
  | prefixed hrest => exact Or.inr ⟨_, _, _, _, rfl, rfl, rfl, hrest⟩

theorem Brackets.span_mem (h : Brackets tokens forms) (hform : form ∈ forms) :
    (∃ first ∈ tokens, first.span.start = form.span.start) ∧
      ∃ last ∈ tokens, last.span.stop = form.span.stop := by
  obtain ⟨front, own, back, rfl, hown⟩ := h.mem_split hform
  obtain ⟨first, more, hfirst, hstart⟩ := hown.exists_first
  obtain ⟨less, last, hlast, hstop⟩ := hown.exists_last
  exact ⟨⟨first, by simp [hfirst], hstart⟩, last, by simp [hlast], hstop⟩

theorem Brackets.pairwise (h : Brackets tokens forms)
    (htokens : tokens.Pairwise fun a b => a.span.stop ≤ b.span.start) :
    forms.Pairwise fun a b => a.span.stop ≤ b.span.start := by
  induction forms generalizing tokens with
  | nil => exact .nil
  | cons form forms ih =>
    obtain ⟨own, back, rfl, hown, hback⟩ := h.cons_split
    obtain ⟨-, hrest, hacross⟩ := List.pairwise_append.1 htokens
    obtain ⟨less, last, rfl, hstop⟩ := hown.exists_last
    refine .cons (fun other hother => ?_) (ih hback hrest)
    obtain ⟨first, hfirst, hstart⟩ := (hback.span_mem hother).1
    rw [← hstop, ← hstart]
    exact hacross last (by simp) first hfirst

end Reader

namespace Node

/-- The nodes that stand in the text of a form: itself, and in a list its items. The head that a
trigger puts in front of its form does not stand there; it has the span of the whole list. -/
inductive Written (node : Node) : Node → Prop where
  | self : Written node node
  | item {items : List Node} {span : Span} {item : Node} (hitem : item ∈ items)
      (hspan : item.span ≠ span) (h : Written node item) : Written node (.list items span)

/-- How the node divides the characters that it is read from. -/
inductive Divides : Node → List Char → Prop where
  | atom (value : Atom) (span : Span) (slice : List Char) : Divides (.atom value span) slice
  /-- The items stand one after another between the parentheses. -/
  | list {items : List Node} {span : Span} (inner : List Char)
      (hinside : ∀ item ∈ items, span.start < item.span.start ∧ item.span.stop < span.stop)
      (horder : items.Pairwise fun a b => a.span.stop ≤ b.span.start) :
      Divides (.list items span) ('(' :: inner ++ [')'])
  /-- The form stands behind the trigger and ends where the whole does. -/
  | prefixed {form : Node} {span : Span} (t : Trigger) (inner : List Char)
      (hstart : span.start < form.span.start) (hstop : form.span.stop = span.stop) :
      Divides (.form t.head [form] span) (t.char :: inner)

/-- Characters that are read as the node, where it begins at the offset of its span. -/
structure ReadFrom (slice : List Char) (node : Node) : Prop where
  ne_nil : slice ≠ []
  readOne (hblank : allBlank slice = false) (name : String) :
    ∃ found, Reader.readOne ⟨name, String.ofList slice⟩ = .ok found ∧
      found.shift node.span.start = node
  divides : Divides node slice

end Node

namespace Reader

variable {text before slice after : List Char} {tokens own front back : List Token}
  {forms : List Node} {form node : Node}

/-- The characters of the text from the first token of the node to its last. -/
structure Region (text : List Char) (node : Node) (before slice after : List Char)
    (tokens : List Token) : Prop where
  text_eq : text = before ++ slice ++ after
  span_eq : node.span = ⟨byteLength before, byteLength (before ++ slice)⟩
  leads : Leads (byteLength before) slice tokens after
  brackets : Brackets tokens [node]

theorem exists_region (htext : text = before ++ slice ++ after)
    (hleads : Leads (byteLength before) slice (front ++ own ++ back) after)
    (hown : Brackets own [node]) : ∃ before slice after, Region text node before slice after own := by
  obtain ⟨first, more, rfl, hstart⟩ := hown.exists_first
  obtain ⟨less, last, hlast, hstop⟩ := hown.exists_last
  rw [List.append_assoc, List.cons_append] at hleads
  -- what comes before the first token is cut off, and then what comes behind the last
  obtain ⟨skipped, kept, rfl, hskipped, hkept⟩ := hleads.from_token
  rw [← List.cons_append, hlast, List.append_assoc, List.singleton_append] at hkept
  obtain ⟨mine, other, rfl, hmine, hleads⟩ := hkept.up_to_token
  rw [← hlast] at hleads
  refine ⟨before ++ skipped, mine, other ++ after, ?_, ?_, ?_, hown⟩
  · rw [htext]
    simp only [List.append_assoc]
  · have hspan : node.span = ⟨node.span.start, node.span.stop⟩ := rfl
    rw [hspan, ← hstart, ← hstop, hskipped, hmine, byteLength_append, byteLength_append,
      byteLength_append]
  · rw [byteLength_append]
    exact hleads

namespace Region

variable {items : List Node} {span : Span}

theorem ne_nil (h : Region text node before slice after tokens) : slice ≠ [] := by
  obtain ⟨first, more, rfl, -⟩ := h.brackets.exists_first
  obtain ⟨hstart, hlt, hstop⟩ := h.leads.span_bounds first List.mem_cons_self
  rintro rfl
  rw [byteLength_nil] at hstop
  omega

theorem readOne (h : Region text node before slice after tokens) (hblank : allBlank slice = false)
    (name : String) :
    ∃ found, Reader.readOne ⟨name, String.ofList slice⟩ = .ok found ∧
      found.shift node.span.start = node := by
  have hsplits := h.leads.splits
  rw [← Nat.zero_add (byteLength before)] at hsplits
  obtain ⟨moved, hmoved, rfl⟩ := hsplits.of_shift
  obtain ⟨forms, hforms, hnode⟩ := h.brackets.of_shift
  obtain ⟨found, rfl, hfound⟩ := List.map_eq_singleton_iff.1 hnode
  have hparse : parse (String.ofList slice) = .ok [found] := by
    rw [← String.toList_ofList (l := slice)] at hblank hmoved
    exact parse_of_splits hblank hmoved hforms
  refine ⟨found, ?_, ?_⟩
  · rw [Reader.readOne, read, hparse]
    rfl
  · rw [h.span_eq]
    exact hfound

theorem divides_list {opening closing : Span} {inner : List Token}
    (h : Region text (.list items span) before slice after
      (⟨.opening, opening⟩ :: inner ++ [⟨.closing, closing⟩]))
    (hspan : span = ⟨opening.start, closing.stop⟩) (hitems : Brackets inner items) :
    Node.Divides (.list items span) slice := by
  have hwhole : span = ⟨byteLength before, byteLength (before ++ slice)⟩ := h.span_eq
  have hleads := h.leads
  subst hspan
  obtain ⟨hstart, hstop⟩ := Span.mk.inj hwhole
  obtain ⟨own, behind, rfl, hown, hbehind⟩ := hleads.cut_first hstart
  have hend : closing.stop = byteLength before + byteLength own + byteLength behind := by
    rw [hstop, byteLength_append, byteLength_append, Nat.add_assoc]
  obtain ⟨mid, own', rfl, hown', hmid⟩ := hbehind.cut_last hend
  cases hown
  cases hown'
  have hopening : 0 < byteLength ['('] := Nat.one_pos
  have hclosing : 0 < byteLength [')'] := Nat.one_pos
  rw [byteLength_append] at hend
  refine .list mid (fun item hitem => ?_) (hitems.pairwise hmid.pairwise)
  obtain ⟨⟨first, hfirst, hfirstStart⟩, last, hlast, hlastStop⟩ := hitems.span_mem hitem
  obtain ⟨hlower, -, -⟩ := hmid.span_bounds first hfirst
  obtain ⟨-, -, hupper⟩ := hmid.span_bounds last hlast
  dsimp only
  omega

theorem divides_prefixed {t : Trigger} {trigger : Span} {rest : List Token}
    (h : Region text (.form t.head [form] span) before slice after (⟨.trigger t, trigger⟩ :: rest))
    (hspan : span = ⟨trigger.start, form.span.stop⟩) (hform : Brackets rest [form]) :
    Node.Divides (.form t.head [form] span) slice := by
  have hwhole : span = ⟨byteLength before, byteLength (before ++ slice)⟩ := h.span_eq
  have hleads := h.leads
  subst hspan
  obtain ⟨hstart, -⟩ := Span.mk.inj hwhole
  obtain ⟨own, behind, rfl, hown, hbehind⟩ := hleads.cut_first hstart
  cases hown
  refine .prefixed t behind ?_ rfl
  obtain ⟨first, more, rfl, hfirst⟩ := hform.exists_first
  obtain ⟨hlower, -, -⟩ := hbehind.span_bounds first List.mem_cons_self
  rw [byteLength_trigger] at hlower
  dsimp only
  omega

theorem divides (h : Region text node before slice after tokens) : node.Divides slice := by
  cases node with
  | atom value span => exact .atom value span slice
  | list items span =>
    rcases h.brackets.list_cases with ⟨opening, closing, inner, rfl, hspan, hitems⟩ |
      ⟨t, trigger, rest, form, rfl, rfl, hspan, hform⟩
    · exact h.divides_list hspan hitems
    · exact h.divides_prefixed hspan hform

theorem readFrom (h : Region text node before slice after tokens) : node.ReadFrom slice :=
  ⟨h.ne_nil, h.readOne, h.divides⟩

/-- What stands in the text of a node has a slice of its own. -/
theorem of_written (h : Region text form before slice after tokens) (hnode : node.Written form) :
    ∃ before slice after tokens, Region text node before slice after tokens := by
  induction hnode generalizing before slice after tokens with
  | self => exact ⟨_, _, _, _, h⟩
  | @item items span item hitem hspan _ ih =>
    have hleads := h.leads
    rcases h.brackets.list_cases with ⟨opening, closing, inner, rfl, -, hitems⟩ |
      ⟨t, trigger, rest, form, rfl, rfl, -, hform⟩
    · obtain ⟨front, own, back, rfl, hown⟩ := hitems.mem_split hitem
      have hlist : Leads (byteLength before) slice
          (⟨.opening, opening⟩ :: front ++ own ++ (back ++ [⟨.closing, closing⟩])) after := by
        simpa using hleads
      obtain ⟨before', slice', after', hregion⟩ := exists_region h.text_eq hlist hown
      exact ih hregion
    · obtain rfl : item = form := by
        rcases List.mem_cons.1 hitem with rfl | hitem
        · exact absurd rfl hspan
        · exact List.mem_singleton.1 hitem
      have hprefixed : Leads (byteLength before) slice ([⟨.trigger t, trigger⟩] ++ rest ++ []) after := by
        simpa using hleads
      obtain ⟨before', slice', after', hregion⟩ := exists_region h.text_eq hprefixed hform
      exact ih hregion

end Region

/-- The forms of an accepted text stand one after another. Every node that stands in the text is
read from the characters at its span: there is at least one, they divide as the node does, and by
themselves they are read as the same node again, unless all of them are blank. -/
theorem nodes_read_from_slices {text : String} (h : parse text = .ok forms) :
    (forms.Pairwise fun a b => a.span.stop ≤ b.span.start) ∧
      ∀ form ∈ forms, ∀ node, Node.Written node form →
        ∃ before slice after : List Char, text.toList = before ++ slice ++ after ∧
          node.span = ⟨byteLength before, byteLength (before ++ slice)⟩ ∧ node.ReadFrom slice := by
  cases hblank : allBlank text.toList with
  | true =>
    rw [parse_of_allBlank hblank] at h
    cases h
    exact ⟨.nil, List.forall_mem_nil _⟩
  | false =>
    obtain ⟨tokens, hsplits, hforms⟩ := parse_splits hblank h
    refine ⟨hforms.pairwise hsplits.leads.pairwise, fun form hform node hnode => ?_⟩
    obtain ⟨front, own, back, rfl, hown⟩ := hforms.mem_split hform
    have htext : text.toList = [] ++ text.toList ++ [] := (List.append_nil _).symm
    obtain ⟨before, slice, after, hregion⟩ := exists_region htext hsplits.leads hown
    obtain ⟨before, slice, after, tokens, hregion⟩ := hregion.of_written hnode
    exact ⟨before, slice, after, hregion.text_eq, hregion.span_eq, hregion.readFrom⟩

theorem nodes_read_from_slices_quoted :
    let text := "é '(b \"\\n\");c"
    let items := Node.list [.symbol "b" ⟨5, 6⟩, .string "\n" ⟨7, 11⟩] ⟨4, 12⟩
    let quoted := Node.form "quote" [items] ⟨3, 12⟩
    parse text = .ok [.symbol "é" ⟨0, 2⟩, quoted] ∧ Node.Written items quoted ∧
      items.ReadFrom "(b \"\\n\")".toList := by
  intro text items quoted
  have hparse : parse text = .ok [.symbol "é" ⟨0, 2⟩, quoted] := by
    have htokens : scan text.toList = [⟨.word ['é'], 0, 2⟩, ⟨.trigger .quote, 3, 4⟩,
        ⟨.opening, 4, 5⟩, ⟨.word ['b'], 5, 6⟩, ⟨.string ['\\', 'n'], 7, 11⟩, ⟨.closing, 11, 12⟩] := by
      decide +kernel
    rw [parse, if_neg (by decide), htokens]
    rfl
  have hwritten : Node.Written items quoted :=
    .item (List.mem_cons_of_mem _ List.mem_cons_self) (by decide) .self
  obtain ⟨-, hnodes⟩ := nodes_read_from_slices hparse
  obtain ⟨before, slice, after, htext, hspan, hread⟩ :=
    hnodes quoted (List.mem_cons_of_mem _ List.mem_cons_self) items hwritten
  obtain ⟨hstart, hstop⟩ := Span.mk.inj hspan
  have hcut : ("é '".toList ++ "(b \"\\n\")".toList) ++ ";c".toList = before ++ slice ++ after := by
    rw [← htext]
    decide
  obtain ⟨hfront, -⟩ := append_inj_of_byteLength hcut hstop
  obtain ⟨-, rfl⟩ := append_inj_of_byteLength hfront hstart
  exact ⟨hparse, hwritten, hread⟩

end Reader

end MacroLisp
