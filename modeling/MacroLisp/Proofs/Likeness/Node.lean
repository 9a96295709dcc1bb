import MacroLisp.Builtin.Collection
import MacroLisp.Arguments
import MacroLisp.Proofs.Reader.Grammar
import MacroLisp.Store
import MacroLisp.Node
import Mathlib.Data.List.Forall2

/-!
# Like nodes

Two runs are compared whose stores need not have the same frames and closures at the same places,
and whose spans need not be the same. A `Likeness` says which places stand for each other, whether
spans and sources have to agree, and which names may occur. Like nodes have the same shape, print
the same, and are equal to like nodes at the same time: a node is a copy of the other one up to
what the likeness leaves open.
-/

namespace MacroLisp

open Token

structure Likeness where
  /-- Spans and sources are the same in both runs. -/
  located : Prop
  /-- The names that symbols and parameters may have. -/
  names : String → Prop
  frames : FrameId → FrameId → Prop
  closures : ClosureId → ClosureId → Prop
  unique : ∀ {i j i' j'}, closures i j → closures i' j' → (i = i' ↔ j = j')
  word : ∀ {run}, IsWord run → names (String.ofList run)
  rest : ∀ {name rest}, names name → Params.restName? name = some rest → rest ≠ "" → names rest

namespace Likeness

variable {L M N : Likeness}

/-- What is like for `L` is like for `M`. -/
structure Within (L M : Likeness) : Prop where
  located : M.located → L.located
  names : ∀ {name}, L.names name → M.names name
  frames : ∀ {i j}, L.frames i j → M.frames i j
  closures : ∀ {i j}, L.closures i j → M.closures i j

theorem Within.refl (L : Likeness) : L.Within L := ⟨id, id, id, id⟩

theorem Within.trans (h : L.Within M) (h' : M.Within N) : L.Within N where
  located := h.located ∘ h'.located
  names := h'.names ∘ h.names
  frames := h'.frames ∘ h.frames
  closures := h'.closures ∘ h.closures

/-- Spans or sources that are the same if they have to. -/
def Agree (L : Likeness) {α : Type} (a b : α) : Prop := L.located → a = b

theorem Agree.mono {α : Type} {a b : α} (hab : L.Agree a b) (h : L.Within M) : M.Agree a b :=
  hab ∘ h.located

theorem names_of_isWord {name : String} (h : IsWord name.toList) : L.names name := by
  have hname := L.word h
  rwa [String.ofList_toList] at hname

end Likeness

inductive Callable.Like (L : Likeness) : Callable → Callable → Prop where
  | primitive (p : Primitive) : Like L (.primitive p) (.primitive p)
  | closure {i j : ClosureId} (h : L.closures i j) : Like L (.closure i) (.closure j)

inductive Atom.Like (L : Likeness) : Atom → Atom → Prop where
  | nil : Like L .nil .nil
  | bool (b : Bool) : Like L (.bool b) (.bool b)
  | number (x : Float) : Like L (.number x) (.number x)
  | string (s : String) : Like L (.string s) (.string s)
  | symbol {name : String} (h : L.names name) : Like L (.symbol name) (.symbol name)
  | function {f g : Callable} (h : f.Like L g) : Like L (.function f) (.function g)
  | expander {f g : Callable} (h : f.Like L g) : Like L (.expander f) (.expander g)

-- Lists are compared through `zip`, since an induction on a nested `List.Forall₂` has nothing to say
-- of the items; `like_list_iff` is the same with `List.Forall₂`.
inductive Node.Like (L : Likeness) : Node → Node → Prop where
  | atom {value value' : Atom} {span span' : Span} (hvalue : value.Like L value')
      (hspan : L.Agree span span') : Like L (.atom value span) (.atom value' span')
  | list {items items' : List Node} {span span' : Span} (hlength : items.length = items'.length)
      (hitems : ∀ pair ∈ items.zip items', Like L pair.1 pair.2) (hspan : L.Agree span span') :
      Like L (.list items span) (.list items' span')

section Atoms

variable {L M : Likeness} {f g f' g' : Callable} {a b a' b' : Atom}

theorem Callable.Like.mono (h : f.Like L g) (hLM : L.Within M) : f.Like M g := by
  cases h with
  | primitive p => exact .primitive p
  | closure h => exact .closure (hLM.closures h)

theorem Callable.Like.name_eq (h : f.Like L g) : f.name = g.name := by
  cases h <;> rfl

/-- The places of closures stand for each other one to one, so identity is the same in both runs. -/
theorem Callable.Like.eq_iff (h : f.Like L g) (h' : f'.Like L g') : f = f' ↔ g = g' := by
  cases h <;> cases h'
  case closure.closure h _ _ h' => simpa using L.unique h h'
  all_goals simp

theorem Callable.Like.beq_eq (h : f.Like L g) (h' : f'.Like L g') : (f == f') = (g == g') := by
  rw [Bool.eq_iff_iff, beq_iff_eq, beq_iff_eq]
  exact h.eq_iff h'

theorem Atom.Like.mono (h : a.Like L b) (hLM : L.Within M) : a.Like M b := by
  cases h with
  | nil => exact .nil
  | bool b => exact .bool b
  | number x => exact .number x
  | string s => exact .string s
  | symbol h => exact .symbol (hLM.names h)
  | function h => exact .function (h.mono hLM)
  | expander h => exact .expander (h.mono hLM)

theorem Atom.Like.chars_eq (h : a.Like L b) : a.chars = b.chars := by
  cases h with
  | nil | bool | number | string | symbol => rfl
  | function h => exact congrArg (fun name : String => "<fn ".toList ++ name.toList ++ ['>']) h.name_eq
  | expander h =>
    exact congrArg (fun name : String => "<macro ".toList ++ name.toList ++ ['>']) h.name_eq

theorem Atom.Like.same_eq (h : a.Like L b) (h' : a'.Like L b') : a.same a' = b.same b' := by
  cases h with
  | nil | bool | number | string | symbol => cases h' <;> rfl
  | function h =>
    cases h' with
    | function h' => exact h.beq_eq h'
    | nil | bool | number | string | symbol | expander => rfl
  | expander h =>
    cases h' with
    | expander h' => exact h.beq_eq h'
    | nil | bool | number | string | symbol | function => rfl

end Atoms

namespace Node

variable {L M : Likeness} {m n m' n' : Node} {xs ys xs' ys' : List Node} {s t : Span}

theorem like_list_iff :
    (list xs s).Like L (list ys t) ↔ List.Forall₂ (Node.Like L) xs ys ∧ L.Agree s t := by
  rw [List.forall₂_iff_zip]
  constructor
  · rintro (_ | ⟨hlength, hitems, hspan⟩)
    exact ⟨⟨hlength, hitems _⟩, hspan⟩
  · rintro ⟨⟨hlength, hitems⟩, hspan⟩
    exact .list hlength (fun _ => hitems) hspan

theorem like_list (hitems : List.Forall₂ (Node.Like L) xs ys) (hspan : L.Agree s t) :
    (list xs s).Like L (list ys t) :=
  like_list_iff.2 ⟨hitems, hspan⟩

namespace Like

theorem mono (h : m.Like L n) (hLM : L.Within M) : m.Like M n := by
  induction h with
  | atom hvalue hspan => exact .atom (hvalue.mono hLM) (hspan.mono hLM)
  | list hlength _ hspan ih => exact .list hlength ih (hspan.mono hLM)

theorem all_mono (h : List.Forall₂ (Node.Like L) xs ys) (hLM : L.Within M) :
    List.Forall₂ (Node.Like M) xs ys :=
  h.imp fun _ _ hxy => hxy.mono hLM

theorem span (h : m.Like L n) : L.Agree m.span n.span := by
  cases h with
  | atom _ hspan | list _ _ hspan => exact hspan

theorem withSpan (h : m.Like L n) (hspan : L.Agree s t) :
    (m.withSpan s).Like L (n.withSpan t) := by
  cases h with
  | atom hvalue _ => exact .atom hvalue hspan
  | list hlength hitems _ => exact .list hlength hitems hspan

section Collapse

theorem collapseItems_left (h : List.Forall₂ (fun x y => (x.collapse s).Like L y) xs ys) :
    List.Forall₂ (Node.Like L) (collapseItems s xs) ys := by
  induction h with
  | nil => exact .nil
  | cons hxy _ ih => exact .cons hxy ih

theorem collapse_left (h : m.Like L n) (hspans : ¬ L.located) : (m.collapse s).Like L n := by
  induction h with
  | atom hvalue _ => exact .atom hvalue fun hlocated => absurd hlocated hspans
  | list hlength _ _ ih =>
    have hitems := collapseItems_left (List.forall₂_iff_zip.2 ⟨hlength, ih _⟩)
    exact like_list hitems fun hlocated => absurd hlocated hspans

end Collapse

section Printing

theorem itemChars_eq (h : List.Forall₂ (fun x y => x.chars = y.chars) xs ys) :
    itemChars xs = itemChars ys := by
  induction h with
  | nil => rfl
  | cons hxy hrest ih =>
    cases hrest with
    | nil => exact hxy
    | cons _ _ => rw [itemChars, itemChars, hxy, ih]

theorem chars_eq (h : m.Like L n) : m.chars = n.chars := by
  induction h with
  | atom hvalue _ => exact hvalue.chars_eq
  | list hlength _ _ ih =>
    have hitems := itemChars_eq (List.forall₂_iff_zip.2 ⟨hlength, ih _⟩)
    rw [chars, chars, hitems]

theorem pretty_eq (h : m.Like L n) : m.pretty = n.pretty := by
  rw [pretty, pretty, h.chars_eq]

end Printing

section Contents

theorem string?_eq (h : m.Like L n) : m.string? = n.string? := by
  cases h with
  | atom hvalue _ => cases hvalue <;> rfl
  | list => rfl

theorem symbol?_eq (h : m.Like L n) : m.symbol? = n.symbol? := by
  cases h with
  | atom hvalue _ => cases hvalue <;> rfl
  | list => rfl

theorem names_of_symbol? (h : m.Like L n) {name : String} (hname : m.symbol? = some name) :
    L.names name := by
  cases h with
  | list => cases hname
  | atom hvalue _ =>
    cases hvalue <;> cases hname
    assumption

theorem number?_eq (h : m.Like L n) : m.number? = n.number? := by
  cases h with
  | atom hvalue _ => cases hvalue <;> rfl
  | list => rfl

theorem items?_rel (h : m.Like L n) :
    Option.Rel (List.Forall₂ (Node.Like L)) m.items? n.items? := by
  cases h with
  | atom => exact .none
  | list hlength hitems _ => exact .some (List.forall₂_iff_zip.2 ⟨hlength, hitems _⟩)

theorem callable?_rel (h : m.Like L n) : Option.Rel (Callable.Like L) m.callable? n.callable? := by
  cases h with
  | list => exact .none
  | atom hvalue _ =>
    cases hvalue with
    | function h | expander h => exact .some h
    | nil | bool | number | string | symbol => exact .none

theorem isTruthy_eq (h : m.Like L n) : m.isTruthy = n.isTruthy := by
  cases h with
  | list => rfl
  | atom hvalue _ =>
    cases hvalue with
    | bool b => cases b <;> rfl
    | nil | number | string | symbol | function | expander => rfl

theorem isList_eq (h : m.Like L n) : m.isList = n.isList := by
  cases h <;> rfl

theorem isNil_eq (h : m.Like L n) : Builtin.isNil m = Builtin.isNil n := by
  cases h with
  | atom hvalue _ => cases hvalue <;> rfl
  | list => rfl

theorem size?_eq (h : m.Like L n) : Builtin.size? m = Builtin.size? n := by
  cases h with
  | atom hvalue _ => cases hvalue <;> rfl
  | list hlength => exact congrArg some hlength

theorem typeName_eq (h : m.Like L n) : m.typeName = n.typeName := by
  cases h with
  | atom hvalue _ => cases hvalue <;> rfl
  | list => rfl

theorem specialForm?_eq (h : m.Like L n) : m.specialForm? = n.specialForm? := by
  rw [specialForm?, specialForm?, h.symbol?_eq]

theorem display_eq (h : m.Like L n) : m.display = n.display := by
  rw [display, display, h.string?_eq, h.pretty_eq]

end Contents

section Equality

theorem sameAll_eq (hxs : List.Forall₂ (fun x y => ∀ {x' y'}, x'.Like L y' → x.same x' = y.same y') xs ys)
    (hxs' : List.Forall₂ (Node.Like L) xs' ys') : sameAll xs xs' = sameAll ys ys' := by
  induction hxs generalizing xs' ys' with
  | nil => cases hxs' <;> rfl
  | cons hxy _ ih =>
    cases hxs' with
    | nil => rfl
    | cons hxy' hrest' => rw [sameAll, sameAll, hxy hxy', ih hrest']

/-- Equality never sees what a likeness leaves open. -/
theorem same_eq (h : m.Like L n) (h' : m'.Like L n') : m.same m' = n.same n' := by
  induction h generalizing m' n' with
  | atom hvalue _ =>
    cases h' with
    | atom hvalue' _ => exact hvalue.same_eq hvalue'
    | list => rfl
  | list hlength _ _ ih =>
    cases h' with
    | atom => rfl
    | list hlength' hitems' _ =>
      exact sameAll_eq (List.forall₂_iff_zip.2 ⟨hlength, fun h => ih _ h⟩)
        (List.forall₂_iff_zip.2 ⟨hlength', hitems' _⟩)

theorem beq_eq (h : m.Like L n) (h' : m'.Like L n') : (m == m') = (n == n') := h.same_eq h'

end Equality

end Like

section Templates

theorem like_form {head : String} (hhead : L.names head) (hargs : List.Forall₂ (Node.Like L) xs ys)
    (hspan : L.Agree s t) : (form head xs s).Like L (form head ys t) :=
  like_list (.cons (.atom (.symbol hhead) hspan) hargs) hspan

theorem tailSpan_agree (h : List.Forall₂ (Node.Like L) xs ys) (hspan : L.Agree s t) :
    L.Agree (tailSpan xs s) (tailSpan ys t) := by
  intro hlocated
  obtain rfl := hspan hlocated
  cases h with
  | nil => rfl
  | cons hxy _ =>
    simp only [tailSpan, List.head?_cons, Option.map_some, Option.getD_some, hxy.span hlocated]

theorem rebuildItems_like
    (h : List.Forall₂ (fun x y => x.Like L y ∧ x.rebuild.Like L y.rebuild) xs ys)
    (hspan : L.Agree s t) : (rebuildItems xs s).Like L (rebuildItems ys t) := by
  have hquote : L.names "quote" := Likeness.names_of_isWord (isWord_of_all (by decide) (by decide))
  have hcons : L.names "cons" := Likeness.names_of_isWord (isWord_of_all (by decide) (by decide))
  induction h generalizing s t with
  | nil => exact like_form hquote (.cons (like_list .nil hspan) .nil) hspan
  | @cons x y xs ys hxy hrest ih =>
    have hlike : List.Forall₂ (Node.Like L) xs ys := hrest.imp fun _ _ h => h.1
    rw [rebuildItems, rebuildItems, hxy.1.symbol?_eq]
    split
    · cases hlike with
      | nil => exact .atom .nil hspan
      | cons hnext _ => exact hnext
    · have htail := ih (tailSpan_agree hlike hspan)
      exact like_form hcons (.cons hxy.2 (.cons htail .nil)) hspan

theorem Like.rebuild (h : m.Like L n) : m.rebuild.Like L n.rebuild := by
  have hquote : L.names "quote" := Likeness.names_of_isWord (isWord_of_all (by decide) (by decide))
  induction h with
  | atom hvalue hspan => exact like_form hquote (.cons (.atom hvalue hspan) .nil) hspan
  | list hlength hitems hspan ih =>
    exact rebuildItems_like (List.forall₂_iff_zip.2 ⟨hlength, fun h => ⟨hitems _ h, ih _ h⟩⟩) hspan

end Templates

end Node

end MacroLisp
