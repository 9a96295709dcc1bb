import MacroLisp.Fault
import MacroLisp.Node

/-!
# Spans within a length

A node lies within a length if its own span and the spans of everything below it do. A copy of a
node at another span lies within a length that the other span lies within.
-/

namespace MacroLisp

namespace Span

def Within (n : Nat) (span : Span) : Prop := span.start ≤ n ∧ span.stop ≤ n

variable {n m : Nat} {a b : Span}

theorem Within.mono (h : a.Within n) (hnm : n ≤ m) : a.Within m :=
  ⟨Nat.le_trans h.1 hnm, Nat.le_trans h.2 hnm⟩

theorem within_join (ha : a.Within n) (hb : b.Within n) : (a.join b).Within n := by
  obtain ⟨ha, ha'⟩ := ha
  obtain ⟨hb, hb'⟩ := hb
  exact ⟨Nat.le_trans (Nat.min_le_left _ _) ha, Nat.max_le.2 ⟨ha', hb'⟩⟩

end Span

namespace Node

inductive Within (n : Nat) : Node → Prop where
  | atom {value : Atom} {span : Span} (h : span.Within n) : Within n (.atom value span)
  | list {items : List Node} {span : Span} (hitems : ∀ item ∈ items, Within n item)
      (h : span.Within n) : Within n (.list items span)

variable {n m : Nat} {node : Node} {s : Span}

@[simp] theorem within_list_iff {items : List Node} :
    (list items s).Within n ↔ (∀ item ∈ items, item.Within n) ∧ s.Within n :=
  ⟨fun | .list hitems h => ⟨hitems, h⟩, fun ⟨hitems, h⟩ => .list hitems h⟩

theorem Within.span (h : node.Within n) : node.span.Within n := by
  cases h with
  | atom h => exact h
  | list _ h => exact h

theorem Within.mono (h : node.Within n) (hnm : n ≤ m) : node.Within m := by
  induction h with
  | atom h => exact .atom (h.mono hnm)
  | list _ h ih => exact .list ih (h.mono hnm)

theorem Within.withSpan (h : node.Within n) (hs : s.Within n) :
    (node.withSpan s).Within n := by
  cases h with
  | atom _ => exact .atom hs
  | list hitems _ => exact .list hitems hs

theorem within_form {head : String} {args : List Node} (hargs : ∀ arg ∈ args, arg.Within n)
    (h : s.Within n) : (form head args s).Within n :=
  .list (List.forall_mem_cons.2 ⟨.atom h, hargs⟩) h

mutual

theorem within_collapse (h : s.Within n) : (node : Node) → (node.collapse s).Within n
  | atom _ _ => .atom h
  | list items _ => .list (within_collapseItems h items) h

theorem within_collapseItems (h : s.Within n) :
    (items : List Node) → ∀ item ∈ collapseItems s items, item.Within n
  | [] => fun _ hitem => by cases hitem
  | item :: items => List.forall_mem_cons.2 ⟨within_collapse h item, within_collapseItems h items⟩

end

theorem within_tailSpan {tail : List Node} (htail : ∀ item ∈ tail, item.Within n)
    (h : s.Within n) : (tailSpan tail s).Within n := by
  cases tail with
  | nil => exact ⟨h.2, h.2⟩
  | cons item items => exact ⟨(htail item List.mem_cons_self).span.1, h.2⟩

end Node

/-- A complaint of one of the given kinds at a span within the length. -/
def Complaint.Within (kinds : List FaultKind) (n : Nat) (c : Complaint) : Prop :=
  c.cause.kind ∈ kinds ∧ c.span.Within n

end MacroLisp
