import MacroLisp.Evaluation.Primitives
import MacroLisp.Proofs.Number.Bits
import MacroLisp.Proofs.Number.Order

/-!
# Comparisons of several values

A chain of comparisons says something of each value and the next. Since the equality of nodes and
the orders of numbers are transitive, it says the same of every value and all that come after it.
`Node.Equal` is equality by structure: spans do not matter, a NaN is equal to nothing, the two zeros
are equal, and callables are equal only to themselves.
-/

namespace MacroLisp

inductive Atom.Equal : Atom → Atom → Prop where
  | nil : Equal .nil .nil
  | bool (value : Bool) : Equal (.bool value) (.bool value)
  | number {x : Float} (h : x.isNaN = false) : Equal (.number x) (.number x)
  | zero {x y : Float} (hx : x = 0 ∨ x = -0) (hy : y = 0 ∨ y = -0) : Equal (.number x) (.number y)
  | string (value : String) : Equal (.string value) (.string value)
  | symbol (name : String) : Equal (.symbol name) (.symbol name)
  | function (callable : Callable) : Equal (.function callable) (.function callable)
  | expander (callable : Callable) : Equal (.expander callable) (.expander callable)

inductive Node.Equal : Node → Node → Prop where
  | atom {a b : Atom} (h : a.Equal b) (span span' : Span) : Equal (.atom a span) (.atom b span')
  | list {xs ys : List Node} (h : List.Forall₂ Equal xs ys) (span span' : Span) :
      Equal (.list xs span) (.list ys span')

/-- A NaN is the value or somewhere among its items. -/
inductive Node.HasNaN : Node → Prop where
  | here {x : Float} (h : x.isNaN = true) (span : Span) : HasNaN (.number x span)
  | item {items : List Node} {item : Node} (hitem : item ∈ items) (h : HasNaN item) (span : Span) :
      HasNaN (.list items span)

namespace Atom

variable {a b c : Atom}

theorem number_same_iff {x y : Float} :
    (number x).same (number y) = true ↔ (number x).Equal (number y) := by
  rw [same, Float.beq_iff_ne_nan_and_eq]
  constructor
  · rintro ⟨hx, -, rfl | ⟨rfl, rfl⟩ | ⟨rfl, rfl⟩⟩
    · exact .number (by rw [Float.isNaN_eq_decide_eq_nan, decide_eq_false hx])
    · exact .zero (Or.inl rfl) (Or.inr rfl)
    · exact .zero (Or.inr rfl) (Or.inl rfl)
  · intro h
    have hzero : (0 : Float) ≠ Float.nan ∧ (-0 : Float) ≠ Float.nan := by decide +kernel
    cases h with
    | number h =>
      rw [Float.isNaN_eq_decide_eq_nan, decide_eq_false_iff_not] at h
      exact ⟨h, h, Or.inl rfl⟩
    | zero hx hy =>
      rcases hx with rfl | rfl <;> rcases hy with rfl | rfl <;> simp [hzero]

theorem same_iff : a.same b = true ↔ a.Equal b := by
  constructor
  · intro h
    cases a <;> cases b <;> simp only [same, beq_iff_eq, Bool.false_eq_true] at h
    case nil.nil => exact .nil
    case bool.bool => exact h ▸ .bool _
    case number.number => exact number_same_iff.1 h
    case string.string => exact h ▸ .string _
    case symbol.symbol => exact h ▸ .symbol _
    case function.function => exact h ▸ .function _
    case expander.expander => exact h ▸ .expander _
  · intro h
    cases h with
    | number h => exact number_same_iff.2 (.number h)
    | zero hx hy => exact number_same_iff.2 (.zero hx hy)
    | _ => simp only [same, beq_self_eq_true]

theorem Equal.symm (h : a.Equal b) : b.Equal a := by
  cases h with
  | zero hx hy => exact .zero hy hx
  | number h => exact .number h
  | _ => constructor

theorem Equal.trans (h : a.Equal b) (h' : b.Equal c) : a.Equal c := by
  cases h with
  | zero hx hy =>
    cases h' with
    | number => exact .zero hx hy
    | zero _ hz => exact .zero hx hz
  | _ => exact h'

theorem equal_self_iff : a.Equal a ↔ ¬ ∃ x, a = .number x ∧ x.isNaN = true := by
  constructor
  · rintro h ⟨x, rfl, hnan⟩
    cases h with
    | number h => exact absurd (h ▸ hnan) Bool.false_ne_true
    | zero hx =>
      revert hnan
      rcases hx with rfl | rfl <;> decide +kernel
  · intro h
    cases a with
    | number x => exact .number (by simpa using h)
    | _ => constructor

end Atom

namespace Node

mutual

theorem same_iff (x y : Node) : x.same y = true ↔ x.Equal y :=
  match x, y with
  | .atom _ span, .atom _ span' =>
    Atom.same_iff.trans ⟨fun h => .atom h span span', fun h => by cases h; assumption⟩
  | .list xs span, .list ys span' =>
    (sameAll_iff xs ys).trans ⟨fun h => .list h span span', fun h => by cases h; assumption⟩
  | .atom _ _, .list _ _ | .list _ _, .atom _ _ =>
    iff_of_false Bool.false_ne_true fun h => by cases h

theorem sameAll_iff (xs ys : List Node) : sameAll xs ys = true ↔ List.Forall₂ Equal xs ys :=
  match xs, ys with
  | [], [] => iff_of_true rfl .nil
  | x :: xs, y :: ys => by
    rw [sameAll, Bool.and_eq_true, same_iff x y, sameAll_iff xs ys, List.forall₂_cons]
  | [], _ :: _ | _ :: _, [] => iff_of_false Bool.false_ne_true fun h => by cases h

end

theorem beq_iff {x y : Node} : (x == y) = true ↔ x.Equal y := same_iff x y

mutual

theorem Equal.symm {x y : Node} (h : x.Equal y) : y.Equal x :=
  match x, y, h with
  | _, _, .atom h span span' => .atom h.symm span' span
  | _, _, .list h span span' => .list (equal_items_symm h) span' span

theorem equal_items_symm {xs ys : List Node} (h : List.Forall₂ Equal xs ys) :
    List.Forall₂ Equal ys xs :=
  match xs, ys, h with
  | _, _, .nil => .nil
  | _, _, .cons h hs => .cons h.symm (equal_items_symm hs)

end

mutual

theorem Equal.trans {x y z : Node} (h : x.Equal y) (h' : y.Equal z) : x.Equal z :=
  match x, y, z, h, h' with
  | _, _, _, .atom h span _, .atom h' _ span' => .atom (h.trans h') span span'
  | _, _, _, .list h span _, .list h' _ span' => .list (equal_items_trans h h') span span'

theorem equal_items_trans {xs ys zs : List Node} (h : List.Forall₂ Equal xs ys)
    (h' : List.Forall₂ Equal ys zs) : List.Forall₂ Equal xs zs :=
  match xs, ys, zs, h, h' with
  | _, _, _, .nil, .nil => .nil
  | _, _, _, .cons h hs, .cons h' hs' => .cons (h.trans h') (equal_items_trans hs hs')

end

theorem hasNaN_atom_iff {a : Atom} {span : Span} :
    (atom a span).HasNaN ↔ ∃ x, a = .number x ∧ x.isNaN = true := by
  constructor
  · intro h
    cases h with
    | here h => exact ⟨_, rfl, h⟩
  · rintro ⟨x, rfl, h⟩
    exact .here h span

theorem hasNaN_list_iff {items : List Node} {span : Span} :
    (list items span).HasNaN ↔ ∃ item ∈ items, item.HasNaN := by
  constructor
  · intro h
    cases h with
    | item hitem h => exact ⟨_, hitem, h⟩
  · rintro ⟨item, hitem, h⟩
    exact .item hitem h span

mutual

theorem equal_self_iff (x : Node) : x.Equal x ↔ ¬ x.HasNaN :=
  match x with
  | .atom a span => by
    rw [hasNaN_atom_iff, ← Atom.equal_self_iff]
    exact ⟨fun h => by cases h; assumption, fun h => .atom h span span⟩
  | .list items span => by
    rw [hasNaN_list_iff, ← items_equal_self_iff items]
    exact ⟨fun h => by cases h; assumption, fun h => .list h span span⟩

theorem items_equal_self_iff (items : List Node) :
    List.Forall₂ Equal items items ↔ ¬ ∃ item ∈ items, item.HasNaN :=
  match items with
  | [] => iff_of_true .nil fun ⟨_, h, _⟩ => List.not_mem_nil h
  | item :: items => by
    rw [List.forall₂_cons, equal_self_iff item, items_equal_self_iff items, List.exists_mem_cons_iff,
      not_or]

end

theorem expectNumbers_map (callee : String) (numbers : List (Float × Span)) :
    expectNumbers callee (numbers.map fun n => number n.1 n.2) = .ok (numbers.map (·.1)) := by
  unfold expectNumbers
  induction numbers with
  | nil => rfl
  | cons n numbers ih =>
    rw [List.map_cons, List.mapM_cons, ih]
    rfl

end Node

namespace Builtin

variable {α β : Type}

theorem chained_map (holds : β → β → Bool) (f : α → β) (xs : List α) :
    chained holds (xs.map f) = chained (fun a b => holds (f a) (f b)) xs := by
  fun_induction chained (fun a b => holds (f a) (f b)) xs with
  | case1 x y rest ih => rw [← ih]; rfl
  | case2 xs hshort =>
    match xs, hshort with
    | [], _ | [_], _ => rfl
    | x :: y :: rest, hshort => exact absurd rfl (hshort x y rest)

/-- A chain of a transitive relation holds between each element and all later ones. -/
theorem chained_iff_pairwise {holds : α → α → Bool} {R : α → α → Prop} [IsTrans α R]
    (h : ∀ a b, holds a b = true ↔ R a b) (xs : List α) :
    chained holds xs = true ↔ xs.Pairwise R := by
  rw [← List.isChain_iff_pairwise]
  fun_induction chained holds xs with
  | case1 x y rest ih => rw [Bool.and_eq_true, h, ih, List.isChain_cons_cons]
  | case2 xs hshort =>
    match xs, hshort with
    | [], _ => exact iff_of_true rfl .nil
    | [x], _ => exact iff_of_true rfl (.singleton x)
    | x :: y :: rest, hshort => exact absurd rfl (hshort x y rest)

end Builtin

/-- Of two or more values, the primitive says whether the relation holds between each of them and
all later ones, and it does nothing else. -/
def Primitive.Tests {α : Type} (p : Primitive) (value : α → Node) (R : α → α → Prop) : Prop :=
  ∀ ev scope call s a b rest, ∃ answer,
    p.apply ev ((a :: b :: rest).map value) scope call s = (.value (.bool answer call), s) ∧
      (answer = true ↔ (a :: b :: rest).Pairwise R)

theorem equal_tests : Primitive.equal.Tests id Node.Equal := by
  intro ev scope call s a b rest
  have : IsTrans Node Node.Equal := ⟨fun _ _ _ => Node.Equal.trans⟩
  refine ⟨_, rfl, ?_⟩
  rw [List.map_id]
  exact Builtin.chained_iff_pairwise (fun _ _ => Node.beq_iff) _

def numberAt (n : Float × Span) : Node := .number n.1 n.2

theorem order_tests {p : Primitive} {name : String} {holds : Float → Float → Bool}
    {R : Float → Float → Prop} (hp : p.operation = .onValues (Builtin.compareNumbers name holds))
    (h : ∀ x y, holds x y = true ↔ R x y) (htrans : ∀ x y z, R x y → R y z → R x z) :
    p.Tests numberAt fun m n : Float × Span => R m.1 n.1 := by
  intro ev scope call s a b rest
  have : IsTrans (Float × Span) fun m n => R m.1 n.1 := ⟨fun _ _ _ => htrans _ _ _⟩
  refine ⟨Builtin.chained holds ((a :: b :: rest).map (·.1)), ?_, ?_⟩
  · have hcount : (Arity.atLeast 2).check name ((a :: b :: rest).map numberAt) call = .ok () :=
      if_pos (Arity.accepts_atLeast_iff.2 (by simp))
    have hnumbers : Node.expectNumbers name ((a :: b :: rest).map numberAt) =
        .ok ((a :: b :: rest).map (·.1)) := Node.expectNumbers_map name (a :: b :: rest)
    rw [Primitive.apply, hp]
    simp only [Builtin.compareNumbers, hcount, hnumbers]
    rfl
  · rw [Builtin.chained_map]
    exact Builtin.chained_iff_pairwise (fun m n : Float × Span => h m.1 n.1) _

/-- Of two or more values, `=` says whether every two are equal, and of two or more numbers, an
order comparison says whether it holds between every earlier and every later one. Equality is
symmetric and transitive, and a value is equal to itself unless there is a NaN in it. -/
theorem comparisons_mean_all_pairs :
    Primitive.equal.Tests id Node.Equal ∧
    Primitive.less.Tests numberAt (·.1 < ·.1) ∧
    Primitive.greater.Tests numberAt (·.1 > ·.1) ∧
    Primitive.lessEqual.Tests numberAt (·.1 ≤ ·.1) ∧
    Primitive.greaterEqual.Tests numberAt (·.1 ≥ ·.1) ∧
    (∀ x y : Node, (x == y) = true ↔ x.Equal y) ∧
    (∀ x y : Node, x.Equal y → y.Equal x) ∧
    (∀ x y z : Node, x.Equal y → y.Equal z → x.Equal z) ∧
    ∀ x : Node, x.Equal x ↔ ¬ x.HasNaN :=
  ⟨equal_tests,
    order_tests rfl (fun _ _ => decide_eq_true_iff) fun _ _ _ => Number.lt_trans,
    order_tests rfl (fun _ _ => decide_eq_true_iff) fun _ _ _ h h' => Number.lt_trans h' h,
    order_tests rfl (fun _ _ => decide_eq_true_iff) fun _ _ _ => Number.le_trans,
    order_tests rfl (fun _ _ => decide_eq_true_iff) fun _ _ _ h h' => Number.le_trans h' h,
    fun _ _ => Node.beq_iff, fun _ _ => Node.Equal.symm, fun _ _ _ => Node.Equal.trans,
    Node.equal_self_iff⟩

theorem comparisons_mean_all_pairs_zeros :
    let p : Span := ⟨0, 0⟩
    let expander := Node.atom (.expander (.closure 3)) p
    let a := Node.list [.number 0 p, expander] ⟨1, 5⟩
    let b := Node.list [.number (-0) p, expander] p
    a.Equal b ∧ b.Equal a ∧ a.Equal a ∧
      ∀ ev scope s, Primitive.equal.apply ev [a, b, a] scope p s = (.value (.bool true p), s) := by
  intro p expander a b
  obtain ⟨hequal, -, -, -, -, -, hsymm, htrans, -⟩ := comparisons_mean_all_pairs
  have hab : a.Equal b :=
    .list (.cons (.atom (.zero (Or.inl rfl) (Or.inr rfl)) p p)
      (.cons (.atom (.expander _) p p) .nil)) _ _
  have hba : b.Equal a := hsymm a b hab
  have haa : a.Equal a := htrans a b a hab hba
  refine ⟨hab, hba, haa, fun ev scope s => ?_⟩
  obtain ⟨answer, hanswer, hpairs⟩ := hequal ev scope p s a b [a]
  have htrue : answer = true := hpairs.2 (by simp [hab, hba, haa])
  rw [← htrue]
  exact hanswer

end MacroLisp
