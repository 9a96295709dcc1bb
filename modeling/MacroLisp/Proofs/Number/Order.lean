import Mathlib.Algebra.Order.Ring.Int
import Mathlib.Data.Nat.Cast.Order.Basic
import Mathlib.Data.Prod.Lex

/-!
# The order of doubles

Every double that is a number has a place in a linear order: the negative numbers, the zeros, which
share one place, the positive numbers, and an infinity at either end. Numbers are compared by their
places, and what is no number has none. So the comparisons of doubles are transitive.
-/

namespace MacroLisp.Number

open Float.Model UnpackedFloat

section Integers

theorem compare_cast (m n : ℕ) : compare (m : ℤ) n = compare m n := by
  rw [← cmp_eq_compare, ← cmp_eq_compare]
  exact Nat.strictMono_cast.cmp_map_eq m n

theorem compare_neg (a b : ℤ) : compare (-a) (-b) = (compare a b).swap := by
  have hanti : StrictAnti fun a : ℤ => -a := fun _ _ h => Int.neg_lt_neg h
  rw [← Std.OrientedOrd.eq_swap, ← cmp_eq_compare, ← cmp_eq_compare]
  exact hanti.cmp_map_eq a b

theorem compare_toLex {α β : Type} [LinearOrder α] [LinearOrder β] (a a' : α) (b b' : β) :
    compare (toLex (a, b)) (toLex (a', b')) = (compare a a').then (compare b b') := by
  rw [Prod.Lex.compare_def]
  rfl

end Integers

/-- Numbers of the same sort are compared by exponent and mantissa. -/
def place : UnpackedFloat → Option (ℤ ×ₗ ℤ ×ₗ ℤ)
  | .notANumber => none
  | .infinity .negative => some (toLex (-2, toLex (0, 0)))
  | .finite .negative mantissa exponent _ => some (toLex (-1, toLex (-exponent, -mantissa)))
  | .zero _ => some (toLex (0, toLex (0, 0)))
  | .finite .positive mantissa exponent _ => some (toLex (1, toLex (exponent, mantissa)))
  | .infinity .positive => some (toLex (2, toLex (0, 0)))

theorem compare_eq (a b : UnpackedFloat) :
    a.compare b = (place a).bind fun p => (place b).map fun q => compare p q := by
  rcases a with (_ | _) | _ | _ | ⟨_ | _, m, e, hm⟩ <;>
    rcases b with (_ | _) | _ | _ | ⟨_ | _, m', e', hm'⟩ <;>
    dsimp only [UnpackedFloat.compare, place, Option.bind_some, Option.map_some, Option.bind_none,
      Option.map_none] <;>
    try rw [compare_toLex, compare_toLex]
  case finite.negative.finite.negative =>
    rw [compare_neg, compare_neg e, compare_neg (m : ℤ), compare_cast, Ordering.swap_then]
    rfl
  case finite.positive.finite.positive =>
    rw [compare_cast]
    rfl
  -- any other two sorts differ in their first component, or have nothing else
  all_goals rfl

def placeOf (x : Float) : Option (ℤ ×ₗ ℤ ×ₗ ℤ) := place x.toModel.unpack

section Comparisons

variable {x y z : Float}

theorem lt_iff : x < y ↔ ∃ p q, placeOf x = some p ∧ placeOf y = some q ∧ p < q := by
  have hmodel : x < y ↔ x.toModel.unpack.lt y.toModel.unpack = true := by
    show Float.lt x y = true ↔ _
    rw [Float.lt, decide_eq_true_iff]
    exact Iff.rfl
  rw [hmodel, UnpackedFloat.lt, compare_eq]
  unfold placeOf
  cases place x.toModel.unpack <;> cases place y.toModel.unpack <;> simp [compare_lt_iff_lt]

theorem le_iff : x ≤ y ↔ ∃ p q, placeOf x = some p ∧ placeOf y = some q ∧ p ≤ q := by
  have hmodel : x ≤ y ↔ x.toModel.unpack.le y.toModel.unpack = true := by
    show Float.le x y = true ↔ _
    rw [Float.le, decide_eq_true_iff]
    exact Iff.rfl
  rw [hmodel, UnpackedFloat.le, compare_eq]
  unfold placeOf
  cases place x.toModel.unpack <;> cases place y.toModel.unpack <;> simp [Ordering.isLE_iff_ne_gt,
    compare_gt_iff_gt]

theorem lt_trans (h : x < y) (h' : y < z) : x < z := by
  obtain ⟨p, q, hx, hy, hlt⟩ := lt_iff.1 h
  obtain ⟨q', r, hy', hz, hlt'⟩ := lt_iff.1 h'
  obtain rfl : q = q' := Option.some.inj (hy.symm.trans hy')
  exact lt_iff.2 ⟨p, r, hx, hz, hlt.trans hlt'⟩

theorem le_trans (h : x ≤ y) (h' : y ≤ z) : x ≤ z := by
  obtain ⟨p, q, hx, hy, hle⟩ := le_iff.1 h
  obtain ⟨q', r, hy', hz, hle'⟩ := le_iff.1 h'
  obtain rfl : q = q' := Option.some.inj (hy.symm.trans hy')
  exact le_iff.2 ⟨p, r, hx, hz, hle.trans hle'⟩

end Comparisons

end MacroLisp.Number
