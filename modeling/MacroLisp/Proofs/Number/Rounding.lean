import MacroLisp.Number.Decimal
import Mathlib.Tactic.Ring

/-!
# Rounding to the nearest double

Consecutive magnitudes are one gap apart, and the gap is the power of two by which the significand
is shifted. A fraction between two consecutive magnitudes is therefore shifted by the same number of
places as the lower of them, has the significand of the lower one as its quotient there, and is
rounded to one of the two: to the lower one up to the midpoint, and to the upper one from there, the
midpoint itself to the even one. So a decimal that lies between the midpoints around a magnitude is
read back as that magnitude, and what `shortest` finds is such a decimal.
-/

namespace MacroLisp.Number

/-- The distance from a magnitude to the next one, in units. -/
def gap (m : Nat) : Nat := 2 ^ (scaled m).shift

theorem gap_pos (m : Nat) : 0 < gap m := Nat.two_pow_pos _

theorem units_eq (m : Nat) : units m = gap m * (scaled m).significand := by
  rw [units, Scaled.units, Nat.shiftLeft_eq, Nat.mul_comm, gap]

theorem significand_lt (m : Nat) : (scaled m).significand < 2 ^ 53 := by
  unfold scaled
  split
  · assumption
  · simp only
    omega

theorem units_succ (m : Nat) : units (m + 1) = units m + gap m := by
  rw [units_eq, units_eq]
  unfold gap scaled
  by_cases hm : m + 1 < 0x20000000000000
  · have hm' : m < 0x20000000000000 := by omega
    simp only [if_pos hm, if_pos hm', Nat.pow_zero, Nat.one_mul]
  · by_cases hm' : m < 0x20000000000000
    · obtain rfl : m = 0x1FFFFFFFFFFFFF := by omega
      rfl
    · simp only [if_neg hm, if_neg hm']
      by_cases hcarry : m % 0x10000000000000 = 0xFFFFFFFFFFFFF
      · -- the significand is full, and the shift grows by one
        have hshift : (m + 1) / 0x10000000000000 - 1 = m / 0x10000000000000 - 1 + 1 := by omega
        have hmod : (m + 1) % 0x10000000000000 = 0 := by omega
        rw [hshift, hmod, hcarry, Nat.pow_succ]
        ring
      · have hshift : (m + 1) / 0x10000000000000 = m / 0x10000000000000 := by omega
        have hmod : (m + 1) % 0x10000000000000 = m % 0x10000000000000 + 1 := by omega
        rw [hshift, hmod]
        ring

theorem units_lt_succ (m : Nat) : units m < units (m + 1) := by
  rw [units_succ]
  exact Nat.lt_add_of_pos_right (gap_pos m)

theorem log2_sub_eq_shift {m count : Nat} (hlow : units m ≤ count) (hhigh : count < units (m + 1)) :
    count.log2 - 52 = (scaled m).shift := by
  have hsig := significand_lt m
  rw [units_succ, units_eq] at hhigh
  rw [units_eq] at hlow
  by_cases hshift : (scaled m).shift = 0
  · rw [gap, hshift, Nat.pow_zero, Nat.one_mul] at hhigh
    have hlog : count.log2 < 53 := by
      by_cases hcount : count = 0
      · simp [hcount]
      · exact (Nat.log2_lt hcount).2 (by omega)
    omega
  · have hmin := (scaled_shift_pos_significand hshift).1
    have hle : 2 ^ ((scaled m).shift + 52) ≤ count := by
      rw [Nat.pow_add]
      exact Nat.le_trans (Nat.mul_le_mul_left _ hmin) hlow
    have hlt : count < 2 ^ ((scaled m).shift + 52 + 1) := by
      rw [Nat.add_assoc, Nat.pow_add]
      refine Nat.lt_of_lt_of_le hhigh ?_
      rw [← Nat.mul_succ]
      exact Nat.mul_le_mul_left _ hsig
    have hcount : count ≠ 0 := fun h => by
      rw [h] at hle
      exact absurd hle (Nat.not_le.2 (Nat.two_pow_pos _))
    rw [(Nat.log2_eq_iff hcount).2 ⟨hle, hlt⟩]
    omega

theorem roundDiv_eq {num den quotient : Nat} (hlow : den * quotient ≤ num)
    (hhigh : num < den * (quotient + 1)) :
    roundDiv num den =
      if den * (2 * quotient + 1) < 2 * num ∨
          (den * (2 * quotient + 1) = 2 * num ∧ quotient % 2 = 1) then quotient + 1
      else quotient := by
  have hquotient : num / den = quotient :=
    Nat.div_eq_of_lt_le (by rwa [Nat.mul_comm]) (by rwa [Nat.mul_comm])
  have hrest : den * quotient + num % den = num := by
    rw [← hquotient]
    exact Nat.div_add_mod num den
  have hmid : den * (2 * quotient + 1) = 2 * (den * quotient) + den := by ring
  unfold roundDiv
  simp only [hquotient, hmid]
  split
  · rw [if_neg (by omega)]
  · split
    · rw [if_pos (by omega)]
    · split <;> omega

/-- Between two consecutive magnitudes, the midpoint decides, and at it the even magnitude is
taken. -/
theorem nearest_eq {num den m : Nat} (hden : 0 < den) (hlow : den * units m ≤ unitsInOne * num)
    (hhigh : unitsInOne * num < den * units (m + 1)) :
    nearest num den =
      if den * (units m + units (m + 1)) < 2 * (unitsInOne * num) ∨
          (den * (units m + units (m + 1)) = 2 * (unitsInOne * num) ∧ m % 2 = 1) then
        min infinity (m + 1)
      else min infinity m := by
  generalize hcount : unitsInOne * num = count at hlow hhigh
  have hshift : (count / den).log2 - 52 = (scaled m).shift :=
    log2_sub_eq_shift ((Nat.le_div_iff_mul_le hden).2 (by rwa [Nat.mul_comm]))
      ((Nat.div_lt_iff_lt_mul hden).2 (by rwa [Nat.mul_comm]))
  have hunits : den * units m = gap m * den * (scaled m).significand := by
    rw [units_eq]
    ring
  have hnext : den * units (m + 1) = gap m * den * ((scaled m).significand + 1) := by
    rw [units_succ, units_eq]
    ring
  -- the midpoint of the two magnitudes is the one between two multiples of the gap
  have hmid : den * (units m + units (m + 1)) =
      gap m * den * (2 * (scaled m).significand + 1) := by
    rw [Nat.mul_add, hunits, hnext]
    ring
  have hm := magnitude_scaled m
  unfold Scaled.magnitude at hm
  have hparity : m % 2 = (scaled m).significand % 2 := by omega
  unfold nearest
  have hgap : den <<< (scaled m).shift = gap m * den := by
    rw [Nat.shiftLeft_eq, Nat.mul_comm, gap]
  simp only [hcount, hshift, hgap]
  rw [hunits] at hlow
  rw [hnext] at hhigh
  rw [roundDiv_eq hlow hhigh, hmid, hparity]
  split
  · rw [Scaled.magnitude]
    congr 1
    simp only
    omega
  · rw [Scaled.magnitude]
    congr 1

namespace Decimal

theorem denominator_pos (d : Decimal) : 0 < d.denominator := Nat.pow_pos (by omega)

/-- The two midpoints, which belong to an even magnitude only. -/
theorem roundsTo_iff {d : Decimal} {m : Nat} :
    d.roundsTo m = true ↔
      d.denominator * (units (m - 1) + units m) ≤ 2 * (unitsInOne * d.numerator) ∧
        2 * (unitsInOne * d.numerator) ≤ d.denominator * (units m + units (m + 1)) ∧
        (m % 2 = 1 →
          d.denominator * (units (m - 1) + units m) ≠ 2 * (unitsInOne * d.numerator) ∧
            d.denominator * (units m + units (m + 1)) ≠ 2 * (unitsInOne * d.numerator)) := by
  have htwice : unitsInOne * (2 * d.numerator) = 2 * (unitsInOne * d.numerator) := by ring
  unfold roundsTo
  simp only [htwice]
  split
  · simp only [Bool.and_eq_true, decide_eq_true_eq]
    omega
  · simp only [Bool.and_eq_true, decide_eq_true_eq]
    omega

theorem toMagnitude_of_roundsTo {d : Decimal} {m : Nat} (hpos : 0 < m) (hfin : m < infinity)
    (h : d.roundsTo m = true) : d.toMagnitude = m := by
  have hden := d.denominator_pos
  obtain ⟨low, rfl⟩ : ∃ low, m = low + 1 := ⟨m - 1, by omega⟩
  obtain ⟨hlow, hhigh, hodd⟩ := roundsTo_iff.1 h
  simp only [Nat.add_sub_cancel] at hlow hodd
  have hstep := Nat.mul_lt_mul_of_pos_left (units_lt_succ low) hden
  have hstep' := Nat.mul_lt_mul_of_pos_left (units_lt_succ (low + 1)) hden
  have hsum := Nat.mul_add d.denominator (units low) (units (low + 1))
  have hsum' := Nat.mul_add d.denominator (units (low + 1)) (units (low + 1 + 1))
  unfold toMagnitude
  -- below the magnitude, the midpoint to its lower neighbour counts, and else the upper one
  by_cases hbelow : unitsInOne * d.numerator < d.denominator * units (low + 1)
  · rw [nearest_eq hden (by omega) hbelow, if_pos (by omega), Nat.min_eq_right (by omega)]
  · rw [nearest_eq hden (Nat.le_of_not_lt hbelow) (by omega), if_neg (by omega),
      Nat.min_eq_right (by omega)]

theorem roundsTo_exact {m : Nat} (hpos : 0 < m) : (exact m).roundsTo m = true := by
  have hvalue : unitsInOne * (exact m).numerator = (exact m).denominator * units m := by
    unfold numerator denominator exact unitsInOne
    generalize places = p
    have hup : (-(p : Int)).toNat = 0 := by omega
    have hdown : (- -(p : Int)).toNat = p := by omega
    simp only [hup, hdown, Nat.pow_eq, Nat.pow_zero, Nat.one_mul, Nat.one_shiftLeft]
    rw [← Nat.mul_assoc, ← Nat.mul_pow]
  have hden := (exact m).denominator_pos
  obtain ⟨low, rfl⟩ : ∃ low, m = low + 1 := ⟨m - 1, by omega⟩
  have hstep := Nat.mul_lt_mul_of_pos_left (units_lt_succ low) hden
  have hstep' := Nat.mul_lt_mul_of_pos_left (units_lt_succ (low + 1)) hden
  rw [roundsTo_iff, hvalue, Nat.add_sub_cancel, Nat.mul_add, Nat.mul_add]
  omega

theorem roundsTo_search (tie : TieBreak) {m : Nat} (hpos : 0 < m) (grids : Nat) (exponent : Int) :
    (search tie m grids exponent).roundsTo m = true := by
  induction grids generalizing exponent with
  | zero => exact roundsTo_exact hpos
  | succ grids ih =>
    rw [search]
    cases hgrid : onGrid? tie m exponent with
    | none => exact ih (exponent - 1)
    | some d => exact onGrid?_roundsTo hgrid

/-- The shortest decimal of a finite magnitude is read as that magnitude. -/
theorem toMagnitude_shortest (tie : TieBreak) {m : Nat} (hpos : 0 < m) (hfin : m < infinity) :
    (shortest tie m).toMagnitude = m :=
  toMagnitude_of_roundsTo hpos hfin (roundsTo_search tie hpos 18 _)

end Decimal

end MacroLisp.Number
