import MacroLisp.Number.Magnitude
import Mathlib

/-!
# The bits of a double

The magnitude of a double is finite if its exponent field is not full. A double is the one of its
own sign and magnitude. A finite double is equal to itself, and a zero is equal to either zero.
-/

-- The lemmas on `Float` that are used below are in none of Mathlib's own modules, but come with the
-- whole of it.

namespace MacroLisp.Number

open Float.Model UnpackedFloat

section Fields

variable (b : BitVec Format.binary64.numBits)

theorem toNat_unpackExponent : (unpackExponent b).toNat = b.toNat / 2 ^ 52 % 2 ^ 11 := by
  simp [unpackExponent, BitVec.extractLsb, Nat.shiftRight_eq_div_pow]

/-- The exponent field is full from the magnitude of infinity on. -/
theorem unpackExponent_eq_iff : unpackExponent b = -1#_ ↔ infinity ≤ b.toNat % 2 ^ 63 := by
  rw [← BitVec.toNat_inj, toNat_unpackExponent]
  have hfull : (-1#_ : BitVec Format.binary64.exponentBits).toNat = 2047 := by decide
  rw [hfull, infinity]
  generalize b.toNat = n
  omega

theorem isFinite_unpack_iff :
    (UnpackedFloat.unpack Format.binary64 b).isFinite = true ↔ b.toNat % 2 ^ 63 < infinity := by
  have hexponent := unpackExponent_eq_iff b
  unfold UnpackedFloat.unpack
  simp only
  split
  · next hfull =>
    have hlarge := hexponent.1 hfull
    split <;> simp only [UnpackedFloat.isFinite, Bool.false_eq_true, false_iff, Nat.not_lt] <;>
      exact hlarge
  · next hfull =>
    have hsmall := Nat.lt_of_not_le (mt hexponent.2 hfull)
    split
    · split <;> exact iff_of_true rfl hsmall
    · exact iff_of_true rfl hsmall

end Fields

section Doubles

variable (x : Float)

theorem isFinite_iff : x.isFinite = true ↔ magnitudeOf x < infinity :=
  isFinite_unpack_iff x.toBits.toBitVec

theorem ofMagnitude_magnitudeOf : ofMagnitude (isNegative x) (magnitudeOf x) = x := by
  have hlt : x.toBits.toNat < 2 ^ 64 := x.toBits.toNat_lt
  have hbits : (if isNegative x then 0x8000000000000000 + magnitudeOf x else magnitudeOf x) =
      x.toBits.toNat := by
    unfold isNegative magnitudeOf
    simp only [decide_eq_true_eq]
    split <;> omega
  rw [ofMagnitude, hbits, UInt64.ofNat_toNat, Float.ofBits_toBits]

variable {x}

theorem beq_self_of_isFinite (h : x.isFinite = true) : (x == x) = true := by
  refine Float.beq_self_iff.2 fun hnan => ?_
  rw [hnan] at h
  revert h
  decide +kernel

theorem zero_beq (h : magnitudeOf x = 0) : (ofMagnitude false 0 == x) = true := by
  have hx := ofMagnitude_magnitudeOf x
  rw [h] at hx
  rw [← hx]
  cases isNegative x <;> decide +kernel

end Doubles

end MacroLisp.Number
