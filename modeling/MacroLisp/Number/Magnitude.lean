/-!
# Magnitudes of doubles

A double is a sign and a magnitude. The magnitudes, read as natural numbers, count the non-negative
doubles in increasing order: `0` is zero, `1` the least subnormal number, `infinity` comes after
the greatest finite one, and a larger number stands for no value at all. `units` is the value of a
magnitude as a multiple of the least subnormal number, `2 ^ 1074` of which make one. The great
constants are irreducible, so that no proof is tempted to compute with them.

`nearest num den` is the magnitude of the double nearest to the fraction `num / den`, a tie going
to the even neighbour, and `infinity` from half a step above the greatest finite double on.
`remainder x y` is what is left of `x` after taking away `y` a whole number of times, the quotient
truncated toward zero. It has the sign of `x` and is always exact, since both values are whole
numbers of units.
-/

namespace MacroLisp.Number

@[irreducible] def places : Nat := 1074

@[irreducible] def unitsInOne : Nat := 1 <<< places

/-- The magnitude of infinity: a full exponent field above an empty fraction. -/
def infinity : Nat := 0x7FF0000000000000

/-- A significand and the number of places by which it is shifted to the left. -/
structure Scaled where
  significand : Nat
  shift : Nat
deriving DecidableEq

namespace Scaled

def units (s : Scaled) : Nat := s.significand <<< s.shift

/-- The leading bit of a normal significand carries into the exponent field above it. -/
def magnitude (s : Scaled) : Nat := 0x10000000000000 * s.shift + s.significand

end Scaled

/-- Subnormal numbers and the first binade share the least exponent. -/
def scaled (magnitude : Nat) : Scaled :=
  if magnitude < 0x20000000000000 then ⟨magnitude, 0⟩
  else ⟨0x10000000000000 + magnitude % 0x10000000000000, magnitude / 0x10000000000000 - 1⟩

def units (magnitude : Nat) : Nat := (scaled magnitude).units

theorem magnitude_scaled (b : Nat) : (scaled b).magnitude = b := by
  unfold scaled
  split
  · simp [Scaled.magnitude]
  · simp only [Scaled.magnitude]
    omega

theorem scaled_shift_pos_significand {b : Nat} (h : (scaled b).shift ≠ 0) :
    0x10000000000000 ≤ (scaled b).significand ∧ (scaled b).significand < 0x20000000000000 := by
  unfold scaled at h ⊢
  split
  · simp_all
  · simp only
    omega

def magnitudeOf (x : Float) : Nat := x.toBits.toNat % 0x8000000000000000

def isNegative (x : Float) : Bool := 0x8000000000000000 ≤ x.toBits.toNat

def ofMagnitude (negative : Bool) (magnitude : Nat) : Float :=
  Float.ofBits (UInt64.ofNat (if negative then 0x8000000000000000 + magnitude else magnitude))

def roundDiv (num den : Nat) : Nat :=
  let quotient := num / den
  let twice := 2 * (num % den)
  if twice < den then quotient
  else if den < twice then quotient + 1
  else quotient + quotient % 2

/-- The fraction is counted in units, shifted until a significand of 53 bits is left, and rounded
there; a significand that rounds up to 54 bits carries into the shift. -/
def nearest (num den : Nat) : Nat :=
  let scaledUp := unitsInOne * num
  let shift := (scaledUp / den).log2 - 52
  min infinity (Scaled.magnitude ⟨roundDiv scaledUp (den <<< shift), shift⟩)

def ofUnits (negative : Bool) (count : Nat) : Float :=
  ofMagnitude negative (nearest count unitsInOne)

/-- There is none of an infinite number or by zero; dividing by infinity changes nothing. -/
def remainder (x y : Float) : Float :=
  let m := magnitudeOf x
  let n := magnitudeOf y
  if infinity ≤ m ∨ infinity < n ∨ n = 0 then ofMagnitude false (infinity + 1)
  else if n = infinity then x
  else ofUnits (isNegative x) (units m % units n)

end MacroLisp.Number
