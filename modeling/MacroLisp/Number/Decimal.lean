import MacroLisp.Number.Magnitude

/-!
# Decimal notation of a double

`Decimal` is a natural number of digits scaled by a power of ten. `shortest` finds, for a positive
finite magnitude, the decimal with the fewest digits among those that round to it, and of these the
one nearest to it; which of two equally near ones is taken is a parameter. `toMagnitude` goes back.
-/

namespace MacroLisp.Number

/-- The value `digits * 10 ^ exponent`. -/
structure Decimal where
  digits : Nat
  exponent : Int
deriving DecidableEq

inductive TieBreak where
  | up
  | toEven

namespace Decimal

def numerator (d : Decimal) : Nat := Nat.pow 10 d.exponent.toNat * d.digits

def denominator (d : Decimal) : Nat := Nat.pow 10 (-d.exponent).toNat

def toMagnitude (d : Decimal) : Nat := nearest d.numerator d.denominator

/-- The decimal lies between the midpoints to the two neighbours of the magnitude; the midpoints
themselves belong to an even magnitude. -/
def roundsTo (d : Decimal) (magnitude : Nat) : Bool :=
  let low := d.denominator * (units (magnitude - 1) + units magnitude)
  let high := d.denominator * (units magnitude + units (magnitude + 1))
  let twice := unitsInOne * (2 * d.numerator)
  if magnitude % 2 = 0 then low ≤ twice && twice ≤ high else low < twice && twice < high

/-- The greatest multiple of `10 ^ exponent` that is not above the magnitude. -/
def floorAt (magnitude : Nat) (exponent : Int) : Decimal :=
  ⟨Nat.pow 10 (-exponent).toNat * units magnitude / (unitsInOne * Nat.pow 10 exponent.toNat),
    exponent⟩

def compareMidpoint (magnitude : Nat) (d : Decimal) : Ordering :=
  compare (d.denominator * (2 * units magnitude))
    (unitsInOne * (Nat.pow 10 d.exponent.toNat * (2 * d.digits + 1)))

def nearer (tie : TieBreak) (magnitude : Nat) (low high : Decimal) : Decimal :=
  match compareMidpoint magnitude low, tie with
  | .lt, _ => low
  | .gt, _ => high
  | .eq, .up => high
  | .eq, .toEven => if low.digits % 2 = 0 then low else high

/-- The nearer of the two neighbours on the grid of `10 ^ exponent` that round to the magnitude. -/
def onGrid? (tie : TieBreak) (magnitude : Nat) (exponent : Int) : Option Decimal :=
  let low := floorAt magnitude exponent
  let high : Decimal := ⟨low.digits + 1, exponent⟩
  if low.roundsTo magnitude then
    some (if high.roundsTo magnitude then nearer tie magnitude low high else low)
  else if high.roundsTo magnitude then some high
  else none

def exact (magnitude : Nat) : Decimal := ⟨Nat.pow 5 places * units magnitude, -places⟩

def search (tie : TieBreak) (magnitude : Nat) : Nat → Int → Decimal
  | 0, _ => exact magnitude
  | grids + 1, exponent =>
    (onGrid? tie magnitude exponent).getD (search tie magnitude grids (exponent - 1))

/-- Every positive magnitude is above `1 / 10 ^ headroom`. -/
@[irreducible] def headroom : Nat := 342

def ceilingExponent (magnitude : Nat) : Int :=
  (Nat.toDigits 10 (Nat.pow 10 headroom * units magnitude / unitsInOne)).length - headroom

/-- Seventeen digits tell any two doubles apart, so eighteen grids suffice. -/
def shortest (tie : TieBreak) (magnitude : Nat) : Decimal :=
  search tie magnitude 18 (ceilingExponent magnitude)

theorem nearer_eq_or (tie : TieBreak) (magnitude : Nat) (low high : Decimal) :
    nearer tie magnitude low high = low ∨ nearer tie magnitude low high = high := by
  unfold nearer
  split
  · exact .inl rfl
  · exact .inr rfl
  · exact .inr rfl
  · by_cases h : low.digits % 2 = 0
    · exact .inl (if_pos h)
    · exact .inr (if_neg h)

theorem onGrid?_roundsTo {tie : TieBreak} {magnitude : Nat} {exponent : Int} {d : Decimal}
    (h : onGrid? tie magnitude exponent = some d) : d.roundsTo magnitude = true := by
  simp only [onGrid?] at h
  split at h
  · split at h
    · cases h
      rcases nearer_eq_or tie magnitude (floorAt magnitude exponent)
        ⟨(floorAt magnitude exponent).digits + 1, exponent⟩ with he | he <;> rw [he] <;> assumption
    · cases h
      assumption
  · split at h
    · cases h
      assumption
    · simp at h

end Decimal

end MacroLisp.Number
