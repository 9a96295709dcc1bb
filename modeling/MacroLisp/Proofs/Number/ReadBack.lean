import MacroLisp.Number.Notation
import MacroLisp.Proofs.Number.Bits
import MacroLisp.Proofs.Number.Rounding
import Mathlib.Data.List.TakeWhile

/-!
# Written numbers are read back

A number is printed as digits with a point somewhere in them, filled up with zeros on either side.
As a literal these digits are the numerator of the shortest decimal, and as many of them as stand
behind the point make up its denominator. So a literal reads the decimal that was printed, and that
is read as the number.

`IsLiteral` says which texts are number literals, without reading them.
-/

namespace MacroLisp.Number

abbrev AllDigits (cs : List Char) : Prop := ∀ c ∈ cs, c.isDigit = true

def IsUnsigned (cs : List Char) : Prop :=
  ∃ whole fraction, whole ≠ [] ∧ AllDigits whole ∧ AllDigits fraction ∧
    cs = joinFraction (whole, fraction)

/-- The text spells a number: `-?digits(.digits)?`. -/
def IsLiteral (cs : List Char) : Prop :=
  IsUnsigned cs ∨ ∃ unsigned, IsUnsigned unsigned ∧ cs = '-' :: unsigned

section Parts

variable {whole fraction : List Char}

theorem joinFraction_cons (c : Char) (cs : List Char) :
    joinFraction (whole, c :: cs) = whole ++ '.' :: c :: cs := rfl

theorem literalParts?_joinFraction (hne : whole ≠ []) (hwhole : AllDigits whole)
    (hfraction : AllDigits fraction) :
    literalParts? (joinFraction (whole, fraction)) = some (whole, fraction) := by
  have hempty : whole.isEmpty = false := by
    cases whole with
    | nil => exact absurd rfl hne
    | cons c cs => rfl
  cases fraction with
  | nil =>
    have htake : whole.takeWhile Char.isDigit = whole := List.takeWhile_eq_self_iff.2 hwhole
    have hdrop : whole.dropWhile Char.isDigit = [] := List.dropWhile_eq_nil_iff.2 hwhole
    simp only [joinFraction, literalParts?, htake, hdrop, hempty, Bool.false_eq_true, if_false]
  | cons c cs =>
    have htake : (whole ++ '.' :: c :: cs).takeWhile Char.isDigit = whole := by
      rw [List.takeWhile_append_of_pos hwhole, List.takeWhile_cons_of_neg (by decide),
        List.append_nil]
    have hdrop : (whole ++ '.' :: c :: cs).dropWhile Char.isDigit = '.' :: c :: cs := by
      rw [List.dropWhile_append_of_pos hwhole, List.dropWhile_cons_of_neg (by decide)]
    have hall : (c :: cs).all Char.isDigit = true := List.all_eq_true.2 hfraction
    rw [joinFraction_cons, literalParts?]
    simp only [htake, hdrop, hempty, hall, List.isEmpty_cons, Bool.false_eq_true, if_false,
      Bool.not_true, Bool.or_self]

theorem isUnsigned_of_literalParts? {cs : List Char}
    (h : literalParts? cs = some (whole, fraction)) : IsUnsigned cs := by
  have hcs : cs.takeWhile Char.isDigit ++ cs.dropWhile Char.isDigit = cs :=
    List.takeWhile_append_dropWhile
  have hdigits : AllDigits (cs.takeWhile Char.isDigit) := fun _ => List.mem_takeWhile_imp
  cases hempty : (cs.takeWhile Char.isDigit).isEmpty with
  | true =>
    simp only [literalParts?, hempty, if_true] at h
    cases h
  | false =>
    have hne : cs.takeWhile Char.isDigit ≠ [] := fun hnil => by simp [hnil] at hempty
    simp only [literalParts?, hempty, Bool.false_eq_true, if_false] at h
    split at h
    · next hdrop =>
      rw [hdrop, List.append_nil] at hcs
      exact ⟨_, [], hne, hdigits, fun _ hc => absurd hc List.not_mem_nil, hcs.symm⟩
    · next rest hdrop =>
      rw [hdrop] at hcs
      cases rest with
      | nil => cases h
      | cons c rest =>
        cases hrest : (c :: rest).all Char.isDigit with
        | true => exact ⟨_, c :: rest, hne, hdigits, List.all_eq_true.1 hrest, hcs.symm⟩
        | false =>
          simp only [hrest, Bool.not_false, Bool.or_true, if_true] at h
          cases h
    · cases h

end Parts

theorem isUnsigned_of_unsigned? {cs : List Char} {m : Nat} (h : unsigned? cs = some m) :
    IsUnsigned cs := by
  obtain ⟨parts, hparts, -⟩ := Option.map_eq_some_iff.1 h
  exact isUnsigned_of_literalParts? hparts

theorem isLiteral_of_ofLiteral? {cs : List Char} {x : Float} (h : ofLiteral? cs = some x) :
    IsLiteral cs := by
  unfold ofLiteral? at h
  split at h
  · obtain ⟨m, hm, -⟩ := Option.map_eq_some_iff.1 h
    exact Or.inr ⟨_, isUnsigned_of_unsigned? hm, rfl⟩
  · obtain ⟨m, hm, -⟩ := Option.map_eq_some_iff.1 h
    exact Or.inl (isUnsigned_of_unsigned? hm)

theorem ofLiteral?_eq_none {cs : List Char} (h : ¬ IsLiteral cs) : ofLiteral? cs = none := by
  cases hread : ofLiteral? cs with
  | none => rfl
  | some x => exact absurd (isLiteral_of_ofLiteral? hread) h

section Digits

theorem ofDigits_eq (cs : List Char) : ofDigits cs = Nat.ofDigitChars 10 cs 0 := rfl

theorem ofDigits_zeros_append (count : Nat) (cs : List Char) :
    ofDigits (List.replicate count '0' ++ cs) = ofDigits cs := by
  rw [ofDigits_eq, Nat.ofDigitChars_append, Nat.ofDigitChars_replicate_zero, Nat.mul_zero]
  rfl

theorem ofDigits_digitChars_zeros (n count : Nat) :
    ofDigits (digitChars n ++ List.replicate count '0') = 10 ^ count * n := by
  rw [ofDigits_eq, Nat.ofDigitChars_append, Nat.ofDigitChars_replicate_zero, digitChars,
    Nat.ofDigitChars_ten_toDigits]

theorem allDigits_digitChars (n : Nat) : AllDigits (digitChars n) :=
  fun _ hc => Nat.isDigit_of_mem_toDigits (by decide) (by decide) hc

theorem allDigits_zeros (count : Nat) : AllDigits (List.replicate count '0') := by
  intro c hc
  rw [List.eq_of_mem_replicate hc]
  decide

theorem AllDigits.append {cs ds : List Char} (hcs : AllDigits cs) (hds : AllDigits ds) :
    AllDigits (cs ++ ds) :=
  fun c hc => (List.mem_append.1 hc).elim (hcs c) (hds c)

/-- The printed digits of a decimal are those of its numerator, with the places of its denominator
behind the point. -/
theorem positional_parts (d : Decimal) {whole fraction : List Char}
    (h : positional (digitChars d.digits) d.point = (whole, fraction)) :
    whole ≠ [] ∧ AllDigits whole ∧ AllDigits fraction ∧
      ofDigits (whole ++ fraction) = d.numerator ∧
        Nat.pow 10 fraction.length = d.denominator := by
  have hlength : 0 < (digitChars d.digits).length := Nat.length_toDigits_pos
  have hdigits := allDigits_digitChars d.digits
  have hpoint : d.point = (digitChars d.digits).length + d.exponent := rfl
  unfold positional at h
  split at h
  · next hle =>
    -- all digits are behind the point
    obtain ⟨rfl, rfl⟩ := Prod.mk.inj h
    refine ⟨List.cons_ne_nil _ _, allDigits_zeros 1, (allDigits_zeros _).append hdigits, ?_, ?_⟩
    · have hexponent : d.exponent.toNat = 0 := by omega
      have hzeros : ofDigits (['0'] ++ (List.replicate (-d.point).toNat '0' ++
          digitChars d.digits)) = ofDigits (digitChars d.digits ++ List.replicate 0 '0') := by
        rw [List.replicate_zero, List.append_nil]
        exact (ofDigits_zeros_append 1 _).trans (ofDigits_zeros_append _ _)
      rw [hzeros, ofDigits_digitChars_zeros, Decimal.numerator, hexponent, Nat.pow_eq]
    · rw [Decimal.denominator, List.length_append, List.length_replicate]
      congr 1
      omega
  · next hlt =>
    obtain ⟨rfl, rfl⟩ := Prod.mk.inj h
    have hall := hdigits.append
      (allDigits_zeros (d.point.toNat - (digitChars d.digits).length))
    refine ⟨?_, fun c hc => hall c (List.mem_of_mem_take hc),
      fun c hc => hall c (List.mem_of_mem_drop hc), ?_, ?_⟩
    · refine List.ne_nil_of_length_pos ?_
      rw [List.length_take, List.length_append]
      omega
    · rw [List.take_append_drop, ofDigits_digitChars_zeros, Decimal.numerator]
      congr 2
      omega
    · rw [Decimal.denominator, List.length_drop, List.length_append, List.length_replicate]
      congr 1
      omega

end Digits

theorem IsUnsigned.ne_nil {cs : List Char} (h : IsUnsigned cs) : cs ≠ [] := by
  obtain ⟨whole, fraction, hne, -, -, rfl⟩ := h
  cases fraction with
  | nil => exact hne
  | cons c fraction => exact List.append_ne_nil_of_left_ne_nil hne _

theorem IsLiteral.ne_nil {cs : List Char} (h : IsLiteral cs) : cs ≠ [] := by
  rcases h with h | ⟨unsigned, -, rfl⟩
  · exact h.ne_nil
  · exact List.cons_ne_nil _ _

theorem IsLiteral.char {cs : List Char} (h : IsLiteral cs) {c : Char} (hc : c ∈ cs) :
    c.isDigit = true ∨ c = '.' ∨ c = '-' := by
  have hunsigned {cs : List Char} (h : IsUnsigned cs) (hc : c ∈ cs) :
      c.isDigit = true ∨ c = '.' ∨ c = '-' := by
    obtain ⟨whole, fraction, -, hwhole, hfraction, rfl⟩ := h
    cases fraction with
    | nil => exact Or.inl (hwhole c hc)
    | cons d fraction =>
      rw [joinFraction_cons] at hc
      rcases List.mem_append.1 hc with hc | hc
      · exact Or.inl (hwhole c hc)
      · rcases List.mem_cons.1 hc with rfl | hc
        · exact Or.inr (Or.inl rfl)
        · exact Or.inl (hfraction c hc)
  rcases h with h | ⟨unsigned, h, rfl⟩
  · exact hunsigned h hc
  · rcases List.mem_cons.1 hc with rfl | hc
    · exact Or.inr (Or.inr rfl)
    · exact hunsigned h hc

theorem ofLiteral?_sign_append (negative : Bool) {cs : List Char} {m : Nat}
    (h : unsigned? cs = some m) :
    ofLiteral? (sign negative ++ cs) = some (ofMagnitude negative m) := by
  cases negative with
  | true => exact congrArg (Option.map (ofMagnitude true)) h
  | false =>
    have hplain : ofLiteral? cs = (unsigned? cs).map (ofMagnitude false) := by
      unfold ofLiteral?
      split
      · cases h
      · rfl
    exact hplain.trans (congrArg (Option.map (ofMagnitude false)) h)

theorem unsigned?_positional (d : Decimal) :
    unsigned? (joinFraction (positional (digitChars d.digits) d.point)) = some d.toMagnitude := by
  rcases hparts : positional (digitChars d.digits) d.point with ⟨whole, fraction⟩
  obtain ⟨hne, hwhole, hfraction, hnumerator, hdenominator⟩ := positional_parts d hparts
  rw [unsigned?, literalParts?_joinFraction hne hwhole hfraction, Option.map_some]
  simp only [hnumerator, hdenominator]
  rfl

theorem unsigned?_zero : unsigned? ['0'] = some 0 := by
  have hparts : literalParts? ['0'] = some (['0'], []) := by decide
  have hdigits : ofDigits ['0'] = 0 := by decide
  rw [unsigned?, hparts, Option.map_some]
  simp [hdigits, nearest, roundDiv, Scaled.magnitude]

/-- Every finite number is printed as a literal of an equal number. -/
theorem ofLiteral?_plain {x : Float} (h : x.isFinite = true) :
    ∃ y, ofLiteral? (plain x) = some y ∧ (y == x) = true := by
  have hfin := (isFinite_iff x).1 h
  unfold plain
  by_cases hzero : magnitudeOf x = 0
  · refine ⟨ofMagnitude false 0, ?_, zero_beq hzero⟩
    simp only [if_pos hzero]
    exact ofLiteral?_sign_append false unsigned?_zero
  · refine ⟨x, ?_, beq_self_of_isFinite h⟩
    simp only [if_neg hzero, if_neg (Nat.not_lt.2 (Nat.le_of_lt hfin)), if_neg (Nat.ne_of_lt hfin)]
    rw [ofLiteral?_sign_append (isNegative x) (unsigned?_positional _),
      Decimal.toMagnitude_shortest .up (Nat.pos_of_ne_zero hzero) hfin, ofMagnitude_magnitudeOf]

end MacroLisp.Number
