import MacroLisp.Proofs.Number.ReadBack

/-!
# Numbers in documents

A document writes a finite number as its sign and a decimal that is read as its magnitude, with a
fraction or with an exponent. Without an exponent the text is a literal of the value of the decimal;
with one it shows the digits and the place of the point, and so the decimal itself. In either case
the text determines the magnitude, so two finite numbers that are written alike are the same double,
the sign of a zero included.
-/

namespace MacroLisp.Number

section Scaling

variable {factor : Nat} (num den : Nat)

theorem roundDiv_mul_left (h : 0 < factor) :
    roundDiv (factor * num) (factor * den) = roundDiv num den := by
  have htwice : 2 * (factor * (num % den)) = factor * (2 * (num % den)) := Nat.mul_left_comm ..
  simp only [roundDiv, Nat.mul_div_mul_left _ _ h, Nat.mul_mod_mul_left, htwice,
    Nat.mul_lt_mul_left h]

theorem nearest_mul_left (h : 0 < factor) :
    nearest (factor * num) (factor * den) = nearest num den := by
  have hshift (shift : Nat) : (factor * den) <<< shift = factor * (den <<< shift) := by
    rw [Nat.shiftLeft_eq, Nat.shiftLeft_eq, Nat.mul_assoc]
  simp only [nearest, Nat.mul_left_comm unitsInOne factor, Nat.mul_div_mul_left _ _ h, hshift,
    roundDiv_mul_left _ _ h]

end Scaling

/-- A number always has a fraction. -/
def withFraction : List Char × List Char → List Char
  | (whole, []) => joinFraction (whole, ['0'])
  | (whole, c :: fraction) => joinFraction (whole, c :: fraction)

namespace Decimal

/-- The decimal as a document has it: with an exponent outside `1e-5 ≤ x < 1e16`. -/
def written (d : Decimal) : List Char :=
  if -5 < d.point ∧ d.point ≤ 16 then withFraction (positional (digitChars d.digits) d.point)
  else scientific (digitChars d.digits) d.point

theorem unsigned?_withFraction (d : Decimal) :
    unsigned? (withFraction (positional (digitChars d.digits) d.point)) = some d.toMagnitude := by
  have hplain := unsigned?_positional d
  rcases hparts : positional (digitChars d.digits) d.point with ⟨whole, _ | ⟨c, fraction⟩⟩
  · obtain ⟨hne, hwhole, -, hnumerator, hdenominator⟩ := positional_parts d hparts
    have hdigits : ofDigits (whole ++ ['0']) = 10 * d.numerator := by
      rw [← hnumerator, List.append_nil, ofDigits_eq, Nat.ofDigitChars_append]
      rfl
    have hden : Nat.pow 10 ['0'].length = 10 * d.denominator := by
      rw [← hdenominator]
      rfl
    have hzero : AllDigits ['0'] := allDigits_zeros 1
    rw [withFraction, unsigned?, literalParts?_joinFraction hne hwhole hzero, Option.map_some]
    simp only [hdigits, hden, nearest_mul_left _ _ (Nat.succ_pos 9), toMagnitude]
  · rwa [hparts] at hplain

end Decimal

theorem digitChars_inj {m n : Nat} (h : digitChars m = digitChars n) : m = n := by
  have hvalue := congrArg ofDigits h
  simpa only [ofDigits_eq, digitChars, Nat.ofDigitChars_ten_toDigits] using hvalue

def mantissa (n : Nat) : List Char × List Char := ((digitChars n).take 1, (digitChars n).drop 1)

theorem literalParts?_mantissa (n : Nat) :
    literalParts? (joinFraction (mantissa n)) = some (mantissa n) := by
  have hall := allDigits_digitChars n
  have hpos : 0 < (digitChars n).length := Nat.length_toDigits_pos
  refine literalParts?_joinFraction ?_ (fun c hc => hall c (List.mem_of_mem_take hc))
    fun c hc => hall c (List.mem_of_mem_drop hc)
  refine List.ne_nil_of_length_pos ?_
  rw [List.length_take]
  omega

theorem isUnsigned_mantissa (n : Nat) : IsUnsigned (joinFraction (mantissa n)) :=
  isUnsigned_of_literalParts? (literalParts?_mantissa n)

theorem mantissa_inj {m n : Nat} (h : joinFraction (mantissa m) = joinFraction (mantissa n)) :
    m = n := by
  have hparts := congrArg literalParts? h
  rw [literalParts?_mantissa, literalParts?_mantissa] at hparts
  obtain ⟨htake, hdrop⟩ := Prod.mk.inj (Option.some.inj hparts)
  refine digitChars_inj ?_
  rw [← List.take_append_drop 1 (digitChars m), htake, hdrop, List.take_append_drop]

theorem exponentMark_notMem {cs : List Char} (h : IsUnsigned cs) : 'e' ∉ cs := by
  have hliteral : IsLiteral cs := Or.inl h
  intro hmark
  rcases hliteral.char hmark with hc | hc | hc <;> exact absurd hc (by decide)

/-- A point and the exponent that puts it there. -/
def exponentChars (point : Int) : List Char :=
  (if point - 1 < 0 then '-' else '+') :: digitChars (point - 1).natAbs

theorem exponentMark_notMem_exponentChars (point : Int) : 'e' ∉ exponentChars point := by
  intro hmark
  rcases List.mem_cons.1 hmark with hsign | hdigit
  · split at hsign <;> exact absurd hsign (by decide)
  · exact absurd (allDigits_digitChars _ _ hdigit) (by decide)

theorem exponentChars_inj {p q : Int} (h : exponentChars p = exponentChars q) : p = q := by
  obtain ⟨hsign, hdigits⟩ := List.cons.inj h
  have habs := digitChars_inj hdigits
  split at hsign <;> split at hsign
  · omega
  · cases hsign
  · cases hsign
  · omega

namespace Decimal

variable {d e : Decimal}

theorem scientific_inj
    (h : joinFraction (mantissa d.digits) ++ 'e' :: exponentChars d.point =
      joinFraction (mantissa e.digits) ++ 'e' :: exponentChars e.point) : d = e := by
  obtain ⟨hmantissa, -, hexponent⟩ := (List.append_cons_inj_of_notMem
    (exponentMark_notMem (isUnsigned_mantissa d.digits))
    (exponentMark_notMem_exponentChars d.point)).1 h
  have hdigits : d.digits = e.digits := mantissa_inj hmantissa
  have hpoint : d.point = e.point := exponentChars_inj hexponent
  rw [Decimal.point, Decimal.point, hdigits] at hpoint
  obtain ⟨digits, exponent⟩ := d
  obtain ⟨digits', exponent'⟩ := e
  simp only at hdigits hpoint
  rw [hdigits, Int.add_left_cancel hpoint]

/-- What is written is read as the decimal, or it shows the decimal behind a mark. -/
theorem written_cases (d : Decimal) :
    unsigned? d.written = some d.toMagnitude ∨
      d.written = joinFraction (mantissa d.digits) ++ 'e' :: exponentChars d.point := by
  unfold written
  split
  · exact Or.inl (unsigned?_withFraction d)
  · exact Or.inr rfl

/-- What is written determines the magnitude that it is read as. -/
theorem toMagnitude_eq_of_written (h : d.written = e.written) : d.toMagnitude = e.toMagnitude := by
  have hmark (ds cs : List Char) : 'e' ∈ ds ++ 'e' :: cs :=
    List.mem_append_right _ List.mem_cons_self
  rcases d.written_cases with hd | hd <;> rcases e.written_cases with he | he
  · rw [h, he] at hd
    exact (Option.some.inj hd).symm
  · have hnone := exponentMark_notMem (isUnsigned_of_unsigned? hd)
    rw [h, he] at hnone
    exact absurd (hmark _ _) hnone
  · have hnone := exponentMark_notMem (isUnsigned_of_unsigned? he)
    rw [← h, hd] at hnone
    exact absurd (hmark _ _) hnone
  · rw [hd, he] at h
    rw [scientific_inj h]

end Decimal

section Characters

def inNumber (c : Char) : Bool := c.isDigit || c = '.' || c = '-' || c = '+' || c = 'e'

theorem inNumber_of_isDigit {c : Char} (h : c.isDigit = true) : inNumber c = true := by
  rw [inNumber, h]
  rfl

theorem inNumber_of_isUnsigned {cs : List Char} (h : IsUnsigned cs) :
    ∀ c ∈ cs, inNumber c = true := by
  have hliteral : IsLiteral cs := Or.inl h
  intro c hc
  rcases hliteral.char hc with hc | rfl | rfl
  · exact inNumber_of_isDigit hc
  · decide
  · decide

theorem inNumber_exponentChars (point : Int) : ∀ c ∈ exponentChars point, inNumber c = true := by
  intro c hc
  rcases List.mem_cons.1 hc with rfl | hdigit
  · split <;> decide
  · exact inNumber_of_isDigit (allDigits_digitChars _ c hdigit)

theorem exists_head_of_isUnsigned {cs : List Char} (h : IsUnsigned cs) :
    ∃ c rest, cs = c :: rest ∧ c.isDigit = true := by
  obtain ⟨whole, fraction, hne, hwhole, -, rfl⟩ := h
  obtain ⟨c, whole, rfl⟩ := List.exists_cons_of_ne_nil hne
  have hc := hwhole c List.mem_cons_self
  cases fraction with
  | nil => exact ⟨c, whole, rfl, hc⟩
  | cons d fraction => exact ⟨c, _, rfl, hc⟩

namespace Decimal

variable (d : Decimal)

theorem exists_head_written : ∃ c rest, d.written = c :: rest ∧ c.isDigit = true := by
  rcases d.written_cases with h | h
  · exact exists_head_of_isUnsigned (isUnsigned_of_unsigned? h)
  · obtain ⟨c, rest, hrest, hc⟩ := exists_head_of_isUnsigned (isUnsigned_mantissa d.digits)
    rw [h, hrest]
    exact ⟨c, _, rfl, hc⟩

theorem inNumber_written : ∀ c ∈ d.written, inNumber c = true := by
  rcases d.written_cases with h | h
  · exact inNumber_of_isUnsigned (isUnsigned_of_unsigned? h)
  · rw [h]
    exact List.forall_mem_append.2 ⟨inNumber_of_isUnsigned (isUnsigned_mantissa d.digits),
      List.forall_mem_cons.2 ⟨by decide, inNumber_exponentChars d.point⟩⟩

end Decimal

end Characters

theorem sign_append_inj {negative negative' : Bool} {d e : Decimal}
    (h : sign negative ++ d.written = sign negative' ++ e.written) :
    negative = negative' ∧ d.written = e.written := by
  have hsign (d : Decimal) (rest : List Char) : d.written ≠ '-' :: rest := by
    obtain ⟨c, tail, hc, hdigit⟩ := d.exists_head_written
    rw [hc]
    intro heq
    obtain rfl := (List.cons.inj heq).1
    exact absurd hdigit (by decide)
  cases negative <;> cases negative'
  · exact ⟨rfl, h⟩
  · exact absurd h (hsign d e.written)
  · exact absurd h.symm (hsign e d.written)
  · exact ⟨rfl, (List.cons.inj h).2⟩

theorem json_eq {x : Float} (h : x.isFinite = true) :
    ∃ d : Decimal, d.toMagnitude = magnitudeOf x ∧
      json x = sign (isNegative x) ++ d.written := by
  have hfin := (isFinite_iff x).1 h
  unfold json
  simp only [if_neg (Nat.not_le.2 hfin)]
  by_cases hzero : magnitudeOf x = 0
  · have hwritten : Decimal.written ⟨0, 0⟩ = "0.0".toList := by decide
    refine ⟨⟨0, 0⟩, ?_, ?_⟩
    · simp [hzero, Decimal.toMagnitude, Decimal.numerator, nearest, roundDiv, Scaled.magnitude]
    · rw [if_pos hzero, hwritten]
  · refine ⟨_, Decimal.toMagnitude_shortest .toEven (Nat.pos_of_ne_zero hzero) hfin, ?_⟩
    rw [if_neg hzero, Decimal.written]
    split
    · rcases positional _ _ with ⟨whole, _ | ⟨c, fraction⟩⟩ <;> rfl
    · rfl

/-- Distinct finite numbers are written differently. -/
theorem json_inj {x y : Float} (hx : x.isFinite = true) (hy : y.isFinite = true)
    (h : json x = json y) : x = y := by
  obtain ⟨d, hd, hjson⟩ := json_eq hx
  obtain ⟨e, he, hjson'⟩ := json_eq hy
  rw [hjson, hjson'] at h
  obtain ⟨hsign, hwritten⟩ := sign_append_inj h
  have hmagnitude := Decimal.toMagnitude_eq_of_written hwritten
  rw [hd, he] at hmagnitude
  rw [← ofMagnitude_magnitudeOf x, ← ofMagnitude_magnitudeOf y, hsign, hmagnitude]

theorem json_chars {x : Float} (h : x.isFinite = true) :
    json x ≠ [] ∧ ∀ c ∈ json x, inNumber c = true := by
  obtain ⟨d, -, hjson⟩ := json_eq h
  obtain ⟨c, rest, hwritten, -⟩ := d.exists_head_written
  rw [hjson]
  have hsign (negative : Bool) : ∀ c ∈ sign negative, inNumber c = true := by
    cases negative with
    | false => exact List.forall_mem_nil _
    | true => exact List.forall_mem_singleton.2 (by decide)
  exact ⟨List.append_ne_nil_of_right_ne_nil _ (hwritten ▸ List.cons_ne_nil c rest),
    List.forall_mem_append.2 ⟨hsign _, d.inNumber_written⟩⟩

end MacroLisp.Number
