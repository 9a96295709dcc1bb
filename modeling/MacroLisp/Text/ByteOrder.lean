/-!
# Byte order

Names and path components are ordered by their UTF-8 bytes. `insertName` adds a name to a list in
strictly increasing order and keeps that order; a name that is present already is not repeated.
-/

namespace MacroLisp.Text

def bytes (s : String) : List UInt8 := s.toUTF8.data.toList

/-- The text comes strictly earlier in byte order. -/
def Before (a b : String) : Prop := bytes a < bytes b

instance : DecidableRel Before := fun a b => inferInstanceAs (Decidable (bytes a < bytes b))

theorem bytes_injective {a b : String} (h : bytes a = bytes b) : a = b := by
  simp only [bytes, Array.toList_inj, String.toUTF8] at h
  exact String.toByteArray_inj.1 (ByteArray.ext h)

theorem Before.trans {a b c : String} (hab : Before a b) (hbc : Before b c) : Before a c :=
  List.lt_trans hab hbc

theorem before_of_not_before {a b : String} (hne : a ≠ b) (h : ¬ Before a b) : Before b a := by
  rcases List.le_iff_lt_or_eq.1 (List.not_lt.1 h) with hlt | heq
  · exact hlt
  · exact absurd (bytes_injective heq).symm hne

def insertName (name : String) : List String → List String
  | [] => [name]
  | other :: names =>
    if name = other then other :: names
    else if Before name other then name :: other :: names
    else other :: insertName name names

def sortNames (names : List String) : List String := names.foldr insertName []

theorem mem_insertName {name x : String} {names : List String} :
    x ∈ insertName name names ↔ x = name ∨ x ∈ names := by
  induction names with
  | nil => simp [insertName]
  | cons other names ih =>
    unfold insertName
    split
    · next h => simp [h]
    · split
      · simp
      · simp only [List.mem_cons, ih]
        constructor
        · rintro (h | h | h) <;> simp [h]
        · rintro (h | h | h) <;> simp [h]

theorem pairwise_insertName {name : String} {names : List String} (h : names.Pairwise Before) :
    (insertName name names).Pairwise Before := by
  induction names with
  | nil => simp [insertName]
  | cons other names ih =>
    obtain ⟨hfirst, hrest⟩ := List.pairwise_cons.1 h
    unfold insertName
    split
    · exact h
    · next hne =>
      split
      · next hbefore =>
        refine List.pairwise_cons.2 ⟨fun x hx => ?_, h⟩
        rcases List.mem_cons.1 hx with rfl | hx
        · exact hbefore
        · exact hbefore.trans (hfirst x hx)
      · next hbefore =>
        refine List.pairwise_cons.2 ⟨fun x hx => ?_, ih hrest⟩
        rcases mem_insertName.1 hx with rfl | hx
        · exact before_of_not_before hne hbefore
        · exact hfirst x hx

theorem mem_sortNames {x : String} {names : List String} : x ∈ sortNames names ↔ x ∈ names := by
  induction names with
  | nil => simp [sortNames]
  | cons name names ih => simp_all [sortNames, mem_insertName]

theorem pairwise_sortNames (names : List String) : (sortNames names).Pairwise Before := by
  induction names with
  | nil => exact .nil
  | cons name names ih => exact pairwise_insertName ih

end MacroLisp.Text
