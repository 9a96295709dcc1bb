/-!
# Blank text

`isBlank` is the Unicode property White_Space, and `trim` removes blank characters from both ends
of a text. Blank characters are more than the layout between tokens: a form feed or a no-break
space is blank, yet it may be part of a symbol.
-/

namespace MacroLisp.Text

/-- The ranges of the Unicode property White_Space, by first and last code point. -/
def blankRanges : List (Nat × Nat) :=
  [(0x09, 0x0D), (0x20, 0x20), (0x85, 0x85), (0xA0, 0xA0), (0x1680, 0x1680), (0x2000, 0x200A),
   (0x2028, 0x2029), (0x202F, 0x202F), (0x205F, 0x205F), (0x3000, 0x3000)]

def isBlank (c : Char) : Bool := blankRanges.any fun r => r.1 ≤ c.toNat && c.toNat ≤ r.2

def trimStart (cs : List Char) : List Char := cs.dropWhile isBlank

def trimEnd (cs : List Char) : List Char := (cs.reverse.dropWhile isBlank).reverse

def trim (cs : List Char) : List Char := trimEnd (trimStart cs)

def allBlank (cs : List Char) : Bool := cs.all isBlank

theorem trimStart_eq_nil_iff {cs : List Char} : trimStart cs = [] ↔ allBlank cs = true := by
  induction cs with
  | nil => simp [trimStart, allBlank]
  | cons c cs ih =>
    cases h : isBlank c with
    | false => simp [trimStart, allBlank, h]
    | true =>
      simp only [trimStart, allBlank, List.dropWhile_cons, List.all_cons, h, if_true,
        Bool.true_and] at ih ⊢
      exact ih

theorem allBlank_eq_false_of_mem {cs : List Char} {c : Char} (h : c ∈ cs) (hc : isBlank c = false) :
    allBlank cs = false := by
  refine Bool.eq_false_iff.2 fun hall => ?_
  rw [List.all_eq_true.1 hall c h] at hc
  cases hc

example : (blankRanges.map fun r => r.2 - r.1 + 1).sum = 25 := by decide

end MacroLisp.Text
