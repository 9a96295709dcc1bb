import MacroLisp.Number.Decimal
import MacroLisp.Number.Magnitude

/-!
# Written numbers

`plain` is how a number is printed: the shortest digits in positional notation, never an exponent,
zero without a sign. `json` is how it is written in a JSON document: with a fraction or an exponent
always, and an exponent outside `1e-5 ≤ x < 1e16`. `ofLiteral?` reads `-?digits(.digits)?` to the
nearest double, and refuses all else.
-/

namespace MacroLisp.Number

def digitChars (n : Nat) : List Char := Nat.toDigits 10 n

/-- Digits with a point so many places from their left end, filled up with zeros. -/
def positional (digits : List Char) (point : Int) : List Char × List Char :=
  if point ≤ 0 then (['0'], List.replicate (-point).toNat '0' ++ digits)
  else
    let whole := digits ++ List.replicate (point.toNat - digits.length) '0'
    (whole.take point.toNat, whole.drop point.toNat)

def Decimal.point (d : Decimal) : Int := (digitChars d.digits).length + d.exponent

def sign (negative : Bool) : List Char := if negative then ['-'] else []

def joinFraction : List Char × List Char → List Char
  | (whole, []) => whole
  | (whole, fraction) => whole ++ '.' :: fraction

/-- A tie between two shortest decimals goes up. -/
def plain (x : Float) : List Char :=
  let m := magnitudeOf x
  if m = 0 then ['0']
  else if infinity < m then "NaN".toList
  else if m = infinity then sign (isNegative x) ++ "inf".toList
  else
    let d := Decimal.shortest .up m
    sign (isNegative x) ++ joinFraction (positional (digitChars d.digits) d.point)

def scientific (digits : List Char) (point : Int) : List Char :=
  let exponent := point - 1
  joinFraction (digits.take 1, digits.drop 1) ++ 'e' :: (if exponent < 0 then '-' else '+') ::
    digitChars exponent.natAbs

/-- A tie between two shortest decimals goes to the even one. -/
def json (x : Float) : List Char :=
  let m := magnitudeOf x
  if infinity ≤ m then "null".toList
  else if m = 0 then sign (isNegative x) ++ "0.0".toList
  else
    let d := Decimal.shortest .toEven m
    let digits := digitChars d.digits
    let written :=
      if -5 < d.point ∧ d.point ≤ 16 then
        match positional digits d.point with
        | (whole, []) => whole ++ ".0".toList
        | parts => joinFraction parts
      else scientific digits d.point
    sign (isNegative x) ++ written

def digitValue (c : Char) : Nat := c.toNat - '0'.toNat

def ofDigits (cs : List Char) : Nat := cs.foldl (fun n c => 10 * n + digitValue c) 0

def literalParts? (cs : List Char) : Option (List Char × List Char) :=
  let whole := cs.takeWhile Char.isDigit
  if whole.isEmpty then none
  else
    match cs.dropWhile Char.isDigit with
    | [] => some (whole, [])
    | '.' :: fraction =>
      if fraction.isEmpty || !fraction.all Char.isDigit then none else some (whole, fraction)
    | _ => none

def unsigned? (cs : List Char) : Option Nat :=
  (literalParts? cs).map fun parts =>
    nearest (ofDigits (parts.1 ++ parts.2)) (Nat.pow 10 parts.2.length)

def ofLiteral? : List Char → Option Float
  | '-' :: cs => (unsigned? cs).map (ofMagnitude true)
  | cs => (unsigned? cs).map (ofMagnitude false)

end MacroLisp.Number
