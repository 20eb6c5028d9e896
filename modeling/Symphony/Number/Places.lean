import Symphony.Number.Shortest

/-!
# Decimals with a given number of places

A double is a ratio of integers, so it can be rounded to any number of digits exactly; halves go to
the even digit. Three forms are written: with a fixed number of places, in scientific form, and in
the shorter of both without trailing zeros.
-/

namespace Symphony.Number

/-- Which of the three forms to write. -/
inductive Form
  | fixed
  | scientific
  | general
deriving DecidableEq

/-- The exponent `x` with `10 ^ x ≤ num / den < 10 ^ (x + 1)`, for a positive ratio. -/
def decimalExponent (num den : Nat) : Int :=
  let guess := ((num.log2 : Int) - den.log2) * 30103 / 100000 - 1
  decimalPoint num den 4 guess - 1

/-- The digits of a ratio before and after the point, with the given number of places. -/
def fixedDigits (num den places : Nat) : List Char × List Char :=
  let ds := Nat.toDigits 10 (roundDiv (num * tenPow places) den)
  let ds := List.replicate (places + 1 - ds.length) '0' ++ ds
  (ds.take (ds.length - places), ds.drop (ds.length - places))

/-- The first `count + 1` digits of a ratio, and the exponent of the first one. -/
def leadingDigits (num den count : Nat) : List Char × Int :=
  if num = 0 then (List.replicate (count + 1) '0', 0)
  else
    let x := decimalExponent num den
    let (a, b) := decimalScaled num den (x - count)
    let q := roundDiv a b
    if q = tenPow (count + 1) then (Nat.toDigits 10 (q / 10), x + 1) else (Nat.toDigits 10 q, x)

/-- Digits around a point, which stands only before a digit unless it is asked for. -/
def withPoint (keepPoint : Bool) (whole places : List Char) : List Char :=
  if places.isEmpty && !keepPoint then whole else whole ++ '.' :: places

def dropTrailingZeros (ds : List Char) : List Char :=
  (ds.reverse.dropWhile (· == '0')).reverse

/-- Digits in scientific form. -/
def scientificText (keepPoint : Bool) (whole places : List Char) (x : Int) : List Char :=
  withPoint keepPoint whole places ++ 'e' :: exponentText x

/-- Digits in the general form: positional if the exponent is small. -/
def generalText (keepPoint : Bool) (ds : List Char) (x : Int) : List Char :=
  let trim (places : List Char) := if keepPoint then places else dropTrailingZeros places
  if x < -4 ∨ ds.length ≤ x then scientificText keepPoint (ds.take 1) (trim (ds.drop 1)) x
  else if 0 ≤ x then
    withPoint keepPoint (ds.take (x.toNat + 1)) (trim (ds.drop (x.toNat + 1)))
  else withPoint keepPoint ['0'] (trim (List.replicate (-x - 1).toNat '0' ++ ds))

/-- The text of a double in a form with a precision: the number of places, or of digits in the
general form. -/
def placesText (form : Form) (precision : Nat) (keepPoint : Bool) (x : Float) : List Char :=
  if x.isNaN then "nan".toList
  else
    let sign := if (parts x).negative then ['-'] else []
    if x.isInf then sign ++ "inf".toList
    else
      let (num, den) := toRatio x
      let num := num.natAbs
      match form with
      | .fixed =>
        let (whole, places) := fixedDigits num den precision
        sign ++ withPoint keepPoint whole places
      | .scientific =>
        let (ds, x) := leadingDigits num den precision
        sign ++ scientificText keepPoint (ds.take 1) (ds.drop 1) x
      | .general =>
        let (ds, x) := leadingDigits num den (precision - 1)
        sign ++ generalText keepPoint ds x

end Symphony.Number
