import Symphony.Number.Binary

/-!
# Shortest decimal text

The text of a double has the fewest digits that read back as the same double; among those the
nearest to its value is taken. `shortest` finds these digits in exact arithmetic: it tries grids of
one, two, ... seventeen digits and tests the two grid points next to the value against the interval
of reals that round to it. `Layout` says how digits are laid out.
-/

namespace Symphony.Number

/-- `num / den`, scaled so that one unit is `10 ^ k`. -/
def decimalScaled (num den : Nat) (k : Int) : Nat × Nat :=
  if 0 ≤ k then (num, den * tenPow k.toNat) else (num * tenPow (-k).toNat, den)

/-- The number `d` with `10 ^ (d - 1) ≤ num / den < 10 ^ d`, searched upwards from `d`. -/
def decimalPoint (num den : Nat) : Nat → Int → Int
  | 0, d => d
  | fuel + 1, d =>
    let (a, b) := decimalScaled num den d
    if a < b then d else decimalPoint num den fuel (d + 1)

/-- A digit string without its trailing zeros, and the exponent of its last digit. -/
def dropZeros : Nat → Nat → Int → Nat × Int
  | 0, digits, k => (digits, k)
  | fuel + 1, digits, k =>
    if digits % 10 = 0 ∧ digits ≠ 0 then dropZeros fuel (digits / 10) (k + 1) else (digits, k)

/-- The point of the grid of step `10 ^ k` to use for `m · 2 ^ e`, if one rounds to it. -/
def gridPoint? (m : Nat) (e k : Int) : Option Nat :=
  -- Quarters of a unit in the last place: the value, and both ends of its rounding interval.
  let (unit, den) := scaled 1 1 (2 - e)
  let low := if m = twoPow 52 ∧ leastExponent < e then 4 * m - 1 else 4 * m - 2
  let (value, step) := decimalScaled (4 * m * unit) den k
  let (low, _) := decimalScaled (low * unit) den k
  let (high, _) := decimalScaled ((4 * m + 2) * unit) den k
  let below := value / step
  let closed := m % 2 = 0
  let belowIn := low < below * step ∨ (closed ∧ low = below * step)
  let aboveIn := (below + 1) * step < high ∨ (closed ∧ (below + 1) * step = high)
  if belowIn ∧ aboveIn then
    let rest := 2 * (value - below * step)
    some (if rest < step ∨ (rest = step ∧ below % 2 = 0) then below else below + 1)
  else if belowIn then some below
  else if aboveIn then some (below + 1)
  else none

/-- The shortest digits of `m · 2 ^ e`, for positive `m`, and the exponent of the last one. -/
def shortest (m : Nat) (e : Int) : Nat × Int :=
  let (unit, den) := scaled 1 1 (-e)
  let guess := ((m.log2 : Int) + e) * 30103 / 100000 - 1
  let point := decimalPoint (m * unit) den 4 guess
  let found := (List.range 17).findSome? fun (i : Nat) =>
    let k : Int := point - i - 1
    (gridPoint? m e k).map (·, k)
  let (digits, k) := found.getD (m, e)
  dropZeros 17 digits k

/-- How digits become text. -/
structure Layout where
  /-- The least position of the decimal point, relative to the first digit, written out in full. -/
  leastPoint : Int
  /-- The greatest position of the decimal point written out in full. -/
  greatestPoint : Int
  /-- What follows the digits of a whole number. -/
  whole : String

/-- A decimal point from four places before the first digit to sixteen after it is written out;
whole numbers keep a zero after the point. -/
def decimalLayout : Layout := ⟨-3, 16, ".0"⟩

/-- The parts of a complex number drop the zero after the point. -/
def partLayout : Layout := ⟨-3, 16, ""⟩

/-- An exponent has a sign and at least two digits. -/
def exponentText (x : Int) : List Char :=
  let ds := Nat.toDigits 10 x.natAbs
  (if x < 0 then '-' else '+') :: (if ds.length < 2 then '0' :: ds else ds)

/-- The text of `digits · 10 ^ k`. -/
def Layout.digits (l : Layout) (digits : Nat) (k : Int) : List Char :=
  let ds := Nat.toDigits 10 digits
  let point := ds.length + k
  if l.leastPoint ≤ point ∧ point ≤ l.greatestPoint then
    if point ≤ 0 then '0' :: '.' :: List.replicate (-point).toNat '0' ++ ds
    else if point < ds.length then ds.take point.toNat ++ '.' :: ds.drop point.toNat
    else ds ++ List.replicate (point - ds.length).toNat '0' ++ l.whole.toList
  else
    let mantissa := match ds with
      | [] => []
      | [d] => [d]
      | d :: rest => d :: '.' :: rest
    mantissa ++ 'e' :: exponentText (point - 1)

/-- The text of a double. -/
def Layout.text (l : Layout) (x : Float) : String :=
  if x.isNaN then "nan"
  else
    let p := parts x
    let sign := if p.negative then "-" else ""
    if x.isInf then sign ++ "inf"
    else if p.mantissa = 0 then sign ++ "0" ++ l.whole
    else
      let (digits, k) := shortest p.mantissa p.exponent
      sign ++ String.ofList (l.digits digits k)

end Symphony.Number
