import Symphony.Number.Power

/-!
# Binary floating point, exactly

A finite double is an integer times a power of two. Everything that must be exact is computed on
that form with unbounded integers: rounding a ratio to the nearest double, comparing a double with
an integer, floors, and remainders.
-/

namespace Symphony.Number

/-- A finite double: `mantissa · 2 ^ exponent`, with its sign. -/
structure Parts where
  negative : Bool
  mantissa : Nat
  exponent : Int
deriving DecidableEq

/-- The exponent of the smallest positive double. -/
def leastExponent : Int := -1074

/-- The parts of a finite double. -/
def parts (x : Float) : Parts :=
  let b := x.toBits.toNat
  let field : Nat := b / twoPow 52 % twoPow 11
  let fraction := b % twoPow 52
  if field = 0 then ⟨b / twoPow 63 == 1, fraction, leastExponent⟩
  else ⟨b / twoPow 63 == 1, twoPow 52 + fraction, leastExponent - 1 + field⟩

/-- The double `± mantissa · 2 ^ exponent`, for a mantissa of at most 53 bits that has exactly 53
bits unless the exponent is the least one. Too large a magnitude gives an infinity. -/
def assemble (p : Parts) : Float :=
  let sign := if p.negative then twoPow 63 else 0
  if p.mantissa < twoPow 52 then Float.ofBits (sign + p.mantissa).toUInt64
  else
    let field := (p.exponent - leastExponent + 1).toNat
    if field < 2047 then
      Float.ofBits (sign + field * twoPow 52 + (p.mantissa - twoPow 52)).toUInt64
    else Float.ofBits (sign + 2047 * twoPow 52).toUInt64

/-- A quotient rounded to the nearest integer, halves to the even one. -/
def roundDiv (num den : Nat) : Nat :=
  let q := num / den
  let r := num % den
  if den < 2 * r ∨ (2 * r = den ∧ q % 2 = 1) then q + 1 else q

/-- `num / (den · 2 ^ e)` as a ratio of natural numbers. -/
def scaled (num den : Nat) (e : Int) : Nat × Nat :=
  if 0 ≤ e then (num, den * twoPow e.toNat) else (num * twoPow (-e).toNat, den)

/-- The double nearest to `± num / den`, halves to the even mantissa. -/
def ofRatio (negative : Bool) (num den : Nat) : Float :=
  if num = 0 then assemble ⟨negative, 0, leastExponent⟩
  else
    -- The quotient has 53 or 54 bits at this exponent, and 53 after the next line.
    let e := (num.log2 : Int) - den.log2 - 53
    let e := if (scaled num den e).1 / (scaled num den e).2 < twoPow 53 then e else e + 1
    let e := max e leastExponent
    let m := roundDiv (scaled num den e).1 (scaled num den e).2
    if m = twoPow 53 then assemble ⟨negative, twoPow 52, e + 1⟩ else assemble ⟨negative, m, e⟩

/-- The double nearest to an integer; none if it is out of range. -/
def ofInt? (n : Int) : Option Float :=
  let x := ofRatio (n < 0) n.natAbs 1
  if x.isFinite then some x else none

/-- The double nearest to the quotient of two integers; none if it is out of range. -/
def divide? (a b : Int) : Option Float :=
  let x := ofRatio ((a < 0) != (b < 0)) a.natAbs b.natAbs
  if x.isFinite then some x else none

/-- The double nearest to `n · 10 ^ e`. Out of range it is an infinity. -/
def ofDecimal (negative : Bool) (n : Nat) (e : Int) : Float :=
  if 0 ≤ e then ofRatio negative (n * tenPow e.toNat) 1 else ofRatio negative n (tenPow (-e).toNat)

/-- The value of a finite double, as an integer over a power of two. -/
def toRatio (x : Float) : Int × Nat :=
  let p := parts x
  let m : Int := if p.negative then -(p.mantissa : Int) else p.mantissa
  if 0 ≤ p.exponent then (m * twoPow p.exponent.toNat, 1) else (m, twoPow (-p.exponent).toNat)

/-- How an integer compares with a double; none with a NaN. -/
def compareInt? (n : Int) (x : Float) : Option Ordering :=
  if x.isNaN then none
  else if x.isInf then some (if x < 0 then .gt else .lt)
  else
    let (num, den) := toRatio x
    some (if n * den < num then .lt else if n * den = num then .eq else .gt)

/-- The greatest integer not above a finite double. -/
def floor (x : Float) : Int :=
  let (num, den) := toRatio x
  num.fdiv den

/-- The least integer not below a finite double. -/
def ceil (x : Float) : Int :=
  let (num, den) := toRatio x
  Int.neg ((-num).fdiv den)

/-- What is left of `x` after subtracting a whole number of `y`, with the sign of `x`. It is exact:
both are multiples of the smaller of their two powers of two. -/
def truncatedRemainder (x y : Float) : Float :=
  if x.isNaN || y.isNaN || x.isInf || y == 0 then 0.0 / 0.0
  else if y.isInf then x
  else
    let p := parts x
    let q := parts y
    let e := min p.exponent q.exponent
    let a := p.mantissa * twoPow (p.exponent - e).toNat
    let b := q.mantissa * twoPow (q.exponent - e).toNat
    let r := a % b
    if 0 ≤ e then ofRatio p.negative (r * twoPow e.toNat) 1
    else ofRatio p.negative r (twoPow (-e).toNat)

/-- The remainder with the sign of the divisor. -/
def flooredRemainder (x y : Float) : Float :=
  let r := truncatedRemainder x y
  if r == 0 then (if (parts y).negative then -0.0 else 0.0)
  else if (y < 0) != (r < 0) then r + y
  else r

/-- The integer part of a square root, built from the highest of `bits` bits downwards on top of
`root`. -/
def sqrtFrom (n : Nat) : Nat → Nat → Nat
  | 0, root => root
  | b + 1, root =>
    let next := root + twoPow b
    sqrtFrom n b (if next * next ≤ n then next else root)

/-- The length of the vector `(x, y)`, rounded once. -/
def hypotenuse (x y : Float) : Float :=
  if x.isInf || y.isInf then 1.0 / 0.0
  else if x.isNaN || y.isNaN then 0.0 / 0.0
  else if x == 0 then y.abs
  else if y == 0 then x.abs
  else
    let p := parts x
    let q := parts y
    let e := min p.exponent q.exponent
    let a := p.mantissa * twoPow (p.exponent - e).toNat
    let b := q.mantissa * twoPow (q.exponent - e).toNat
    -- Enough extra bits to see on which side of a half the root lies.
    let n := (a * a + b * b) * twoPow 128
    let root := sqrtFrom n (n.log2 / 2 + 1) 0
    let sticky := if root * root = n then 0 else 1
    let num := 2 * root + sticky
    if 65 ≤ e then ofRatio false (num * twoPow (e - 65).toNat) 1
    else ofRatio false num (twoPow (65 - e).toNat)

end Symphony.Number
