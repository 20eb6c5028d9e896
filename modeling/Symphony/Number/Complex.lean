import Symphony.Number.Shortest

/-!
# Complex numbers

A negative number raised to a fractional power is a complex number. Powers with a small whole
exponent are repeated products, others go through polar coordinates.
-/

namespace Symphony.Number

structure Complex where
  re : Float
  im : Float
deriving DecidableEq

namespace Complex

def ofReal (x : Float) : Complex := ⟨x, 0.0⟩

def add (a b : Complex) : Complex := ⟨a.re + b.re, a.im + b.im⟩

def sub (a b : Complex) : Complex := ⟨a.re - b.re, a.im - b.im⟩

def mul (a b : Complex) : Complex :=
  ⟨a.re * b.re - a.im * b.im, a.re * b.im + a.im * b.re⟩

def neg (a : Complex) : Complex := ⟨-a.re, -a.im⟩

def isZero (a : Complex) : Bool := a.re == 0 && a.im == 0

/-- Both parts are finite or not numbers: neither is an infinity. -/
def isBounded (a : Complex) : Bool := !a.re.isInf && !a.im.isInf

/-- Division scaled by the larger part of the divisor; none for divisor zero. -/
def div? (a b : Complex) : Option Complex :=
  if b.im.abs ≤ b.re.abs then
    if b.re.abs == 0 then none
    else
      let ratio := b.im / b.re
      let den := b.re + b.im * ratio
      some ⟨(a.re + a.im * ratio) / den, (a.im - a.re * ratio) / den⟩
  else if b.re.abs ≤ b.im.abs then
    let ratio := b.re / b.im
    let den := b.re * ratio + b.im
    some ⟨(a.re * ratio + a.im) / den, (a.im * ratio - a.re) / den⟩
  else some ⟨0.0 / 0.0, 0.0 / 0.0⟩

/-- `r · p ^ n`, the power built from the low bits of `n` upwards; `fuel` bounds their number. -/
def mulPow : Nat → Complex → Complex → Nat → Complex
  | 0, r, _, _ => r
  | fuel + 1, r, p, n =>
    if n = 0 then r
    else mulPow fuel (if n % 2 = 1 then r.mul p else r) (p.mul p) (n / 2)

/-- A whole power; none for zero to a negative power. -/
def powInt? (a : Complex) (n : Int) : Option Complex :=
  let p := mulPow 64 ⟨1.0, 0.0⟩ a n.natAbs
  if 0 < n then some p else div? ⟨1.0, 0.0⟩ p

/-- The number with the given polar coordinates; none if the angle is infinite. -/
def ofPolar? (len phase : Float) : Option Complex :=
  if phase.isInf then none else some ⟨len * Float.cos phase, len * Float.sin phase⟩

/-- A power by way of polar coordinates; none for zero to a negative or complex power. -/
def powPolar? (a b : Complex) : Option Complex :=
  if b.isZero then some ⟨1.0, 0.0⟩
  else if a.isZero then
    if b.im != 0 || b.re < 0 then none else some ⟨0.0, 0.0⟩
  else
    let size := hypotenuse a.re a.im
    let len := Float.pow size b.re
    let angle := Float.atan2 a.im a.re
    let phase := angle * b.re
    if b.im != 0 then
      let len := len / Float.exp (angle * b.im)
      ofPolar? len (phase + b.im * Float.log size)
    else ofPolar? len phase

/-- The largest whole exponent that is computed by products. -/
def wholeLimit : Float := 100.0

def pow? (a b : Complex) : Option Complex :=
  if b.im == 0 && b.re == b.re.floor && b.re.abs ≤ wholeLimit then powInt? a (floor b.re)
  else powPolar? a b

/-- Without a real part only the imaginary one is written, else both between parentheses. -/
def text (a : Complex) : String :=
  let im := partLayout.text a.im
  if a.re == 0 && !(parts a.re).negative then im ++ "j"
  else
    let sign := if a.im.isNaN || !(parts a.im).negative then "+" else ""
    "(" ++ partLayout.text a.re ++ sign ++ im ++ "j)"

end Complex

end Symphony.Number
