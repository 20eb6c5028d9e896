import Symphony.Operator
import Symphony.Value.Template

/-!
# Operators on values

Integers are unbounded. A decimal operand makes the other one a decimal, a complex one makes it
complex. Division of integers is exact division rounded once; remainders have the sign of the
divisor; texts can be concatenated, repeated and compared.
-/

namespace Symphony

namespace Value

/-- Applies the version of an operation for the wider kind of two numbers. -/
def widen (onInts : Int → Int → Except Fault Value) (onDecs : Float → Float → Except Fault Value)
    (onComplex : Number.Complex → Number.Complex → Except Fault Value) (l r : Value) :
    Except Fault Value :=
  match l, r with
  | complex a, complex b => onComplex a b
  | complex a, dec y => onComplex a (.ofReal y)
  | dec x, complex b => onComplex (.ofReal x) b
  | complex a, r =>
    match r.int? with
    | some n => (toDec n).bind fun y => onComplex a (.ofReal y)
    | none => .error .mismatch
  | l, complex b =>
    match l.int? with
    | some n => (toDec n).bind fun x => onComplex (.ofReal x) b
    | none => .error .mismatch
  | dec x, dec y => onDecs x y
  | dec x, r =>
    match r.int? with
    | some n => (toDec n).bind fun y => onDecs x y
    | none => .error .mismatch
  | l, dec y =>
    match l.int? with
    | some n => (toDec n).bind fun x => onDecs x y
    | none => .error .mismatch
  | l, r =>
    match l.int?, r.int? with
    | some a, some b => onInts a b
    | _, _ => .error .mismatch

def add (l r : Value) : Except Fault Value :=
  match l, r with
  | str a, str b => .ok (str (a ++ b))
  | l, r =>
    widen (fun a b => .ok (int (a + b))) (fun x y => .ok (dec (x + y)))
      (fun a b => .ok (complex (a.add b))) l r

def sub (l r : Value) : Except Fault Value :=
  widen (fun a b => .ok (int (a - b))) (fun x y => .ok (dec (x - y)))
    (fun a b => .ok (complex (a.sub b))) l r

/-- A count of repetitions must fit a signed machine word, and so must the length of the result. -/
def repeatText (s : String) (n : Int) : Except Fault Value :=
  if n < -twoPow 63 ∨ twoPow 63 ≤ n ∨ twoPow 63 ≤ s.length * n then .error .overflow
  else .ok (str (String.join (List.replicate n.toNat s)))

def mul (l r : Value) : Except Fault Value :=
  match l, r with
  | str s, r =>
    match r.int? with
    | some n => repeatText s n
    | none => .error .mismatch
  | l, str s =>
    match l.int? with
    | some n => repeatText s n
    | none => .error .mismatch
  | l, r =>
    widen (fun a b => .ok (int (a * b))) (fun x y => .ok (dec (x * y)))
      (fun a b => .ok (complex (a.mul b))) l r

/-- A result that may be missing because the divisor is zero. -/
def orZeroDivisor {α : Type} (wrap : α → Value) : Option α → Except Fault Value
  | some a => .ok (wrap a)
  | none => .error .zeroDivisor

def div (l r : Value) : Except Fault Value :=
  widen
    (fun a b =>
      if b = 0 then .error .zeroDivisor
      else
        match Number.divide? a b with
        | some x => .ok (dec x)
        | none => .error .overflow)
    (fun x y => if y == 0 then .error .zeroDivisor else .ok (dec (x / y)))
    (fun a b => orZeroDivisor complex (a.div? b)) l r

/-- The remainder of a division, or a template filled in. Complex numbers have no remainder. -/
def mod (l r : Value) : Except Fault Value :=
  match l, r with
  | str s, r => (Template.fill s r).map str
  | complex _, _ => .error .mismatch
  | _, complex _ => .error .mismatch
  | l, r =>
    widen (fun a b => if b = 0 then .error .zeroDivisor else .ok (int (a.fmod b)))
      (fun x y => if y == 0 then .error .zeroDivisor else .ok (dec (Number.flooredRemainder x y)))
      (fun _ _ => .error .mismatch) l r

/-- A power of an integer. Zero, one and minus one stay small whatever the exponent. -/
def powNat (a : Int) (n : Nat) : Int :=
  if n = 0 then 1
  else if a = 0 ∨ a = 1 then a
  else if a = -1 then (if n % 2 = 0 then 1 else -1)
  else Int.pow a n

/-- A whole decimal that is not even. -/
def isOdd (x : Float) : Bool :=
  x.isFinite && x == x.floor && Number.floor x % 2 == 1

def powComplex (a b : Number.Complex) : Except Fault Value :=
  match a.pow? b with
  | none => .error .zeroDivisor
  | some z => if z.isBounded then .ok (complex z) else .error .overflow

/-- A power of decimals: complex for a negative base and a fractional exponent. -/
def powDec (x y : Float) : Except Fault Value :=
  if y == 0 then .ok (dec 1.0)
  else if x.isNaN then .ok (dec x)
  else if y.isNaN then .ok (dec (if x == 1 then 1.0 else y))
  else if y.isInf then
    let x := x.abs
    if x == 1 then .ok (dec 1.0)
    else if (0 < y) == (1 < x) then .ok (dec y.abs)
    else .ok (dec 0.0)
  else if x.isInf then
    if 0 < y then .ok (dec (if isOdd y then x else x.abs))
    else .ok (dec (if isOdd y && x < 0 then -0.0 else 0.0))
  else if x == 0 then
    if y < 0 then .error .zeroDivisor
    else .ok (dec (if isOdd y then x else 0.0))
  else if x < 0 && y != y.floor then powComplex (.ofReal x) (.ofReal y)
  else
    let size := x.abs
    let p := if size == 1 then 1.0 else Float.pow size y
    if p.isInf then .error .overflow
    else .ok (dec (if x < 0 && isOdd y then -p else p))

def pow (l r : Value) : Except Fault Value :=
  widen
    (fun a b =>
      if 0 ≤ b then .ok (int (powNat a b.toNat))
      else (toDec a).bind fun x => (toDec b).bind fun y => powDec x y)
    powDec powComplex l r

/-- Bitwise conjunction of integers in two's complement. -/
def andInt (a b : Int) : Int :=
  match a, b with
  | .ofNat m, .ofNat n => (m &&& n : Nat)
  | .ofNat m, .negSucc n => (m - (m &&& n) : Nat)
  | .negSucc m, .ofNat n => (n - (n &&& m) : Nat)
  | .negSucc m, .negSucc n => Int.negSucc (m ||| n)

/-- Bitwise disjunction of integers in two's complement. -/
def orInt (a b : Int) : Int :=
  match a, b with
  | .ofNat m, .ofNat n => (m ||| n : Nat)
  | .ofNat m, .negSucc n => Int.negSucc (n - (n &&& m))
  | .negSucc m, .ofNat n => Int.negSucc (m - (m &&& n))
  | .negSucc m, .negSucc n => Int.negSucc (m &&& n)

/-- A connective: on truth values if both are, else bitwise on integers. -/
def connective (onBools : Bool → Bool → Bool) (onInts : Int → Int → Int) (l r : Value) :
    Except Fault Value :=
  match l, r with
  | bool a, bool b => .ok (bool (onBools a b))
  | l, r =>
    match l.int?, r.int? with
    | some a, some b => .ok (int (onInts a b))
    | _, _ => .error .mismatch

/-- An order test on two numbers or two texts. Nothing is above or below what is not a number. -/
def order (test : Ordering → Bool) (l r : Value) : Except Fault Value :=
  match l, r with
  | str a, str b => .ok (bool (test (compareOfLessAndEq a b)))
  | l, r =>
    match compareReal? l r with
    | none => .error .mismatch
    | some none => .ok (bool false)
    | some (some o) => .ok (bool (test o))

def neg : Value → Except Fault Value
  | dec x => .ok (dec (-x))
  | complex z => .ok (complex z.neg)
  | v =>
    match v.int? with
    | some n => .ok (int (-n))
    | none => .error .mismatch

def pos : Value → Except Fault Value
  | dec x => .ok (dec x)
  | complex z => .ok (complex z)
  | v =>
    match v.int? with
    | some n => .ok (int n)
    | none => .error .mismatch

end Value

/-- The value of a binary operator. -/
def BinOp.apply : BinOp → Value → Value → Except Fault Value
  | add => Value.add
  | sub => Value.sub
  | mul => Value.mul
  | div => Value.div
  | pow => Value.pow
  | mod => Value.mod
  | equals => fun l r => .ok (.bool (l.equal r))
  | gt => Value.order Ordering.isGT
  | lt => Value.order Ordering.isLT
  | ge => Value.order Ordering.isGE
  | le => Value.order Ordering.isLE
  | and => Value.connective Bool.and Value.andInt
  | or => Value.connective Bool.or Value.orInt

/-- The value of a unary operator. -/
def UnOp.apply : UnOp → Value → Except Fault Value
  | increment => Value.add (.int 1)
  | decrement => fun v => Value.sub v (.int 1)
  | plus => Value.pos
  | minus => Value.neg
  | not => fun v => .ok (.bool !v.truthy)

end Symphony
