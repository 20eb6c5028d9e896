import Symphony.Fault
import Symphony.Number.Complex
import Symphony.Text.Integer

/-!
# Run time values

The machine checks no types: a cell can hold any value. Characters are texts of length one.
-/

namespace Symphony

inductive Value
  | int (n : Int)
  | dec (x : Float)
  | str (s : String)
  | bool (b : Bool)
  | complex (z : Number.Complex)
deriving DecidableEq

namespace Value

/-- Booleans count as the integers zero and one. -/
def int? : Value → Option Int
  | int n => some n
  | bool b => some (if b then 1 else 0)
  | _ => none

/-- Zero of any kind, the empty text and falsehood are not true; everything else is. -/
def truthy : Value → Bool
  | int n => n != 0
  | dec x => x != 0
  | str s => s != ""
  | bool b => b
  | complex z => !z.isZero

/-- The text of a value, as a conversion to text gives it. -/
def text : Value → Except Fault String
  | int n =>
    match Text.writeInteger? n with
    | some s => .ok s
    | none => .error .tooManyDigits
  | dec x => .ok (Number.decimalLayout.text x)
  | str s => .ok s
  | bool b => .ok (if b then "True" else "False")
  | complex z => .ok z.text

/-- The text of a value as it is printed: booleans as they are spelt in programs. -/
def printed : Value → Except Fault String
  | bool b => .ok (if b then "true" else "false")
  | v => v.text

/-- An integer as a decimal. -/
def toDec (n : Int) : Except Fault Float :=
  match Number.ofInt? n with
  | some x => .ok x
  | none => .error .overflow

/-- How two numbers compare; none if one of them is not a number. Integers are never rounded. -/
def compareReal? (l r : Value) : Option (Option Ordering) :=
  match l, r with
  | dec x, dec y =>
    some (if x < y then some .lt else if x == y then some .eq else if y < x then some .gt else none)
  | dec x, r => r.int?.map fun n => (Number.compareInt? n x).map Ordering.swap
  | l, dec y => l.int?.map fun n => Number.compareInt? n y
  | l, r => l.int?.bind fun a => r.int?.map fun b => some (compareOfLessAndEq a b)

/-- Equality: of numbers by value across kinds, of texts by content, and false otherwise. -/
def equal (l r : Value) : Bool :=
  match l, r with
  | str a, str b => a == b
  | complex a, complex b => a.re == b.re && a.im == b.im
  | complex a, r => a.im == 0 && compareReal? (dec a.re) r == some (some .eq)
  | l, complex b => b.im == 0 && compareReal? l (dec b.re) == some (some .eq)
  | l, r => compareReal? l r == some (some .eq)

end Value

end Symphony
