/-!
# Types

Two notions of type run through the compiler. A `Ty` is a type a program can declare. A `Kind`
is what the compiler knows about an operand on its stack: usually the type of a value, sometimes
a whole array, and after a unary operator only the *code* of a type. A bare code is as good as
the type wherever types are compared or looked up in a table, but it has no name, so a message
that would have to print it cannot be written.
-/

namespace Symphony

/-- The types a program can declare. -/
inductive Ty
  | int
  | char
  | str
  | bool
  | dec
deriving DecidableEq

namespace Ty

/-- All types, in the order in which tables and memory sectors list them. -/
def all : List Ty := [int, char, str, bool, dec]

/-- The position of a type in `all`. -/
def code : Ty → Nat
  | int => 0
  | char => 1
  | str => 2
  | bool => 3
  | dec => 4

/-- The name used in messages. -/
def name : Ty → String
  | int => "INT"
  | char => "CHAR"
  | str => "STR"
  | bool => "BOOL"
  | dec => "DEC"

def ofCode? : Nat → Option Ty
  | 0 => some int
  | 1 => some char
  | 2 => some str
  | 3 => some bool
  | 4 => some dec
  | _ => none

def ofName? (s : String) : Option Ty :=
  all.find? (·.name == s)

theorem ofCode?_code (t : Ty) : ofCode? t.code = some t := by
  cases t <;> rfl

theorem ofName?_name (t : Ty) : ofName? t.name = some t := by
  cases t <;> decide

end Ty

/-- What the compiler knows about the type of an operand. -/
inductive Kind
  | value (t : Ty)
  | array
  | bare (code : Int)
deriving DecidableEq

namespace Kind

/-- Arrays come after the declarable types. -/
def code : Kind → Int
  | value t => t.code
  | array => 5
  | bare c => c

/-- The name used in messages; a bare code has none. -/
def name? : Kind → Option String
  | value t => some t.name
  | array => some "ARRAY"
  | bare _ => none

/-- Two kinds agree when they have the same code. -/
def agrees (k l : Kind) : Bool :=
  k.code == l.code

/-- The declarable type with this kind's code: the one whose addresses and cells it uses. -/
def ty? (k : Kind) : Option Ty :=
  if 0 ≤ k.code then Ty.ofCode? k.code.toNat else none

/-- The row of a table of types that this kind selects. A negative code counts from the end. -/
def row? (k : Kind) : Option Ty :=
  if 0 ≤ k.code then Ty.ofCode? k.code.toNat
  else if -5 ≤ k.code then Ty.ofCode? (k.code + 5).toNat
  else none

theorem ty?_value (t : Ty) : (value t).ty? = some t := by
  cases t <;> rfl

theorem row?_value (t : Ty) : (value t).row? = some t := by
  cases t <;> rfl

theorem ty?_bare (t : Ty) : (bare t.code).ty? = some t := by
  cases t <;> rfl

end Kind

end Symphony
