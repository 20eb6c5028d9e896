import Symphony.Ty

/-!
# Operators and their typing tables

`binaryRow l r` lists, operator by operator, the type of `l op r`; an operator past the end of
the row, or with no entry in it, does not apply to these types. `unaryRow` is the same for
unary operators.
-/

namespace Symphony

/-- Binary operators, in the order of the columns of `binaryRow`. -/
inductive BinOp
  | add
  | sub
  | mul
  | div
  | pow
  | mod
  | equals
  | gt
  | lt
  | ge
  | le
  | and
  | or
deriving DecidableEq

namespace BinOp

def all : List BinOp := [add, sub, mul, div, pow, mod, equals, gt, lt, ge, le, and, or]

/-- The spelling of an operator in sources and in quads. -/
def symbol : BinOp → String
  | add => "+"
  | sub => "-"
  | mul => "*"
  | div => "/"
  | pow => "**"
  | mod => "mod"
  | equals => "equals"
  | gt => ">"
  | lt => "<"
  | ge => ">="
  | le => "<="
  | and => "and"
  | or => "or"

/-- The column of an operator. -/
def column : BinOp → Nat
  | add => 0
  | sub => 1
  | mul => 2
  | div => 3
  | pow => 4
  | mod => 5
  | equals => 6
  | gt => 7
  | lt => 8
  | ge => 9
  | le => 10
  | and => 11
  | or => 12

def ofSymbol? (s : String) : Option BinOp :=
  all.find? (·.symbol == s)

theorem ofSymbol?_symbol (o : BinOp) : ofSymbol? o.symbol = some o := by
  cases o <;> decide

end BinOp

/-- Unary operators, in the order of the columns of `unaryRow`. -/
inductive UnOp
  | increment
  | decrement
  | plus
  | minus
  | not
deriving DecidableEq

namespace UnOp

def all : List UnOp := [increment, decrement, plus, minus, not]

/-- The spelling of an operator in sources. -/
def symbol : UnOp → String
  | increment => "++"
  | decrement => "--"
  | plus => "+"
  | minus => "-"
  | not => "not"

/-- The spelling of an operator in quads, where signs differ from sums. -/
def mnemonic : UnOp → String
  | increment => "++"
  | decrement => "--"
  | plus => "PLUS"
  | minus => "MIN"
  | not => "not"

/-- The column of an operator. -/
def column : UnOp → Nat
  | increment => 0
  | decrement => 1
  | plus => 2
  | minus => 3
  | not => 4

/-- Increment and decrement write their result back to their operand. -/
def updatesOperand : UnOp → Bool
  | increment => true
  | decrement => true
  | _ => false

def ofSymbol? (s : String) : Option UnOp :=
  all.find? (·.symbol == s)

theorem ofSymbol?_symbol (o : UnOp) : ofSymbol? o.symbol = some o := by
  cases o <;> decide

end UnOp

namespace Ty

/-- Result types of arithmetic followed by those of comparison. -/
private def arithmetic (sum quotient power : Ty) : List (Option Ty) :=
  [some sum, some sum, some sum, some quotient, some power, some sum,
    some bool, some bool, some bool, some bool, some bool]

/-- Result types of concatenation and comparison. -/
private def textual : List (Option Ty) :=
  [some str, none, none, none, none, none, some bool, some bool, some bool, some bool, some bool]

/-- Result types of comparison and of the connectives. -/
private def logical : List (Option Ty) :=
  [none, none, none, none, none, none, some bool, some bool, some bool, some bool, some bool,
    some bool, some bool, some bool]

/-- The type of `l op r` for each binary operator in turn. -/
def binaryRow (l r : Ty) : List (Option Ty) :=
  match l, r with
  | int, int => arithmetic int dec int
  | int, dec => arithmetic dec dec dec
  | dec, int => arithmetic dec dec dec
  | dec, dec => arithmetic dec dec dec
  | char, char => textual
  | str, str => textual
  | char, str => [some str]
  | str, char => [some str]
  | bool, bool => logical
  | _, _ => []

/-- The type of `op t` for each unary operator in turn. -/
def unaryRow : Ty → List (Option Ty)
  | int => [some int, some int, some int, some int]
  | bool => [none, none, none, none, some bool]
  | dec => [some dec, some dec, some dec, some dec]
  | _ => []

end Ty

/-- The type of `l op r`, if the operator applies. -/
def BinOp.result? (o : BinOp) (l r : Ty) : Option Ty :=
  (Ty.binaryRow l r)[o.column]?.join

/-- The type of `op t`, if the operator applies. -/
def UnOp.result? (o : UnOp) (t : Ty) : Option Ty :=
  (Ty.unaryRow t)[o.column]?.join

end Symphony
