import Symphony.Machine.State
import Symphony.Value.Arithmetic

/-!
# Operations

Quads that compute: a unary operation or a copy has two operands, a binary operation three. How
many operands a quad has decides how its operation is applied.
-/

namespace Symphony

inductive Operation
  | binary (o : BinOp)
  | unary (o : UnOp)
  | copy
deriving DecidableEq

namespace Operation

/-- All operations, in the order in which the machine lists them. -/
def all : List Operation := BinOp.all.map binary ++ UnOp.all.map unary ++ [copy]

/-- The operation a quad starts with. -/
def name : Operation → String
  | binary o => o.symbol
  | unary o => o.mnemonic
  | copy => "="

def ofName? (s : String) : Option Operation :=
  all.find? (·.name == s)

def applyOne : Operation → Value → Except Fault Value
  | binary _, _ => .error .mismatch
  | unary o, v => o.apply v
  | copy, v => .ok v

def applyTwo : Operation → Value → Value → Except Fault Value
  | binary o, l, r => o.apply l r
  | _, _, _ => .error .mismatch

/-- A division by zero names the dividend. -/
def nameDividend (l : Value) : Except Fault Value → Except Fault Value
  | .error .zeroDivisor => l.text.bind fun t => .error (.divideBy t)
  | r => r

/-- Performs an operation on the fields that follow its name. -/
def perform (o : Operation) : List String → Exec Unit
  | a :: b :: [] => do
    let r ← Attempt.ofExcept (o.applyOne (← Exec.value a))
    Exec.store r b
  | a :: b :: c :: _ => do
    let l ← Exec.value a
    let r ← Exec.value b
    let v ← Attempt.ofExcept (nameDividend l (o.applyTwo l r))
    Exec.store v c
  | _ => throw .absent

end Operation

end Symphony
