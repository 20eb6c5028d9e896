import Symphony.Compiler.Emit
import Symphony.Operator

/-!
# Compiling operators

Each operator takes its operands from the stack, checks their types, emits a quad and pushes the
result. A chain of operators of one level is compiled when it is complete: its operands are on the
stack, its operators after the first in `chained`, and it is folded from the left.
-/

namespace Symphony.Compile

/-- The type of a binary operation; none if the types do not fit, which includes types that no
table has a row for. Only then is the operator looked up. -/
def binaryResult (operator : String) (l r : Kind) : Compile (Option Ty) :=
  match l.row?, r.row? with
  | some l, some r =>
    match BinOp.ofSymbol? operator with
    | some o => return o.result? l r
    | none => throw (.noEntry operator)
  | _, _ => return none

/-- Emits one binary operation and gives its result. -/
def binary (operator : String) (left right : Operand) (line : Nat) : Compile Operand := do
  match ← binaryResult operator left.kind right.kind with
  | some t =>
    let a ← temporalAddress (.value t)
    emit [.word operator, left.place, right.place, .num a]
    return ⟨.value t, .num a⟩
  | none => throw (.binaryTypes line operator (← named left.kind) (← named right.kind))

/-- An operator that associates to the right: its operands are the two on top of the stack. -/
def operateRight (operator : String) (line : Nat) : Compile Unit := do
  let right ← pop line
  let left ← pop line
  push (← binary operator left right line)

/-- Notes an operator of a chain after its first. -/
def chain (operator : String) : Compile Unit :=
  modify fun c => { c with chained := operator :: c.chained }

/-- Folds operands into a left one, each with its operator. -/
def foldLeft (line : Nat) : Operand → List (Operand × String) → Compile Operand
  | left, [] => return left
  | left, (right, operator) :: rest => do
    foldLeft line (← binary operator left right line) rest

/-- Compiles a complete chain, given its first operator. -/
def operateLeft (operator : String) (line : Nat) : Compile Unit := do
  chain operator
  let c ← get
  let operators := c.chained
  let n := operators.length
  match c.operands.drop n with
  | [] => throw (.noOperand line)
  | first :: below =>
    let rights := (c.operands.take n).reverse
    let result ← foldLeft line first (rights.zip operators)
    modify fun c => { c with chained := [], operands := result :: below }

/-- The type of a unary operation; none if it does not apply. -/
def unaryResult (operator : String) (k : Kind) : Compile (Option (UnOp × Ty)) :=
  match k.row? with
  | none => return none
  | some t =>
    match UnOp.ofSymbol? operator with
    | some o => return (o.result? t).map (o, ·)
    | none => throw (.noEntry operator)

/-- Compiles a unary operator. Only the code of its result type is kept. Increment and decrement
write to their operand, the others to a new cell. -/
def operateUnary (operator : String) (line : Nat) : Compile Unit := do
  let x ← pop line
  match ← unaryResult operator x.kind with
  | some (o, t) =>
    let k := Kind.bare t.code
    let place ← if o.updatesOperand then pure x.place else Field.num <$> temporalAddress k
    emit [.word o.mnemonic, x.place, place]
    push ⟨k, place⟩
  | none => throw (.unaryType line operator (← named x.kind))

end Symphony.Compile
