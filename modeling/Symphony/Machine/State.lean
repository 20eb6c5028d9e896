import Symphony.Compiler.State
import Symphony.Machine.Memory

/-!
# The state of the machine

Memory, the stack of suspended calls, the parameters handed over so far, and what comes in and goes
out. The state survives a fault, and may be played on by another program.
-/

namespace Symphony

structure Machine where
  memory : Memory := .empty
  /-- The local cells of suspended callers, innermost first. -/
  records : List Bank := []
  /-- The quads from which functions were entered, innermost first. -/
  returns : List Int := []
  /-- Operands handed over for the next call, last one first. -/
  parameters : List String := []
  prints : Array String := #[]
  notes : Array String := #[]
  inputs : Array String := #[]
  /-- How many input lines have been read. -/
  inputCount : Nat := 0
  /-- The supply of random numbers. -/
  randoms : Nat → Value := fun _ => .dec 0.5
  /-- How many random numbers have been drawn. -/
  randomCount : Nat := 0

/-- A machine with empty memory and no suspended calls. Input and output stay. -/
def Machine.cleared (m : Machine) : Machine :=
  { m with memory := .empty, records := [], returns := [], parameters := [] }

/-- A machine action: it may fail, and changes the state in any case. -/
abbrev Exec := Attempt Fault Machine

/-- Lines of fields, and the functions that calls refer to. -/
structure Program where
  code : Array (List String)
  functions : List Function

namespace Program

/-- A program from its text. -/
def ofText (text : String) (functions : List Function) : Program :=
  ⟨((Text.lines text).map Text.words).toArray, functions⟩

def function? (p : Program) (name : String) : Option Function :=
  p.functions.find? (·.name == some name)

/-- The quad at an index. A negative index counts from the end. -/
def quad? (p : Program) (i : Int) : Option (List String) :=
  if 0 ≤ i then p.code[i.toNat]?
  else if -(p.code.size : Int) ≤ i then p.code[(p.code.size + i).toNat]?
  else none

end Program

namespace Exec

/-- The value of an operand. -/
def value (field : String) : Exec Value := do
  Attempt.ofExcept ((← get).memory.load (.ofField field))

/-- Stores a value in the cell of an operand. -/
def store (v : Value) (field : String) : Exec Unit := do
  let memory ← Attempt.ofExcept ((← get).memory.store (.ofField field) v)
  modify fun m => { m with memory }

@[simp] theorem runFrom_value (field : String) (m : Machine) :
    (value field).runFrom m = (m.memory.load (.ofField field), m) := by
  simp [value]

theorem runFrom_store (v : Value) (field : String) (m : Machine) :
    (store v field).runFrom m =
      match m.memory.store (.ofField field) v with
      | .ok memory => (.ok (), { m with memory })
      | .error f => (.error f, m) := by
  unfold store
  cases h : m.memory.store (.ofField field) v <;> simp [h]

/-- The operand handed over last. -/
def popParameter : Exec String := do
  match (← get).parameters with
  | [] => throw .absent
  | p :: rest =>
    modify fun m => { m with parameters := rest }
    return p

/-- The value of the operand handed over last. -/
def popValue : Exec Value := do
  value (← popParameter)

/-- The integer a field spells. -/
def integer (field : String) : Exec Int :=
  match Text.readInteger? field with
  | some n => return n
  | none => throw (.notInteger field)

end Exec

end Symphony
