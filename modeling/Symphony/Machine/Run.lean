import Symphony.Machine.Operation
import Symphony.Machine.Routine

/-!
# Playing a program

`Program.step` executes the quad at an index. A run ends at an empty line, or at an index without a
quad; then the input must be used up. `Machine.play` repeats steps up to a limit.
-/

namespace Symphony

/-- Executes one quad, which is not empty, and gives the index of the next one if it is not the
following one. -/
def Program.execute (p : Program) (i : Int) (name : String) (fields : List String) :
    Exec (Option Int) :=
  match Operation.ofName? name with
  | some o => do
    o.perform fields
    return none
  | none =>
    match Routine.ofName? name with
    | some r => r.perform p i name fields
    | none => throw (.unsupported name)

/-- All input lines must have been read at the end. -/
def Exec.finish : Exec Unit := do
  let m ← get
  if m.inputCount ≠ m.inputs.size then throw .inputMismatch

/-- What one step of a run comes to. -/
inductive StepResult
  | next (i : Int) (m : Machine)
  | halted (m : Machine)
  | failed (f : Fault) (m : Machine)

/-- One step of a run at an index. -/
def Program.step (p : Program) (i : Int) (m : Machine) : StepResult :=
  match p.quad? i with
  | some (name :: fields) =>
    match (p.execute i name fields).runFrom m with
    | (.ok next, m) => .next (next.getD (i + 1)) m
    | (.error f, m) => .failed f m
  | _ =>
    match Exec.finish.runFrom m with
    | (.ok _, m) => .halted m
    | (.error f, m) => .failed f m

/-- How a run ends. -/
inductive Outcome
  | finished
  | fault (f : Fault)
  /-- The limit was reached before this index was executed. -/
  | unfinished (i : Int)
deriving DecidableEq

/-- Runs a program from an index for at most the given number of steps. -/
def Program.run (p : Program) : Nat → Int → Machine → Outcome × Machine
  | 0, i, m => (.unfinished i, m)
  | limit + 1, i, m =>
    match p.step i m with
    | .next i m => p.run limit i m
    | .halted m => (.finished, m)
    | .failed f m => (.fault f, m)

/-- The machine at the start of a program: constants in place, output empty, input unread. What an
earlier program left in the other sectors is still there. -/
def Machine.prepare (m : Machine) (constants : Bank) (inputs : Array String) : Machine :=
  { m with
    memory := { m.memory with constants }
    prints := #[]
    notes := #[]
    inputs
    inputCount := 0 }

/-- Plays a program from its first quad. -/
def Machine.play (m : Machine) (p : Program) (constants : Bank) (inputs : Array String)
    (limit : Nat) : Outcome × Machine :=
  p.run limit 0 (m.prepare constants inputs)

end Symphony
