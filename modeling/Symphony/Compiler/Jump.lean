import Symphony.Compiler.Emit

/-!
# Compiling jumps

A jump forward is emitted without its target, and its quad is remembered. The target is added when
it is known. A loop also remembers where its condition starts.
-/

namespace Symphony.Compile

/-- Remembers a quad. -/
def pushJump (i : Nat) : Compile Unit :=
  modify fun c => { c with jumps := i :: c.jumps }

/-- The quad remembered last. -/
def popJump : Compile Nat := do
  match (← get).jumps with
  | [] => throw .emptyStack
  | i :: rest =>
    modify fun c => { c with jumps := rest }
    return i

/-- Makes a quad jump to the next one. -/
def landHere (i : Nat) : Compile Unit := do
  complete i [.num (← here)]

/-- Jumps if the condition on top of the stack does not hold. -/
def testCondition (statement : String) (line : Nat) : Compile Unit := do
  let x ← pop line
  if x.kind.agrees (.value .bool) then
    pushJump (← here)
    emit [.word "GOTOF", x.place]
  else throw (.conditionType line statement (← named x.kind))

/-- Ends the conditional block whose jump is remembered last. -/
def closeIf : Compile Unit := do
  landHere (← popJump)

/-- Ends a conditional block after which another one follows: the first jumps over the second. -/
def elseBranch : Compile Unit := do
  let test ← popJump
  pushJump (← here)
  emit [.word "GOTO"]
  landHere test

/-- Remembers where the condition of a loop starts. -/
def markLoop : Compile Unit := do
  pushJump (← here)

/-- Completes a list of quads with the index of the next one. -/
def landAll : List Nat → Compile Unit
  | [] => return
  | i :: rest => do
    landHere i
    landAll rest

/-- Ends a loop: back to its condition, and out of it from the test and from all open breaks. -/
def closeLoop : Compile Unit := do
  let test ← popJump
  let condition ← popJump
  emit [.word "GOTO", .num condition]
  landHere test
  landAll (← get).breaks
  modify fun c => { c with breaks := [] }

/-- Counts loops in and out. -/
def countLoops (by_ : Int) : Compile Unit :=
  modify fun c => { c with openLoops := c.openLoops + by_ }

/-- Leaves a loop. -/
def breakLoop (line : Nat) : Compile Unit := do
  if (← get).openLoops = 0 then throw (.breakOutside line)
  let i ← here
  modify fun c => { c with breaks := c.breaks ++ [i] }
  emit [.word "GOTO"]

/-- Completes the first quad, which jumps over the functions. -/
def enterMain : Compile Unit :=
  landHere 0

end Symphony.Compile
