import Symphony.Compiler.Emit
import Symphony.Special

/-!
# Compiling calls

The arguments of a call are numbered and passed by `PARAM` quads, then the function is entered. Its
result is copied from the place where the function leaves it. While the function is still being
defined that place is unknown; such calls are completed by its `return`.
-/

namespace Symphony.Compile

/-- Starts a call of a function that exists. -/
def beginCall (f : Scope) (line : Nat) : Compile Unit := do
  if ((← get).function? f).isNone then throw (.unknownFunction line f)
  modify fun c => { c with called := f :: c.called }

/-- Starts a call of a special function. -/
def beginSpecial (f : Scope) : Compile Unit :=
  modify fun c => { c with called := f :: c.called }

/-- The call that was started last. -/
def popCalled : Compile Scope := do
  match (← get).called with
  | [] => throw .emptyStack
  | f :: rest =>
    modify fun c => { c with called := rest }
    return f

/-- Makes the operand on top of the stack an argument in front of those read before. -/
def readArgument (line : Nat) : Compile Unit := do
  let x ← pop line
  modify fun c => { c with arguments := x :: c.arguments }

def checkCount (f : Scope) (needed line : Nat) : Compile Unit := do
  let given := (← get).arguments.length
  if given ≠ needed then throw (.argumentCount line given f needed)

/-- Passes arguments to a function, starting with the given number. -/
def passArguments (f : Scope) (line : Nat) : Nat → List (Operand × Kind) → Compile Unit
  | _, [] => return
  | i, (x, k) :: rest => do
    if !x.kind.agrees k then
      let actual ← named x.kind
      throw (.argumentType line f actual i (← named k))
    emit [.word "PARAM", x.place, .num i]
    passArguments f line (i + 1) rest

/-- Ends a call of a user function. -/
def endCall (line : Nat) : Compile Unit := do
  let name ← popCalled
  match (← get).function? name with
  | none => throw (.noEntry name.text)
  | some f =>
    checkCount name f.parameterKinds.length line
    passArguments name line 1 ((← get).arguments.zip f.parameterKinds)
    emit [.word "GOSUB", .word name.text]
    modify fun c => { c with arguments := [] }
    match f.result with
    | none => return
    | some k =>
      let a ← variableAddress k ((← get).scope == none) 1
      push ⟨k, .num a⟩
      match f.returnPlace with
      | some place => emit [.word "=", place, .num a]
      | none =>
        modify fun c => { c with selfCalls := c.selfCalls ++ [(c.quads.size, a)] }
        emit [.word "="]

/-- Passes arguments to a special function, starting with the given number. -/
def passSpecial (f : Scope) (line : Nat) : Nat → List (Operand × List Ty) → Compile Unit
  | _, [] => return
  | i, (x, allowed) :: rest => do
    if !allowed.any fun t => x.kind.agrees (.value t) then
      throw (.specialArgumentType line f (← named x.kind) i (allowed.map Ty.name))
    emit [.word "PARAM", x.place, .num i]
    passSpecial f line (i + 1) rest

/-- Ends a call of a special function. -/
def endSpecial (line : Nat) : Compile Unit := do
  let name ← popCalled
  match name.bind Special.signature? with
  | none => throw (.noEntry name.text)
  | some s =>
    checkCount name s.parameters.length line
    passSpecial name line 1 ((← get).arguments.zip s.parameters)
    match s.result with
    | none => emit [.word name.text]
    | some t =>
      let a ← temporalAddress (.value t)
      emit [.word name.text, .num a]
      push ⟨.value t, .num a⟩
    modify fun c => { c with arguments := [] }

/-- Completes the calls that wait for the place of a result. -/
def completeSelfCalls (place : Field) : List (Nat × Int) → Compile Unit
  | [] => return
  | (i, a) :: rest => do
    complete i [place, .num a]
    completeSelfCalls place rest

/-- Returns the operand on top of the stack from the function being defined. -/
def giveBack (line : Nat) : Compile Unit := do
  let f := (← get).current
  if f.returnPlace.isSome then throw .returnTwice
  if (← get).scope == none then throw (.returnOutside line)
  let x ← pop line
  match f.result with
  | none => throw (.returnInVoid line)
  | some k =>
    if !x.kind.agrees k then
      let expected ← named k
      throw (.returnType line f.name expected (← named x.kind))
    modify (·.updateCurrent fun f => { f with returnPlace := some x.place })
    completeSelfCalls x.place (← get).selfCalls

end Symphony.Compile
