import Symphony.Compiler.Emit
import Symphony.Event

/-!
# Compiling declarations and uses of names

Variables belong to the function being defined, or to the main part. A name used in a function
denotes its own variable if it has one, else the global one. Local names are forgotten at the end
of the function; the function itself stays.
-/

namespace Symphony.Compile

/-- Starts the definition of a function. -/
def defineFunction (result : Option Kind) (f : Scope) (line : Nat) : Compile Unit := do
  if ((← get).function? f).isSome then throw (.functionTwice line f)
  modify fun c =>
    { c with
      scope := f
      functions := c.functions ++ [.opened result f c.quads.size] }

/-- Adds a variable to the function being defined. -/
def addVariable (v : Variable) : Compile Unit :=
  modify (·.updateCurrent fun f => { f with declared := f.declared ++ [v] })

/-- Declares one variable. -/
def declare (d : Declaration) (isGlobal : Bool) (line : Nat) : Compile Unit := do
  let twice := ((← get).current.find? d.name).isSome
  match d.extent with
  | none =>
    if twice then throw (.variableTwice line d.name)
    let a ← variableAddress d.kind isGlobal 1
    addVariable ⟨d.kind, a, d.name, none⟩
  | some (sizeKind, size) =>
    if twice then throw (.arrayTwice line d.name)
    if !sizeKind.agrees (.value .int) then throw (.sizeType line (← named sizeKind))
    let a ← variableAddress d.kind isGlobal size
    addVariable ⟨.array, a, d.name, some (d.kind, size)⟩

/-- Declares parameters, the last one first, as variables and as part of the signature. -/
def declareParameters (isGlobal : Bool) (line : Nat) : List Declaration → Compile Unit
  | [] => return
  | d :: rest => do
    modify (·.updateCurrent fun f => { f with parameterKinds := d.kind :: f.parameterKinds })
    declare d isGlobal line
    modify (·.updateCurrent fun f =>
      { f with
        parameterAddresses :=
          ((f.find? d.name).map Variable.address).toList ++ f.parameterAddresses })
    declareParameters isGlobal line rest

def declareAll (isGlobal : Bool) (line : Nat) : List Declaration → Compile Unit
  | [] => return
  | d :: rest => do
    declare d isGlobal line
    declareAll isGlobal line rest

/-- Declares the parameters and variables of a function, or the global variables. -/
def declareVariables (params vars : List Declaration) (isGlobal : Bool) (line : Nat) :
    Compile Unit := do
  modify fun c => c.updateCurrent fun f => { f with firstQuad := some c.quads.size }
  declareParameters isGlobal line params
  declareAll isGlobal line vars

/-- Ends the definition of a function: one with a result must have returned it. -/
def endFunction (line : Nat) : Compile Unit := do
  let f := (← get).current
  match f.result, f.returnPlace with
  | some k, none => throw (.returnMissing line (← named k))
  | _, _ =>
    modify fun c => { c.updateCurrent (fun f => { f with declared := [] }) with scope := none }
    emit [.word "ENDPROC", .word f.name.text]

/-- The variable a name denotes. -/
def lookup (name : String) (line : Nat) : Compile Variable := do
  match (← get).denoted? name with
  | some v => return v
  | none => throw (.unknownVariable line name)

/-- Checks an index and points at the element of an array. -/
def element (base : Int) (elements : Kind × Int) (index : Field) : Compile Operand := do
  emit [.word "VER", index, .num 0, .num elements.2]
  let a ← temporalAddress elements.1
  emit [.word "ACCESS", .num base, index, .num a]
  return ⟨elements.1, .pointer a⟩

/-- An array element as an operand; its index is on top of the stack. -/
def access (name : String) (line : Nat) : Compile Operand := do
  let index ← pop line
  if !index.kind.agrees (.value .int) then throw (.indexType line (← named index.kind))
  let v ← lookup name line
  match v.elements with
  | none => throw (.notArray line name)
  | some elements => element v.address elements index.place

/-- The target of an assignment: a variable, or the selected element of an array. -/
def target (v : Variable) (name : String) (line : Nat) : Compile Operand := do
  match (← get).offset with
  | none =>
    if v.kind.agrees .array then throw (.wholeArray line)
    return ⟨v.kind, .num v.address⟩
  | some index =>
    modify fun c => { c with offset := none }
    if !index.kind.agrees (.value .int) then throw (.targetIndexType line (← named index.kind))
    match v.elements with
    | none => throw (.notArray line name)
    | some elements => element v.address elements index.place

/-- Assigns the operand on top of the stack. -/
def assign (name : String) (line : Nat) : Compile Unit := do
  let v ← lookup name line
  let left ← target v name line
  let right ← pop line
  if left.kind.agrees right.kind then emit [.word "=", right.place, left.place]
  else
    let actual ← named right.kind
    throw (.assignTypes line actual (← named left.kind))

end Symphony.Compile
