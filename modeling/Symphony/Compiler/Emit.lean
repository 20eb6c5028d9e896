import Symphony.Compiler.State

/-!
# Emitting quads

The primitives of the compiler: emitting and completing quads, handing out addresses, and the
operand stack with its constants.
-/

namespace Symphony.Compile

/-- Appends a quad, if its numbers can be written. -/
def emit (fields : Quad) : Compile Unit :=
  -- A quad without fields is an empty line, so that a field added later follows a blank.
  let fields := if fields.isEmpty then [.word ""] else fields
  if fields.all Field.isWritable then
    modify fun c => { c with quads := c.quads.push fields }
  else throw .overlongInteger

/-- Adds fields at the end of a quad. -/
def complete (i : Nat) (fields : List Field) : Compile Unit := do
  if i < (← get).quads.size then
    if fields.all Field.isWritable then
      modify fun c => { c with quads := c.quads.modify i (· ++ fields) }
    else throw .overlongInteger
  else throw .noQuad

/-- The index of the next quad. -/
def here : Compile Nat :=
  return (← get).quads.size

/-- Reserves addresses of a kind in a sector and gives the first of them. -/
def allocate (s : Sector) (k : Kind) (reserved : Int) : Compile Int := do
  match k.ty? with
  | none => throw (.noEntry ((k.name?).getD (toString k.code)))
  | some t =>
    let row := (← get).counters.get s
    let a := row.get t
    modify fun c => { c with counters := c.counters.set s (row.set t (a + reserved)) }
    return a

/-- Addresses for variables: global ones, or local to a function. -/
def variableAddress (k : Kind) (isGlobal : Bool) (reserved : Int) : Compile Int :=
  allocate (if isGlobal then .globals else .locals) k reserved

/-- A new cell for an intermediate result. -/
def temporalAddress (k : Kind) : Compile Int :=
  allocate .temporals k 1

def push (o : Operand) : Compile Unit :=
  modify fun c => { c with operands := o :: c.operands }

/-- Takes the operand on top of the stack. -/
def pop (line : Nat) : Compile Operand := do
  match (← get).operands with
  | [] => throw (.noOperand line)
  | o :: rest =>
    modify fun c => { c with operands := rest }
    return o

/-- Pushes a constant. Equal constants of one type share the cell of the first. -/
def pushConstant (k : Kind) (v : Value) : Compile Unit := do
  match k.ty? with
  | none => throw (.noEntry ((k.name?).getD (toString k.code)))
  | some t =>
    let pool := (← get).constants.get t
    match pool.find? (·.1.equal v) with
    | some (_, a) => push ⟨k, .num a⟩
    | none =>
      let a ← allocate .constants k 1
      modify fun c => { c with constants := c.constants.set t (pool ++ [(v, a)]) }
      push ⟨k, .num a⟩

/-- The name of a kind, for a message. -/
def named (k : Kind) : Compile String :=
  match k.name? with
  | some name => return name
  | none => throw .unnamedType

end Symphony.Compile
