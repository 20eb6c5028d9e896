import Symphony.Attempt
import Symphony.Compiler.Rejection
import Symphony.PerTy
import Symphony.Quad

/-!
# The state of the compiler

Symbol table, operand stack, constants, emitted quads, and the stacks of what is still open. The
state outlives a rejection: what had been emitted before stays.
-/

namespace Symphony

/-- A typed operand: where its value will be at run time. -/
structure Operand where
  kind : Kind
  place : Field
deriving DecidableEq

/-- A declared variable. An array also has the type and number of its elements. -/
structure Variable where
  kind : Kind
  address : Int
  name : String
  elements : Option (Kind × Int)
deriving DecidableEq

/-- A function, or the main part. -/
structure Function where
  name : Scope
  /-- The type of the result; functions that return nothing have none. -/
  result : Option Kind
  /-- The quad at which the function starts. -/
  start : Int
  parameterKinds : List Kind
  parameterAddresses : List Int
  /-- The number of quads there were when the variables were declared. -/
  firstQuad : Option Nat
  /-- Where the result stands when the function ends. -/
  returnPlace : Option Field
  /-- The variables declared so far; those of a function are forgotten at its end. -/
  declared : List Variable
deriving DecidableEq

namespace Function

/-- A function of which nothing but the head is known. -/
def opened (result : Option Kind) (name : Scope) (start : Int) : Function :=
  ⟨name, result, start, [], [], none, none, []⟩

def find? (f : Function) (name : String) : Option Variable :=
  f.declared.find? (·.name == name)

/-- Adds a function. It takes the place of one that has its name. -/
def put (known : List Function) (f : Function) : List Function :=
  if known.any (·.name == f.name) then known.map fun g => if g.name = f.name then f else g
  else known ++ [f]

/-- Adds functions one after the other. -/
def putAll (known : List Function) (functions : List Function) : List Function :=
  functions.foldl put known

end Function

/-- The constants of one type, in the order of their first use, with their addresses. -/
abbrev Pool := List (Value × Int)

structure Compiler where
  counters : Counters := .initial
  constants : PerTy Pool := .ofFn fun _ => []
  quads : Array Quad := #[]
  /-- The operand stack, top first, as all stacks here. -/
  operands : List Operand := []
  /-- Quads that wait for a jump target, or that a loop jumps back to. -/
  jumps : List Nat := []
  /-- Functions whose arguments are being read. -/
  called : List Scope := []
  /-- Arguments read so far, first one first. -/
  arguments : List Operand := []
  /-- Operators of the current chain after its first, first one first: they are noted from the end
  of the chain. -/
  chained : List String := []
  /-- Calls made before the result place of the called function was known: the quad to complete and
  the address of its result, oldest first. -/
  selfCalls : List (Nat × Int) := []
  /-- Break jumps that wait for the end of a loop, oldest first. -/
  breaks : List Nat := []
  openLoops : Int := 0
  /-- The functions in the order of their definition; the first is the main part. -/
  functions : List Function := [.opened none none 0]
  scope : Scope := none
  /-- The index of the array element about to be assigned. -/
  offset : Option Operand := none
  /-- Whether the program has been recognised to its end, so that its quads can be written out. -/
  finished : Bool := false

/-- A compiler action: it may be rejected, and changes the state in any case. -/
abbrev Compile := Attempt Rejection Compiler

namespace Compiler

def function? (c : Compiler) (f : Scope) : Option Function :=
  c.functions.find? (·.name == f)

/-- The function being defined, or the main part. -/
def current (c : Compiler) : Function :=
  (c.function? c.scope).getD (.opened none c.scope 0)

/-- Changes the function being defined. -/
def updateCurrent (c : Compiler) (change : Function → Function) : Compiler :=
  { c with functions := c.functions.map fun f => if f.name = c.scope then change f else f }

/-- The variable a name denotes: one of the current function, else a global one. -/
def denoted? (c : Compiler) (name : String) : Option Variable :=
  (c.current.find? name).or ((c.function? none).bind (·.find? name))

end Compiler

end Symphony
