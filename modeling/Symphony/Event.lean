import Symphony.Operator
import Symphony.Value

/-!
# Parse events

Recognising a program does not build a tree. It produces a sequence of events, in the order in
which the compiler has to act on them: operands as they are read, operators once their operands
are complete, marks where jumps start and end.
-/

namespace Symphony

/-- A declared name. An array has an extent: the type of the size and the size itself. -/
structure Declaration where
  kind : Kind
  name : String
  extent : Option (Kind × Int)
deriving DecidableEq

inductive Event
  /-- The global variables, all at once. -/
  | declareGlobals (vars : List Declaration)
  /-- The functions are complete and the main part begins. -/
  | enterMain
  /-- The program is complete. -/
  | finish
  | defineFunction (result : Option Ty) (name : String)
  | declareLocals (params vars : List Declaration)
  | endFunction
  | constant (t : Ty) (v : Value)
  /-- The size of an array has been read and is not an operand. -/
  | dropSize
  | useVariable (name : String)
  | useElement (name : String)
  /-- The index of the array element to be assigned is complete. -/
  | selectElement
  | assign (name : String)
  | power
  /-- An operator of a chain after the first, last one first. -/
  | chain (o : BinOp)
  /-- The first operator of a chain; the whole chain is complete. -/
  | fold (o : BinOp)
  | unary (o : UnOp)
  | breakLoop
  | giveBack
  | beginCall (name : String)
  | endCall (name : String)
  | beginSpecial (name : String)
  | endSpecial (name : String)
  /-- An argument, last one first. -/
  | argument
  | testIf
  | closeIf
  | elseBranch
  | markLoop
  | testLoop
  | closeLoop
  | leaveLoop
deriving DecidableEq

end Symphony
