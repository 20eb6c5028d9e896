import Symphony.Compiler.Call
import Symphony.Compiler.Declare
import Symphony.Compiler.Jump
import Symphony.Compiler.Operate

/-!
# Compiler actions to measure with

Scripts of compiler actions that no source stands behind. `emission` performs every kind of action
a number of times; `refusals` provokes every kind of rejection once.
-/

namespace Symphony.Workload

open Compile

def integer (n : Int) : Compile Unit := pushConstant (.value .int) (.int n)

def decimal (x : Float) : Compile Unit := pushConstant (.value .dec) (.dec x)

def truth (b : Bool) : Compile Unit := pushConstant (.value .bool) (.bool b)

def character (c : Char) : Compile Unit := pushConstant (.value .char) (.str (String.singleton c))

def text (s : String) : Compile Unit := pushConstant (.value .str) (.str s)

/-- Makes the operand on top of the stack the index of the next assignment. -/
def selectElement (line : Nat) : Compile Unit := do
  let index ← pop line
  modify fun c => { c with offset := some index }

/-- Drops the operand on top of the stack. -/
def drop : Compile Unit := do
  let _ ← pop 1

/-- A function with a result, which is a constant. -/
def constantFunction (name : String) (params : List Declaration) (n : Int) : Compile Unit := do
  defineFunction (some (.value .int)) (some name) 1
  declareVariables params [] false 1
  integer n
  giveBack 1
  endFunction 1

/-- A call of a special function with integers as arguments, last one first. -/
def callSpecial (name : String) (args : List Int) : Compile Unit := do
  beginSpecial (some name)
  for n in args do
    integer n
    readArgument 1
  endSpecial 1

/-- Globals and a function for `emitRound`. -/
def emitHead : Compile Unit := do
  emit [.word "GOTO"]
  declareVariables []
    [⟨.value .int, "x", none⟩, ⟨.value .int, "y", none⟩,
      ⟨.value .int, "arr", some (.value .int, 8)⟩] true 1
  constantFunction "f" [⟨.value .int, "b", none⟩, ⟨.value .int, "a", none⟩] 7
  enterMain

/-- Operators, an assignment, array elements, a loop, a condition and calls. -/
def emitRound (i : Nat) : Compile Unit := do
  integer i
  integer (i + 1)
  operateLeft "+" 1
  integer 2
  integer 3
  chain "*"
  operateLeft "*" 1
  operateUnary "-" 1
  assign "x" 1
  integer (i % 8 : Nat)
  selectElement 1
  integer i
  assign "arr" 1
  integer (i % 8 : Nat)
  push (← access "arr" 1)
  operateUnary "++" 1
  drop
  markLoop
  truth true
  testCondition "while" 1
  countLoops 1
  breakLoop 1
  closeLoop
  countLoops (-1)
  truth false
  testCondition "if" 1
  elseBranch
  closeIf
  beginCall (some "f") 1
  integer 1
  readArgument 1
  integer 2
  readArgument 1
  endCall 1
  drop
  callSpecial "println" [i]
  callSpecial "random" []
  drop

/-- Emits a number of rounds and gives the number of quads. -/
def emission (rounds : Int) : Compile Nat := do
  emitHead
  for i in List.range rounds.toNat do
    emitRound i
  here

/-- Declarations, and code that is accepted. -/
def acceptedCode : Compile Unit := do
  emit [.word "GOTO"]
  declareVariables []
    [⟨.value .int, "x", none⟩, ⟨.value .int, "arr", some (.value .int, 4)⟩] true 1
  defineFunction none (some "vfun") 1
  declareVariables [] [] false 1
  endFunction 1
  defineFunction (some (.value .int)) (some "ifun") 1
  declareVariables [⟨.value .int, "n", none⟩] [] false 1
  push ⟨.value .int, .num ((← lookup "n" 1).address)⟩
  giveBack 1
  endFunction 1
  integer 1
  integer 2
  operateLeft "+" 1
  integer 3
  operateLeft "+" 1
  integer 4
  operateRight "*" 1
  operateUnary "-" 1
  assign "x" 1
  integer 0
  let _ ← access "arr" 1
  decimal 1.0
  decimal 2.0
  decimal 3.0
  chain "*"
  operateLeft "/" 1
  decimal 4.0
  operateRight "**" 1
  drop
  truth true
  truth false
  truth true
  chain "and"
  operateLeft "or" 1
  testCondition "if" 1
  elseBranch
  closeIf
  integer 0
  selectElement 1
  integer 5
  assign "arr" 1
  callSpecial "println" [1]

/-- Forgets the operands that a rejected action has left. -/
def forget : Compile Unit :=
  modify fun c => { c with operands := [], chained := [], arguments := [], offset := none }

/-- The message with which an action is rejected. -/
def refusal (x : Compile Unit) : Compile String := do
  forget
  let message ← tryCatch (do x; return "") fun r => return r.message
  forget
  return message

/-- Actions of which each is rejected. -/
def refused : List (Compile Unit) :=
  [ declareVariables [] [⟨.value .int, "x", none⟩] true 4,
    declareVariables [] [⟨.value .int, "arr", some (.value .int, 2)⟩] true 4,
    defineFunction none (some "vfun") 4,
    declareVariables [] [⟨.value .int, "more", some (.value .bool, 1)⟩] true 4,
    do let _ ← lookup "nope" 5,
    beginCall (some "nofunc") 5,
    do character 'c'; integer 1; operateRight "+" 6,
    do truth true; truth false; operateRight "**" 6,
    do integer 1; truth true; operateLeft "+" 6,
    do character 'c'; character 'd'; operateLeft "-" 6,
    do integer 1; operateLeft "+" 6,
    do truth true; operateUnary "++" 6,
    do text "s"; operateUnary "++" 6,
    do let _ ← pop 6,
    do truth true; assign "x" 7,
    do integer 1; assign "arr" 7,
    do truth true; selectElement 7; integer 1; assign "arr" 7,
    do integer 0; selectElement 7; integer 1; assign "x" 7,
    do truth true; let _ ← access "arr" 8,
    do integer 0; let _ ← access "x" 8,
    do integer 1; testCondition "if" 9,
    do beginCall (some "ifun") 10; endCall 10,
    do beginCall (some "ifun") 10; truth true; readArgument 10; endCall 10,
    do beginSpecial (some "sqrt"); endSpecial 10,
    do beginSpecial (some "floor"); integer 1; readArgument 10; endSpecial 10,
    breakLoop 11,
    giveBack 11,
    do defineFunction none (some "v2") 12; integer 1; giveBack 12,
    do defineFunction (some (.value .int)) (some "i2") 13; endFunction 13,
    do integer 1; giveBack 14; giveBack 14,
    do defineFunction (some (.value .int)) (some "i3") 14; truth true; giveBack 14,
    throw (.unexpected "bad token") ]

/-- The messages of all rejections, and the number of quads, on a new compiler. -/
def refusals : Compile (List String × Nat) := do
  acceptedCode
  let mut messages := #[]
  for x in refused do
    messages := messages.push (← refusal x)
  return (messages.toList, ← here)

end Symphony.Workload
