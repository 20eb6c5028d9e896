import Symphony.Text.Integer

/-!
# Quads

A quad is an operation and its operands, written as one line of fields with blanks between them.
Jumps and the results of recursive calls are completed later, by fields added at the end.
-/

namespace Symphony

/-- A field of a quad: a number, a pointer to the cell that holds an address, or any other text. -/
inductive Field
  | num (n : Int)
  | pointer (address : Int)
  | word (s : String)
deriving DecidableEq

def Field.text : Field → String
  | num n => toString n
  | pointer address => "&" ++ toString address
  | word s => s

/-- A number can be written unless it has too many digits. All else is text already. -/
def Field.isWritable : Field → Bool
  | num n => n.natAbs < Text.tooLong
  | _ => true

abbrev Quad := List Field

/-- The line of a quad. -/
def Quad.text (q : Quad) : String :=
  " ".intercalate (q.map Field.text)

/-- The text of a program: one line for each quad. -/
def Quad.program (qs : Array Quad) : String :=
  "\n".intercalate (qs.toList.map Quad.text)

end Symphony
