/-!
# What can go wrong while quads are played

A `Fault` is the cause of a failure. `Fault.message` is its wording, in one place.
-/

namespace Symphony

inductive Fault
  /-- An operation met a value of the wrong kind, a wrong number of fields, or an address outside
  all sectors. -/
  | mismatch
  /-- There is nothing at a position: a missing field, an empty stack, a place outside a text. -/
  | absent
  /-- An array index outside its array. -/
  | outOfBounds (index : String) (low high : Int)
  /-- A cell was read before it was written. -/
  | uninitialized
  /-- A function name that was never defined. -/
  | unknownName (name : String)
  /-- A quad whose operation the machine does not have. -/
  | unsupported (operation : String)
  /-- More or fewer input lines than the program reads. -/
  | inputMismatch
  /-- A division with divisor zero; `divideBy` is the same with the dividend named. -/
  | zeroDivisor
  | divideBy (dividend : String)
  /-- A function was applied outside its domain. -/
  | domain
  /-- An integer has too many digits to be read or written. -/
  | tooManyDigits
  /-- A field that should be an integer is not. -/
  | notInteger (field : String)
  /-- A decimal that is no number was rounded to an integer. -/
  | notNumber
  /-- A hole in a template cannot be read. -/
  | malformed
  /-- A result is out of range. -/
  | overflow
  /-- A pointer that never comes to an address. -/
  | endless
deriving DecidableEq

namespace Fault

/-- The wording of a fault. -/
def message : Fault → String
  | mismatch => "The operation does not apply to these values"
  | absent => "There is nothing at this position"
  | outOfBounds index low high =>
    "Index out of bounds: " ++ index ++ ". This one should be greater than or equal to "
      ++ toString low ++ " and smaller than " ++ toString high
  | uninitialized =>
    "Sorry, but you tried to use a variable before assignment. Please check your program"
  | unknownName name => name
  | unsupported operation => "This operation isn't supported yet (" ++ operation ++ ")"
  | inputMismatch => "The wrong amount of input lines was submitted"
  | zeroDivisor => "The divisor is zero"
  | divideBy dividend =>
    "Oops! You tried to divide " ++ dividend ++ " by 0. Please correct your program"
  | domain => "math domain error"
  | tooManyDigits => "The integer has too many digits"
  | notInteger field => "This is not an integer: " ++ field
  | notNumber => "There is no number to round"
  | malformed => "The template has a malformed hole"
  | overflow => "The result is out of range"
  | endless => "The pointer has no address"

/-- Faults by which an operation tells that a position holds nothing. -/
def isPosition : Fault → Bool
  | absent => true
  | outOfBounds .. => true
  | _ => false

end Fault

end Symphony
