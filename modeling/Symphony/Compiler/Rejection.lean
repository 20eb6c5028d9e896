import Symphony.Token

/-!
# Why a source is rejected

A `Rejection` is the cause; `Rejection.message` is its wording, in one place. Types appear by their
names: where an operand has only a bare type code, the cause is `unnamedType` instead.
-/

namespace Symphony

/-- Functions are named; the main part is the function without a name. -/
abbrev Scope := Option String

/-- The name of a function in messages and quads. -/
def Scope.text : Scope → String
  | some name => name
  | none => "None"

inductive Rejection
  /-- A character with which no token starts. -/
  | illegal (c : Char)
  /-- An integer has too many digits to be read or written. -/
  | overlongInteger
  /-- A token that cannot stand where it does, by its description. -/
  | unexpected (what : String)
  | functionTwice (line : Nat) (f : Scope)
  | variableTwice (line : Nat) (name : String)
  | arrayTwice (line : Nat) (name : String)
  | unknownVariable (line : Nat) (name : String)
  | unknownFunction (line : Nat) (name : Scope)
  /-- A name or type code without an entry in the table it is looked up in. -/
  | noEntry (name : String)
  | sizeType (line : Nat) (actual : String)
  /-- An operand is missing, since only calls without a result leave none. -/
  | noOperand (line : Nat)
  | binaryTypes (line : Nat) (operator left right : String)
  | unaryType (line : Nat) (operator actual : String)
  | conditionType (line : Nat) (statement actual : String)
  | wholeArray (line : Nat)
  | targetIndexType (line : Nat) (actual : String)
  | indexType (line : Nat) (actual : String)
  | notArray (line : Nat) (name : String)
  | assignTypes (line : Nat) (right left : String)
  | argumentCount (line given : Nat) (f : Scope) (needed : Nat)
  | argumentType (line : Nat) (f : Scope) (actual : String) (number : Nat) (expected : String)
  | specialArgumentType (line : Nat) (f : Scope) (actual : String) (number : Nat)
    (allowed : List String)
  | breakOutside (line : Nat)
  | returnOutside (line : Nat)
  | returnInVoid (line : Nat)
  | returnTwice
  | returnMissing (line : Nat) (expected : String)
  | returnType (line : Nat) (f : Scope) (expected actual : String)
  /-- A message would have to name a bare type code. -/
  | unnamedType
  /-- Something was taken from an empty stack. -/
  | emptyStack
  /-- A jump was to be completed in a quad that does not exist. -/
  | noQuad
deriving DecidableEq

namespace Rejection

private def onLine (line : Nat) (text : String) : String :=
  "Error on line " ++ toString line ++ ": " ++ text

/-- The wording of a rejection. -/
def message : Rejection → String
  | illegal c => "Scanning error. Illegal character '" ++ String.singleton c ++ "'"
  | overlongInteger => "The integer has too many digits"
  | unexpected what => what
  | functionTwice line f =>
    onLine line ("you are defining your " ++ f.text ++ " function more than once")
  | variableTwice line name =>
    onLine line ("you are declaring your " ++ name ++ "  variable more than once")
  | arrayTwice line name =>
    onLine line ("you are declaring your " ++ name ++ " variable more than once")
  | unknownVariable line name =>
    onLine line ("You tried to use the variable " ++ name
      ++ ", but it was not declared beforehand. Check if you wrote the name correctly and if you"
      ++ " are trying to use a variable defined inside another function")
  | unknownFunction line name =>
    onLine line ("You tried to use the function " ++ name.text
      ++ ", but it was not defined beforehand. Check if you wrote the name correctly.")
  | noEntry name => Text.quoted name
  | sizeType line actual =>
    onLine line ("you are trying to declare an array size using a(n) " ++ actual
      ++ ", but you should use a(n) INT instead")
  | noOperand line =>
    onLine line "You can't use a void function here because it does not return a value"
  | binaryTypes line operator left right =>
    onLine line ("The " ++ operator ++ " operation cannot be used for types " ++ left ++ " and "
      ++ right)
  | unaryType line operator actual =>
    onLine line ("The " ++ operator ++ " operation cannot be used for type " ++ actual)
  | conditionType line statement actual =>
    onLine line ("The code inside your " ++ statement
      ++ " must receive a BOOL inside its parenthesis, but a(n) " ++ actual ++ " was found.")
  | wholeArray line =>
    onLine line ("You can't assign an array directly. You can, however, assign each element"
      ++ " individually using the '[]' symbols")
  | targetIndexType line actual =>
    onLine line ("you are trying to access an array using a(n) " ++ actual
      ++ ", but you should use a(n) INT")
  | indexType line actual =>
    onLine line ("you are trying to access an array using a(n) " ++ actual
      ++ ", but you should use a(n) INT instead")
  | notArray line name =>
    onLine line ("you tried to access your " ++ name ++ " variable, but it's not an array")
  | assignTypes line right left =>
    onLine line ("you are trying to assign a(n) " ++ right ++ " value to a(n) " ++ left ++ " type")
  | argumentCount line given f needed =>
    onLine line ("You are sending the wrong number of arguments (" ++ toString given ++ ") to "
      ++ f.text ++ ". It needs " ++ toString needed)
  | argumentType line f actual number expected =>
    onLine line ("Your call to " ++ f.text ++ " sent a(n) " ++ actual ++ " as the argument number "
      ++ toString number ++ ", but a(n) " ++ expected ++ " was expected")
  | specialArgumentType line f actual number allowed =>
    onLine line ("Your call to " ++ f.text ++ " sent a(n) " ++ actual ++ " as the argument number "
      ++ toString number ++ ", but one of these was expected: " ++ ", ".intercalate allowed)
  | breakOutside line => onLine line "You must be inside a while to use a break"
  | returnOutside line => onLine line "You cannot use return if you are not inside a function"
  | returnInVoid line =>
    onLine line ("This function was declared with a VOID return type, so it should not have a"
      ++ " return here")
  | returnTwice => "You cannot have multiple returns inside a function"
  | returnMissing line expected =>
    onLine line ("This function was supposed to return a(n) " ++ expected
      ++ ", but it does not return anything")
  | returnType line f expected actual =>
    onLine line ("Your " ++ f.text ++ " should return a(n) " ++ expected
      ++ ", but it tried to return a(n) " ++ actual)
  | unnamedType => "The type has no name"
  | emptyStack => "There is nothing left to take"
  | noQuad => "There is no such quad"

/-- What is printed on finding the cause on a line, before the message is. -/
def notice (line : Nat) : Rejection → String
  | illegal c =>
    "The system found a problem with how you wrote your program, so please find the character"
      ++ " sequence '" ++ String.singleton c ++ "' on line " ++ toString line
      ++ " and correct it.\n"
  | _ => ""

end Rejection

end Symphony
