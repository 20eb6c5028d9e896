import Symphony.Number.Power
import Symphony.Text.Blank

/-!
# Integers as text

`readInteger?` reads an optional sign and decimal digits of any script, with single underscores
between digits and blanks around. Integers of more than `digitLimit` digits are neither read nor
written.
-/

namespace Symphony.Text

/-- The largest number of digits an integer may have to be read or written. -/
def digitLimit : Nat := 4300

/-- The least natural number with too many digits. -/
@[irreducible] def tooLong : Nat := tenPow digitLimit

/-- The zeros of all scripts but ASCII; the decimal digits of a script are consecutive. -/
def scriptZeros : List Nat :=
  [0x660, 0x6F0, 0x7C0, 0x966, 0x9E6, 0xA66, 0xAE6, 0xB66, 0xBE6, 0xC66, 0xCE6, 0xD66, 0xDE6,
   0xE50, 0xED0, 0xF20, 0x1040, 0x1090, 0x17E0, 0x1810, 0x1946, 0x19D0, 0x1A80, 0x1A90, 0x1B50,
   0x1BB0, 0x1C40, 0x1C50, 0xA620, 0xA8D0, 0xA900, 0xA9D0, 0xA9F0, 0xAA50, 0xABF0, 0xFF10,
   0x104A0, 0x10D30, 0x11066, 0x110F0, 0x11136, 0x111D0, 0x112F0, 0x11450, 0x114D0, 0x11650,
   0x116C0, 0x11730, 0x118E0, 0x11950, 0x11C50, 0x11D50, 0x11DA0, 0x16A60, 0x16AC0, 0x16B50,
   0x1D7CE, 0x1D7D8, 0x1D7E2, 0x1D7EC, 0x1D7F6, 0x1E140, 0x1E2F0, 0x1E950, 0x1FBF0]

/-- The value of a decimal digit. -/
def digit? (c : Char) : Option Nat :=
  if '0'.toNat ≤ c.toNat && c.toNat ≤ '9'.toNat then some (c.toNat - '0'.toNat)
  else (scriptZeros.find? fun z => z ≤ c.toNat && c.toNat ≤ z + 9).map (c.toNat - ·)

/-- Reads digits on top of a number `acc` of `count` digits. An underscore stands only between
two digits; `inside` says that a digit has just been read. -/
def readDigits? (acc count : Nat) (inside : Bool) : List Char → Option Nat
  | [] => if inside then some acc else none
  | c :: cs =>
    if c = '_' then
      if inside then readDigits? acc count false cs else none
    else
      match digit? c with
      | none => none
      | some d =>
        if count < digitLimit then readDigits? (acc * 10 + d) (count + 1) true cs else none

/-- Blanks that may surround an integer: the ASCII separators do not. -/
def isPadding (c : Char) : Bool :=
  isBlank c && !(28 ≤ c.toNat && c.toNat ≤ 31)

/-- A text without the padding at both ends. -/
def trimPadding (cs : List Char) : List Char :=
  ((cs.dropWhile isPadding).reverse.dropWhile isPadding).reverse

/-- An optional sign, then digits. -/
def readSigned? : List Char → Option Int
  | '-' :: cs => (readDigits? 0 0 false cs).map fun n => -(n : Int)
  | '+' :: cs => (readDigits? 0 0 false cs).map Int.ofNat
  | cs => (readDigits? 0 0 false cs).map Int.ofNat

/-- The integer a text spells. -/
def readInteger? (s : String) : Option Int :=
  readSigned? (trimPadding s.toList)

/-- The decimal text of an integer, if it is not too long. -/
def writeInteger? (n : Int) : Option String :=
  if n.natAbs < tooLong then some (toString n) else none

end Symphony.Text
