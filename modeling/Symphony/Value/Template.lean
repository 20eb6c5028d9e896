import Symphony.Number.Places
import Symphony.Text.Quoted
import Symphony.Value

/-!
# Templates

A text is a template: the remainder of a text by a value is the text with the value filled into its
hole. A hole starts with a percent sign and ends with the letter of a conversion; between them stand
flags, a width and a precision. Two percent signs stand for one. The value must be used exactly
once.
-/

namespace Symphony.Template

/-- What stands between the percent sign and the letter of a hole. -/
structure Hole where
  flags : List Char
  width : Nat
  /-- Whether padding goes to the right; a flag can ask for it as well. -/
  toRight : Bool
  precision : Option Nat
  conversion : Char

namespace Hole

def has (h : Hole) (flag : Char) : Bool := h.flags.contains flag

def leftAligned (h : Hole) : Bool := h.toRight || h.has '-'

end Hole

/-- A part of a template being read: what is left of it, and whether the value has been used. -/
structure Cursor where
  rest : List Char
  used : Bool

/-- The value as a number in place of a width or a precision, which uses it up. -/
def starred (v : Value) (used : Bool) (bound : Nat) : Except Fault Int :=
  if used then .error .mismatch
  else
    match v.int? with
    | none => .error .mismatch
    | some n => if -(bound : Int) ≤ n ∧ n < bound then .ok n else .error .overflow

/-- A row of digits as a number below a bound; without digits it is zero. -/
def digits (cs : List Char) (bound : Nat) : Except Fault (Nat × List Char) :=
  let n := (cs.takeWhile Char.isDigit).foldl (fun n c => 10 * n + (c.toNat - '0'.toNat)) 0
  if n < bound then .ok (n, cs.dropWhile Char.isDigit) else .error .malformed

/-- The width: its size, and whether it is negative. -/
def readWidth (v : Value) (c : Cursor) : Except Fault (Nat × Bool × Cursor) := do
  match c.rest with
  | '*' :: rest =>
    let n ← starred v c.used (twoPow 63)
    return (n.natAbs, n < 0, ⟨rest, true⟩)
  | rest =>
    let (n, rest) ← digits rest (twoPow 63)
    return (n, false, ⟨rest, c.used⟩)

def readPrecision (v : Value) (c : Cursor) : Except Fault (Option Nat × Cursor) := do
  match c.rest with
  | '.' :: '*' :: rest =>
    let n ← starred v c.used (twoPow 31)
    return (some n.toNat, ⟨rest, true⟩)
  | '.' :: rest =>
    let (n, rest) ← digits rest (twoPow 31)
    return (some n, ⟨rest, c.used⟩)
  | _ => return (none, c)

/-- One letter that is allowed before the conversion and has no meaning. -/
def skipSize : List Char → List Char
  | 'h' :: cs => cs
  | 'l' :: cs => cs
  | 'L' :: cs => cs
  | cs => cs

/-- Reads a hole, from behind its percent sign. -/
def readHole (v : Value) (c : Cursor) : Except Fault (Hole × Cursor) := do
  if c.rest.head? = some '(' then throw .mismatch
  let isFlag := fun ch => ['-', '+', ' ', '#', '0'].contains ch
  let flags := c.rest.takeWhile isFlag
  let (width, toRight, c) ← readWidth v ⟨c.rest.dropWhile isFlag, c.used⟩
  let (precision, c) ← readPrecision v c
  match skipSize c.rest with
  | [] => throw .malformed
  | conversion :: rest => return (⟨flags, width, toRight, precision, conversion⟩, ⟨rest, c.used⟩)

/-! ## Conversions -/

/-- A converted value: its sign, a mark that stands before padding with zeros, and the rest. -/
structure Piece where
  sign : List Char
  mark : List Char
  body : List Char
  /-- Whether it may be padded with zeros. -/
  numeric : Bool

/-- Splits the sign off a number, or puts the one that the flags ask for. -/
def signed (h : Hole) (mark body : List Char) : Piece :=
  match body with
  | '-' :: rest => ⟨['-'], mark, rest, true⟩
  | _ => ⟨if h.has '+' then ['+'] else if h.has ' ' then [' '] else [], mark, body, true⟩

/-- The integer that a number is rounded to toward zero. -/
def truncated : Value → Except Fault Int
  | .dec x =>
    if x.isNaN then .error .notNumber
    else if x.isInf then .error .overflow
    else .ok (if x < 0 then Number.ceil x else Number.floor x)
  | v =>
    match v.int? with
    | some n => .ok n
    | none => .error .mismatch

def whole (v : Value) : Except Fault Int :=
  match v.int? with
  | some n => .ok n
  | none => .error .mismatch

def real : Value → Except Fault Float
  | .dec x => .ok x
  | v => (whole v).bind Value.toDec

/-- Digits filled up to the precision, with a minus sign if the number is negative. -/
def integerBody (h : Hole) (n : Int) (ds : List Char) : List Char :=
  let ds := List.replicate (h.precision.getD 0 - ds.length) '0' ++ ds
  if n < 0 then '-' :: ds else ds

def decimalPiece (h : Hole) (v : Value) : Except Fault Piece := do
  let n ← truncated v
  if Text.tooLong ≤ n.natAbs then throw .tooManyDigits
  return signed h [] (integerBody h n (Nat.toDigits 10 n.natAbs))

/-- A number in base eight or sixteen, marked by the letter if the flags ask for it. -/
def radixPiece (h : Hole) (base : Nat) (letter : Char) (v : Value) : Except Fault Piece := do
  let n ← whole v
  let mark := if h.has '#' then ['0', letter] else []
  let ds := Nat.toDigits base n.natAbs
  let ds := if letter.isUpper then ds.map Char.toUpper else ds
  return signed h mark (integerBody h n ds)

def realPiece (h : Hole) (form : Number.Form) (upper : Bool) (v : Value) : Except Fault Piece := do
  let x ← real v
  let cs := Number.placesText form (h.precision.getD 6) (h.has '#') x
  return signed h [] (if upper then cs.map Char.toUpper else cs)

/-- A character, or the one with a given code. -/
def characterPiece (v : Value) : Except Fault Piece := do
  match v with
  | .str s => if s.length = 1 then return ⟨[], [], s.toList, false⟩ else throw .mismatch
  | v =>
    let n ← whole v
    if 0 ≤ n ∧ n < 0x110000 then return ⟨[], [], [Char.ofNat n.toNat], false⟩
    else throw .overflow

/-- A text, cut to the precision. -/
def textPiece (h : Hole) (s : String) : Piece :=
  let cs := match h.precision with
    | some n => s.toList.take n
    | none => s.toList
  ⟨[], [], cs, false⟩

/-- A value as it is described. -/
def described : Value → Except Fault String
  | .str s => .ok (Text.quoted s)
  | v => v.text

/-- A description in which every character outside ASCII is written by its code. -/
def ascii (s : String) : String :=
  String.ofList (s.toList.flatMap fun c =>
    if c.toNat < 0x80 then [c]
    else if c.toNat < 0x100 then '\\' :: 'x' :: Text.hexadecimal 2 c.toNat
    else if c.toNat < 0x10000 then '\\' :: 'u' :: Text.hexadecimal 4 c.toNat
    else '\\' :: 'U' :: Text.hexadecimal 8 c.toNat)

def convert (h : Hole) (v : Value) : Except Fault Piece :=
  match h.conversion with
  | 'd' => decimalPiece h v
  | 'i' => decimalPiece h v
  | 'u' => decimalPiece h v
  | 'o' => radixPiece h 8 'o' v
  | 'x' => radixPiece h 16 'x' v
  | 'X' => radixPiece h 16 'X' v
  | 'e' => realPiece h .scientific false v
  | 'E' => realPiece h .scientific true v
  | 'f' => realPiece h .fixed false v
  | 'F' => realPiece h .fixed true v
  | 'g' => realPiece h .general false v
  | 'G' => realPiece h .general true v
  | 'c' => characterPiece v
  | 's' => v.text.map (textPiece h)
  | 'r' => (described v).map (textPiece h)
  | 'a' => (described v).map fun s => textPiece h (ascii s)
  | _ => .error .malformed

/-- A piece padded to the width of its hole. -/
def pad (h : Hole) (p : Piece) : List Char :=
  let size := p.sign.length + p.mark.length + p.body.length
  let gap := h.width - size
  if h.leftAligned then p.sign ++ p.mark ++ p.body ++ List.replicate gap ' '
  else if h.has '0' && p.numeric then p.sign ++ p.mark ++ List.replicate gap '0' ++ p.body
  else List.replicate gap ' ' ++ p.sign ++ p.mark ++ p.body

/-- Fills a template of at most `fuel` characters. -/
def fillFrom (v : Value) : Nat → Cursor → Except Fault (List Char)
  | 0, c => if c.used then .ok [] else .error .mismatch
  | fuel + 1, c =>
    match c.rest with
    | [] => if c.used then .ok [] else .error .mismatch
    | '%' :: '%' :: rest => return '%' :: (← fillFrom v fuel { c with rest })
    | '%' :: rest => do
      let (h, c) ← readHole v ⟨rest, c.used⟩
      if c.used then throw .mismatch
      let p ← convert h v
      return pad h p ++ (← fillFrom v fuel { c with used := true })
    | ch :: rest => return ch :: (← fillFrom v fuel { c with rest })

/-- The template with the value filled in. -/
def fill (template : String) (v : Value) : Except Fault String :=
  (fillFrom v template.length ⟨template.toList, false⟩).map String.ofList

end Symphony.Template
