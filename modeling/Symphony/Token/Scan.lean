import Symphony.Token

/-!
# Scanning

A source is cut into pieces from the left: tokens, and text that is skipped. `Piece.first?` gives
the piece a text starts with; the rules are tried in a fixed order, and where none applies the
character is illegal. Every piece holds its own text, so that nothing is lost: the texts of the
pieces, followed by what was not scanned, make up the source.

Lines are counted by the line feeds between tokens. Those inside comments, characters and texts do
not count.
-/

namespace Symphony

/-- A piece of a source. -/
inductive Piece
  | token (t : Token) (text : List Char)
  | blanks (text : List Char)
  | newlines (text : List Char)
  | lineComment (text : List Char)
  | blockComment (text : List Char)
  /-- An integer with too many digits. -/
  | overlong (text : List Char)
deriving DecidableEq

namespace Piece

def text : Piece → List Char
  | token _ text => text
  | blanks text => text
  | newlines text => text
  | lineComment text => text
  | blockComment text => text
  | overlong text => text

end Piece

namespace Scan

def isLetter (c : Char) : Bool :=
  c.isAlpha || c == '_'

def isWordChar (c : Char) : Bool :=
  isLetter c || c.isDigit

/-- The text up to and including the first end of a block comment. -/
def throughClose : List Char → Option (List Char)
  | [] => none
  | '*' :: '/' :: _ => some ['*', '/']
  | c :: cs => (throughClose cs).map (c :: ·)

def blockComment? : List Char → Option Piece
  | '/' :: '*' :: cs => (throughClose cs).map fun t => .blockComment ('/' :: '*' :: t)
  | _ => none

def word? : List Char → Option Piece
  | [] => none
  | c :: cs =>
    if isLetter c then
      let w := c :: cs.takeWhile isWordChar
      some (.token (Token.ofWord (String.ofList w)) w)
    else none

/-- An optional sign: whether it is negative, its text, and what follows. -/
def sign : List Char → Bool × List Char × List Char
  | '+' :: cs => (false, ['+'], cs)
  | '-' :: cs => (true, ['-'], cs)
  | cs => (false, [], cs)

/-- The number that a row of digits spells. -/
def number (ds : List Char) : Nat :=
  ds.foldl (fun n c => 10 * n + (c.toNat - '0'.toNat)) 0

def decimal? (cs : List Char) : Option Piece :=
  let (negative, s, cs) := sign cs
  let whole := cs.takeWhile Char.isDigit
  match cs.dropWhile Char.isDigit with
  | '.' :: rest =>
    let places := rest.takeWhile Char.isDigit
    if places.isEmpty then none
    else
      let x := Number.ofDecimal negative (number (whole ++ places)) (-places.length)
      some (.token (.decVal x) (s ++ whole ++ '.' :: places))
  | _ => none

def integer? (cs : List Char) : Option Piece :=
  let (negative, s, cs) := sign cs
  let ds := cs.takeWhile Char.isDigit
  if ds.isEmpty then none
  else if Text.digitLimit < ds.length then some (.overlong (s ++ ds))
  else
    let n := number ds
    some (.token (.intVal (if negative then -(n : Int) else n)) (s ++ ds))

def character? : List Char → Option Piece
  | '\'' :: c :: '\'' :: _ =>
    if c = '\'' then none else some (.token (.charVal c) ['\'', c, '\''])
  | _ => none

def string? : List Char → Option Piece
  | '"' :: cs =>
    let t := cs.takeWhile (· != '"')
    match cs.dropWhile (· != '"') with
    | [] => none
    | _ :: _ => some (.token (.strVal (String.ofList t)) ('"' :: t ++ ['"']))
  | _ => none

def newlines? (cs : List Char) : Option Piece :=
  let t := cs.takeWhile (· == '\n')
  if t.isEmpty then none else some (.newlines t)

def lineComment? : List Char → Option Piece
  | '/' :: '/' :: cs => some (.lineComment ('/' :: '/' :: cs.takeWhile (· != '\n')))
  | _ => none

def isBlank (c : Char) : Bool :=
  c == ' ' || c == '\t'

def blanks? (cs : List Char) : Option Piece :=
  let t := cs.takeWhile isBlank
  if t.isEmpty then none else some (.blanks t)

/-- Symbols of two characters come before those of one. -/
def symbol? : List Char → Option Piece
  | '*' :: '*' :: _ => some (.token (.symbol .power) ['*', '*'])
  | '+' :: '+' :: _ => some (.token (.symbol .increment) ['+', '+'])
  | '-' :: '-' :: _ => some (.token (.symbol .decrement) ['-', '-'])
  | '>' :: '=' :: _ => some (.token (.symbol .ge) ['>', '='])
  | '<' :: '=' :: _ => some (.token (.symbol .le) ['<', '='])
  | ',' :: _ => some (.token (.symbol .comma) [','])
  | ';' :: _ => some (.token (.symbol .semicolon) [';'])
  | '(' :: _ => some (.token (.symbol .lparen) ['('])
  | ')' :: _ => some (.token (.symbol .rparen) [')'])
  | '{' :: _ => some (.token (.symbol .lbrace) ['{'])
  | '}' :: _ => some (.token (.symbol .rbrace) ['}'])
  | '[' :: _ => some (.token (.symbol .lbracket) ['['])
  | ']' :: _ => some (.token (.symbol .rbracket) [']'])
  | '=' :: _ => some (.token (.symbol .assign) ['='])
  | '+' :: _ => some (.token (.symbol .plus) ['+'])
  | '-' :: _ => some (.token (.symbol .minus) ['-'])
  | '*' :: _ => some (.token (.symbol .times) ['*'])
  | '/' :: _ => some (.token (.symbol .slash) ['/'])
  | '>' :: _ => some (.token (.symbol .gt) ['>'])
  | '<' :: _ => some (.token (.symbol .lt) ['<'])
  | _ => none

/-- The rules, in the order in which they are tried. -/
def rules : List (List Char → Option Piece) :=
  [blanks?, blockComment?, word?, decimal?, integer?, character?, string?, newlines?, lineComment?,
    symbol?]

end Scan

/-- The piece a text starts with. -/
def Piece.first? (cs : List Char) : Option Piece :=
  Scan.rules.findSome? (· cs)

/-- Why scanning stopped. -/
inductive Stop
  | finished
  | illegal (c : Char)
  | overlong
deriving DecidableEq

/-- The pieces of a source, in order, and why there are no more. -/
structure Pieces where
  list : List Piece
  stop : Stop

/-- Cuts a text of at most `fuel` characters into pieces. -/
def Pieces.scanUpTo : Nat → List Char → Pieces
  | 0, _ => ⟨[], .finished⟩
  | _ + 1, [] => ⟨[], .finished⟩
  | fuel + 1, c :: cs =>
    match Piece.first? (c :: cs) with
    | none => ⟨[], .illegal c⟩
    | some (.overlong t) => ⟨[.overlong t], .overlong⟩
    | some p =>
      let rest := scanUpTo fuel ((c :: cs).drop p.text.length)
      ⟨p :: rest.list, rest.stop⟩

/-- Cuts a source into pieces. -/
def Pieces.scan (cs : List Char) : Pieces :=
  scanUpTo cs.length cs

/-- The lexemes of pieces that start at a line and a position, and the line after them. -/
def Piece.place : Nat → Nat → List Piece → List Lexeme × Nat
  | line, _, [] => ([], line)
  | line, pos, p :: ps =>
    match p with
    | .token t text =>
      let (ls, last) := place line (pos + text.length) ps
      (⟨t, line, pos⟩ :: ls, last)
    | .newlines text => place (line + text.length) (pos + text.length) ps
    | p => place line (pos + p.text.length) ps

/-- The lexemes of a source, the line on which scanning stopped, and why it stopped. -/
structure Lexemes where
  list : List Lexeme
  stop : Stop
  line : Nat

/-- Scans a source whose first line has the given number. -/
def Lexemes.scan (line : Nat) (source : String) : Lexemes :=
  let pieces := Pieces.scan source.toList
  let (list, last) := Piece.place line 0 pieces.list
  ⟨list, pieces.stop, last⟩

end Symphony
