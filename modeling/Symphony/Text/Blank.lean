/-!
# Blanks, words and lines

A text is cut into lines at line feeds only, and a line into words at blanks of any script.
-/

namespace Symphony.Text

/-- White space of any script, and the ASCII separators from file separator to unit separator. -/
def isBlank (c : Char) : Bool :=
  let n := c.toNat
  (9 ≤ n && n ≤ 13) || (28 ≤ n && n ≤ 32) || n == 0x85 || n == 0xA0 || n == 0x1680
    || (0x2000 ≤ n && n ≤ 0x200A) || n == 0x2028 || n == 0x2029 || n == 0x202F || n == 0x205F
    || n == 0x3000

/-- The pieces of a text between its line feeds. There is always at least one. -/
def lines (s : String) : List String :=
  (s.toList.splitOn '\n').map String.ofList

/-- The maximal runs of a text without blanks. -/
def words (s : String) : List String :=
  ((s.toList.splitOnP isBlank).filter fun w => !w.isEmpty).map String.ofList

/-- Line ends of other systems, carriage return with or without line feed, become line feeds. -/
def unixLines : List Char → List Char
  | [] => []
  | '\r' :: '\n' :: cs => '\n' :: unixLines cs
  | c :: cs => (if c = '\r' then '\n' else c) :: unixLines cs

end Symphony.Text
