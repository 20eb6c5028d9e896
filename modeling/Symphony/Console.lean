/-!
# Coloured output

Text between the escape sequence of a colour and the one that resets it.
-/

namespace Symphony.Console

def reset : String := "\x1b[0m"

def red : String := "\x1b[91m"

def green : String := "\x1b[92m"

/-- Words with a separator between them and an ending after the last, all in a colour. -/
def colored (color : String) (args : List String) (separator ending : String) : String :=
  color ++ separator.intercalate args ++ ending ++ reset

/-- A line of words. -/
def line (color : String) (args : List String) : String :=
  colored color args " " "\n"

end Symphony.Console
