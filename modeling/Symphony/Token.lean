import Symphony.Text.Quoted
import Symphony.Ty
import Symphony.Value

/-!
# Tokens

The words and symbols of the language, with the name of their class, their value and their
spelling. A `Lexeme` is a token with the line and the position at which it was found.
-/

namespace Symphony

/-- Reserved words. -/
inductive Keyword
  | program
  | fun_
  | void
  | type (t : Ty)
  | if_
  | else_
  | elseif
  | while_
  | break_
  | return_
  | mod
  | equals
  | and
  | or
  | not
deriving DecidableEq

namespace Keyword

def all : List Keyword :=
  [program, fun_, void, type .int, type .char, type .str, type .bool, type .dec, if_, else_, elseif,
    while_, break_, return_, mod, equals, and, or, not]

def spelling : Keyword → String
  | program => "program"
  | fun_ => "fun"
  | void => "void"
  | type .int => "int"
  | type .char => "char"
  | type .str => "str"
  | type .bool => "bool"
  | type .dec => "dec"
  | if_ => "if"
  | else_ => "else"
  | elseif => "elseif"
  | while_ => "while"
  | break_ => "break"
  | return_ => "return"
  | mod => "mod"
  | equals => "equals"
  | and => "and"
  | or => "or"
  | not => "not"

/-- The class name of a reserved word is the word in capitals. -/
def className : Keyword → String
  | program => "PROGRAM"
  | fun_ => "FUN"
  | void => "VOID"
  | type t => t.name
  | if_ => "IF"
  | else_ => "ELSE"
  | elseif => "ELSEIF"
  | while_ => "WHILE"
  | break_ => "BREAK"
  | return_ => "RETURN"
  | mod => "MOD"
  | equals => "EQUALS"
  | and => "AND"
  | or => "OR"
  | not => "NOT"

def ofSpelling? (s : String) : Option Keyword :=
  all.find? (·.spelling == s)

theorem ofSpelling?_spelling (k : Keyword) : ofSpelling? k.spelling = some k := by
  cases k with
  | type t => cases t <;> decide
  | _ => decide

end Keyword

/-- Punctuation and operators. -/
inductive Symbol
  | power
  | increment
  | decrement
  | ge
  | le
  | comma
  | semicolon
  | lparen
  | rparen
  | lbrace
  | rbrace
  | lbracket
  | rbracket
  | assign
  | plus
  | minus
  | times
  | slash
  | gt
  | lt
deriving DecidableEq

namespace Symbol

def spelling : Symbol → String
  | power => "**"
  | increment => "++"
  | decrement => "--"
  | ge => ">="
  | le => "<="
  | comma => ","
  | semicolon => ";"
  | lparen => "("
  | rparen => ")"
  | lbrace => "\x7b"
  | rbrace => "\x7d"
  | lbracket => "["
  | rbracket => "]"
  | assign => "="
  | plus => "+"
  | minus => "-"
  | times => "*"
  | slash => "/"
  | gt => ">"
  | lt => "<"

/-- Symbols of one character are their own class; the others have a name. -/
def className : Symbol → String
  | power => "EXPONENTIATION"
  | increment => "INCREMENT"
  | decrement => "DECREMENT"
  | ge => "GREATER_EQUAL_THAN"
  | le => "LESS_EQUAL_THAN"
  | s => s.spelling

end Symbol

/-- The names of the functions that are part of the language. -/
def specialNames : List String :=
  ["print", "println", "read", "sqrt", "log", "random", "little_star", "A", "B", "C", "D", "E", "F",
    "G", "concat", "length", "copy", "get", "to_str", "input", "floor", "ceil"]

inductive Token
  | keyword (k : Keyword)
  | symbol (s : Symbol)
  | ident (name : String)
  | special (name : String)
  | intVal (n : Int)
  | decVal (x : Float)
  | charVal (c : Char)
  | strVal (s : String)
  | boolVal (b : Bool)
deriving DecidableEq

namespace Token

/-- The class of a token. -/
def className : Token → String
  | keyword k => k.className
  | symbol s => s.className
  | ident _ => "ID"
  | special _ => "SPECIAL_ID"
  | intVal _ => "INT_VAL"
  | decVal _ => "DEC_VAL"
  | charVal _ => "CHAR_VAL"
  | strVal _ => "STR_VAL"
  | boolVal _ => "BOOL_VAL"

/-- The value of a token: that of a literal number, character or text, else its spelling. -/
def value : Token → Value
  | keyword k => .str k.spelling
  | symbol s => .str s.spelling
  | ident name => .str name
  | special name => .str name
  | intVal n => .int n
  | decVal x => .dec x
  | charVal c => .str (String.singleton c)
  | strVal s => .str s
  | boolVal b => .str (if b then "true" else "false")

/-- The token a word stands for. -/
def ofWord (w : String) : Token :=
  if specialNames.contains w then special w
  else if w == "true" then boolVal true
  else if w == "false" then boolVal false
  else
    match Keyword.ofSpelling? w with
    | some k => keyword k
    | none => ident w

end Token

/-- A token, its line, and its position counted in characters from the start of the source. -/
structure Lexeme where
  token : Token
  line : Nat
  position : Nat
deriving DecidableEq

/-- A value as it is shown in a description: texts are quoted. -/
def Value.described : Value → String
  | .str s => Text.quoted s
  | .int n => toString n
  | .dec x => Number.decimalLayout.text x
  | .bool b => if b then "True" else "False"
  | .complex z => z.text

/-- The description of a lexeme in messages. -/
def Lexeme.description (l : Lexeme) : String :=
  "LexToken(" ++ ",".intercalate [l.token.className, l.token.value.described, toString l.line,
    toString l.position] ++ ")"

end Symphony
