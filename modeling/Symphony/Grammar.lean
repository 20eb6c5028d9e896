import Symphony.Event
import Symphony.Token

/-!
# The grammar, as goals

Recognition is predictive. A stack of goals says what is still to come, and the goal on top looks
at one token: it takes the token and leaves further goals in its place, or is done without it, or
rejects it. Both of the first two may produce events.

A goal that is done checks that the token can follow it (`Follow`), so an event happens only if
the next token is one that could continue some program at that place. A few goals act without
looking; they stand where only one continuation exists.

An expression has four levels of chains, from products to the connectives, under an optional sign;
powers bind least and associate to the right. A chain is a first operand and a tail of operators
and operands of the next level.
-/

namespace Symphony

/-- The tokens that can follow a construct; the end of the source is `none`. -/
inductive Follow
  /-- After an operand. -/
  | factor
  /-- After a chain of products, of sums, of comparisons, of connectives. -/
  | product
  | sum
  | relation
  | logic
  | expression
  /-- After a declared name. -/
  | declarator
  /-- After the global declarations, after a function, and after all of them. -/
  | globals
  | functions
  /-- After the local declarations. -/
  | locals
  /-- After the first statement position of the main part, of a block, and after a statement. -/
  | mainEnd
  | blockEnd
  | statementsEnd
  /-- After a whole conditional or loop. -/
  | statement
  /-- After a block: as `statement`, or a further branch. -/
  | block
  /-- Where an expression starts. -/
  | operand
deriving DecidableEq

namespace Token

/-- Tokens that close an expression. -/
def closesExpression : Token → Bool
  | symbol .rparen => true
  | symbol .comma => true
  | symbol .semicolon => true
  | symbol .rbracket => true
  | _ => false

def isPower : Token → Bool
  | symbol .power => true
  | _ => false

/-- The connective a token stands for, as all operators by level. -/
def connective? : Token → Option BinOp
  | keyword .or => some .or
  | keyword .and => some .and
  | _ => none

def comparison? : Token → Option BinOp
  | symbol .lt => some .lt
  | symbol .gt => some .gt
  | symbol .le => some .le
  | symbol .ge => some .ge
  | keyword .equals => some .equals
  | _ => none

def additive? : Token → Option BinOp
  | symbol .plus => some .add
  | symbol .minus => some .sub
  | _ => none

def multiplicative? : Token → Option BinOp
  | symbol .times => some .mul
  | symbol .slash => some .div
  | keyword .mod => some .mod
  | _ => none

/-- The sign or update operator a token stands for in front of an operand. -/
def sign? : Token → Option UnOp
  | symbol .plus => some .plus
  | symbol .minus => some .minus
  | _ => none

def update? : Token → Option UnOp
  | symbol .increment => some .increment
  | symbol .decrement => some .decrement
  | _ => none

def startsStatement : Token → Bool
  | keyword .return_ => true
  | keyword .break_ => true
  | keyword .if_ => true
  | keyword .while_ => true
  | symbol .increment => true
  | symbol .decrement => true
  | ident _ => true
  | special _ => true
  | _ => false

def startsExpression : Token → Bool
  | symbol .lparen => true
  | symbol .plus => true
  | symbol .minus => true
  | symbol .increment => true
  | symbol .decrement => true
  | keyword .not => true
  | intVal _ => true
  | decVal _ => true
  | charVal _ => true
  | strVal _ => true
  | boolVal _ => true
  | ident _ => true
  | special _ => true
  | _ => false

end Token

/-- Whether a token, or the end of the source, can follow. -/
def Follow.allows (f : Follow) (t : Option Token) : Bool :=
  match f, t with
  | globals, none | functions, none | mainEnd, none | statementsEnd, none | statement, none
  | block, none => true
  | _, none => false
  | factor, some t =>
    t.closesExpression || t.isPower || t.connective?.isSome || t.comparison?.isSome
      || t.additive?.isSome || t.multiplicative?.isSome
  | product, some t =>
    t.closesExpression || t.isPower || t.connective?.isSome || t.comparison?.isSome
      || t.additive?.isSome
  | sum, some t =>
    t.closesExpression || t.isPower || t.connective?.isSome || t.comparison?.isSome
  | relation, some t => t.closesExpression || t.isPower || t.connective?.isSome
  | logic, some t => t.closesExpression || t.isPower
  | expression, some t => t.closesExpression
  | declarator, some t => t == .symbol .comma || t == .symbol .semicolon
  | globals, some t => t.startsStatement || t == .keyword .fun_
  | functions, some t => t.startsStatement
  | locals, some t => t.startsStatement || t == .symbol .rbrace
  | mainEnd, some _ => false
  | blockEnd, some t => t == .symbol .rbrace
  | statementsEnd, some t => t == .symbol .rbrace
  | statement, some t => t.startsStatement || t == .symbol .rbrace
  | block, some t =>
    t.startsStatement || t == .symbol .rbrace || t == .keyword .else_ || t == .keyword .elseif
  | operand, some t => t.startsExpression

/-- The four levels of operator chains, tightest first. -/
inductive Level
  | product
  | sum
  | relation
  | logic
deriving DecidableEq

namespace Level

/-- The operator of this level that a token stands for. -/
def operator? : Level → Token → Option BinOp
  | product => Token.multiplicative?
  | sum => Token.additive?
  | relation => Token.comparison?
  | logic => Token.connective?

/-- What can follow a chain of this level. -/
def follow : Level → Follow
  | product => .product
  | sum => .sum
  | relation => .relation
  | logic => .logic

end Level

/-- Where variables are declared: globally, or in a function with the parameters read so far, the
last one first. -/
inductive Site
  | program
  | function (params : List Declaration)
deriving DecidableEq

namespace Site

def follow : Site → Follow
  | program => .globals
  | function _ => .locals

def event : Site → List Declaration → Event
  | program, vars => .declareGlobals vars
  | function params, vars => .declareLocals params vars

end Site

/-- What is still to be recognised. -/
inductive Goal
  /-- One given token. -/
  | expect (t : Token)
  /-- Any identifier. -/
  | anyName
  /-- An event that happens without looking at the next token. -/
  | act (e : Event)
  /-- An event that happens if the next token can follow. -/
  | actIf (f : Follow) (e : Event)
  /-- Nothing, if the next token can follow. -/
  | check (f : Follow)
  /-- Groups of declared names. Within a group the names come last first, after those of the
  earlier groups. -/
  | declarations (site : Site) (vars : List Declaration)
  | declarator (site : Site) (vars : List Declaration) (t : Ty) (names : List Declaration)
  | declared (site : Site) (vars : List Declaration) (t : Ty) (names : List Declaration)
    (name : String)
  | arraySize (site : Site) (vars : List Declaration) (t : Ty) (names : List Declaration)
    (name : String)
  | moreNames (site : Site) (vars : List Declaration) (t : Ty) (names : List Declaration)
  /-- Function definitions. -/
  | functions
  | resultType
  | functionName (result : Option Ty)
  | parameters
  | parameterType (params : List Declaration)
  | parameterName (params : List Declaration) (t : Ty)
  | moreParameters (params : List Declaration)
  /-- Statements up to a token of the given class. -/
  | statements (f : Follow)
  /-- The rest of a statement that starts with a name. -/
  | nameStatement (name : String)
  /-- The branches after the first block of a conditional. -/
  | branches
  /-- One more branch after a branch. -/
  | moreBranches
  | expression
  /-- An expression without sign and powers. -/
  | unsigned
  /-- An operand of a chain. -/
  | operandOf (l : Level)
  | factor
  /-- The operators of a chain after its first operand, and after a further one. -/
  | tail (l : Level)
  | chain (l : Level)
  | powerTail
  /-- The rest of an operand that starts with a name; only some may be calls. -/
  | reference (name : String) (callable : Bool)
  /-- A variable or an array element after an update operator. -/
  | updatable
  | arguments
  | moreArguments
deriving DecidableEq

/-- How a goal answers a token. -/
inductive Reaction
  /-- The token is taken; the goals take this goal's place. -/
  | shift (events : List Event) (goals : List Goal)
  /-- The goal is done and the token remains. -/
  | done (events : List Event)
  | reject
deriving DecidableEq

namespace Goal

def sym (s : Symbol) : Goal := expect (.symbol s)

/-! ## Expressions -/

/-- The arguments of a call and its end; the opening parenthesis is taken. -/
def callRest (e : Event) : List Goal :=
  [arguments, sym .rparen, actIf .factor e]

def specialCall (name : String) : List Goal :=
  act (.beginSpecial name) :: sym .lparen :: callRest (.endSpecial name)

/-- An update operator in front of a variable; the operator is taken. -/
def updateRest (o : UnOp) : List Goal :=
  [updatable, actIf .factor (.unary o)]

/-- What follows the first token of an operand. -/
def afterFactor (t : Token) : Option (List Goal) :=
  match t with
  | .intVal n => some [actIf .factor (.constant .int (.int n))]
  | .decVal x => some [actIf .factor (.constant .dec (.dec x))]
  | .charVal c => some [actIf .factor (.constant .char (.str (String.singleton c)))]
  | .strVal s => some [actIf .factor (.constant .str (.str s))]
  | .boolVal b => some [actIf .factor (.constant .bool (.bool b))]
  | .ident name => some [reference name true]
  | .special name => some (specialCall name)
  | .symbol .lparen => some [expression, sym .rparen, check .factor]
  | t => t.update?.map updateRest

/-- What follows the first token of an operand of a chain. Only an operand of a sum can be a
negation. -/
def afterOperand (l : Level) (t : Token) : Option (List Goal) :=
  match l with
  | .product => afterFactor t
  | _ =>
    let tails := match l with
      | .relation => [tail .sum]
      | .logic => [tail .sum, tail .relation]
      | _ => []
    if t = .keyword .not then some (factor :: actIf .product (.unary .not) :: tails)
    else (afterFactor t).map fun goals => goals ++ tail .product :: tails

/-- What follows the first token of an expression without sign and powers. -/
def afterUnsigned (t : Token) : Option (List Goal) :=
  (afterOperand .logic t).map (· ++ [tail .logic])

/-- What follows the first token of an expression. -/
def afterExpression (t : Token) : Option (List Goal) :=
  match t.sign? with
  | some o => some [unsigned, actIf .logic (.unary o), powerTail]
  | none => (afterUnsigned t).map (· ++ [powerTail])

/-- Takes the token if goals for what follows it exist. -/
def shiftIf : Option (List Goal) → Reaction
  | some goals => .shift [] goals
  | none => .reject

def doneIf (f : Follow) (t : Option Token) (events : List Event) : Reaction :=
  if f.allows t then .done events else .reject

theorem doneIf_eq_done {f : Follow} {t : Option Token} {evs es : List Event}
    (h : doneIf f t evs = .done es) : es = evs := by
  unfold doneIf at h
  split at h <;> cases h
  rfl

theorem doneIf_ne_shift {f : Follow} {t : Option Token} {evs es : List Event} {gs : List Goal} :
    doneIf f t evs ≠ .shift es gs := by
  unfold doneIf
  split <;> simp

theorem shiftIf_eq_shift {gs? : Option (List Goal)} {evs : List Event} {gs : List Goal}
    (h : shiftIf gs? = .shift evs gs) : evs = [] ∧ gs? = some gs := by
  cases gs? with
  | none => cases h
  | some gs =>
    cases h
    exact ⟨rfl, rfl⟩

theorem shiftIf_ne_done {gs? : Option (List Goal)} {es : List Event} :
    shiftIf gs? ≠ .done es := by
  cases gs? <;> simp [shiftIf]

/-! ## Statements -/

/-- A block with its braces. -/
def blockGoals : List Goal :=
  [sym .lbrace, statements .blockEnd, sym .rbrace, check .block]

/-- A condition between parentheses. -/
def conditionGoals (e : Event) : List Goal :=
  [expression, act e, sym .rparen]

/-- A last branch; its keyword is taken. -/
def elseGoals : List Goal :=
  act .elseBranch :: blockGoals ++ [actIf .block .closeIf]

/-- A further branch with a condition; its keyword is taken. -/
def elseifGoals : List Goal :=
  [act .elseBranch, sym .lparen] ++ conditionGoals .testIf ++ blockGoals
    ++ [branches, actIf .block .closeIf]

def ifGoals : List Goal :=
  sym .lparen :: conditionGoals .testIf ++ blockGoals ++ [branches]

def whileGoals : List Goal :=
  [sym .lparen, actIf .operand .markLoop] ++ conditionGoals .testLoop ++ blockGoals
    ++ [actIf .statement .closeLoop, actIf .statement .leaveLoop]

/-- What follows the first token of a statement, up to the next statement. -/
def afterStatement (t : Token) : Option (List Goal) :=
  match t with
  | .keyword .return_ => some [expression, act .giveBack, sym .semicolon]
  | .keyword .break_ => some [act .breakLoop, sym .semicolon]
  | .keyword .if_ => some ifGoals
  | .keyword .while_ => some whileGoals
  | .ident name => some [nameStatement name, sym .semicolon]
  | .special name => some (specialCall name ++ [sym .semicolon])
  | t => t.update?.map fun o => updateRest o ++ [sym .semicolon]

/-! ## Declarations -/

def scalar (t : Ty) (name : String) : Declaration := ⟨.value t, name, none⟩

def array (t : Ty) (name : String) (n : Int) : Declaration :=
  ⟨.value t, name, some (.value .int, n)⟩

/-- The body of a function; the closing parenthesis of its parameters is taken. -/
def bodyGoals (params : List Declaration) : List Goal :=
  [sym .lbrace, declarations (.function params) [], statements .blockEnd, sym .rbrace,
    actIf .globals .endFunction, functions]

/-- A comma or a semicolon after a declared name. -/
def afterName (site : Site) (vars : List Declaration) (t : Ty) (names : List Declaration) :
    Token → Reaction
  | .symbol .comma => .shift [] [declarator site vars t names]
  | .symbol .semicolon => .shift [] [declarations site (vars ++ names)]
  | _ => .reject

/-- A whole program. -/
def programGoals : List Goal :=
  [expect (.keyword .program), anyName, sym .semicolon, declarations .program [], functions,
    actIf .functions .enterMain, statements .mainEnd, act .finish]

/-! ## Reactions -/

/-- How a goal answers a token. -/
def reactTo (t : Token) : Goal → Reaction
  | expect u => if t = u then .shift [] [] else .reject
  | anyName =>
    match t with
    | .ident _ => .shift [] []
    | _ => .reject
  | act e => .done [e]
  | actIf f e => doneIf f (some t) [e]
  | check f => doneIf f (some t) []
  | declarations site vars =>
    match t with
    | .keyword (.type ty) => .shift [] [declarator site vars ty []]
    | t => doneIf site.follow (some t) [site.event vars]
  | declarator site vars ty names =>
    match t with
    | .ident name => .shift [] [declared site vars ty names name]
    | _ => .reject
  | declared site vars ty names name =>
    match t with
    | .symbol .lbracket => .shift [] [arraySize site vars ty names name]
    | t => afterName site vars ty (scalar ty name :: names) t
  | arraySize site vars ty names name =>
    match t with
    | .intVal n =>
      .shift []
        [actIf .factor (.constant .int (.int n)), sym .rbracket, actIf .declarator .dropSize,
          moreNames site vars ty (array ty name n :: names)]
    | _ => .reject
  | moreNames site vars ty names => afterName site vars ty names t
  | functions =>
    match t with
    | .keyword .fun_ => .shift [] [resultType]
    | t => doneIf .functions (some t) []
  | resultType =>
    match t with
    | .keyword (.type ty) => .shift [] [functionName (some ty)]
    | .keyword .void => .shift [] [functionName none]
    | _ => .reject
  | functionName result =>
    match t with
    | .ident name => .shift [] [act (.defineFunction result name), sym .lparen, parameters]
    | _ => .reject
  | parameters =>
    match t with
    | .symbol .rparen => .shift [] (bodyGoals [])
    | .keyword (.type ty) => .shift [] [parameterName [] ty]
    | _ => .reject
  | parameterType params =>
    match t with
    | .keyword (.type ty) => .shift [] [parameterName params ty]
    | _ => .reject
  | parameterName params ty =>
    match t with
    | .ident name => .shift [] [moreParameters (scalar ty name :: params)]
    | _ => .reject
  | moreParameters params =>
    match t with
    | .symbol .rparen => .shift [] (bodyGoals params)
    | .symbol .comma => .shift [] [parameterType params]
    | _ => .reject
  | statements f =>
    match afterStatement t with
    | some goals => .shift [] (goals ++ [statements .statementsEnd])
    | none => doneIf f (some t) []
  | nameStatement name =>
    match t with
    | .symbol .lparen => .shift [.beginCall name] (callRest (.endCall name))
    | .symbol .assign => .shift [] [expression, act (.assign name)]
    | .symbol .lbracket =>
      .shift []
        [expression, sym .rbracket, act .selectElement, sym .assign, expression,
          act (.assign name)]
    | _ => .reject
  | branches =>
    match t with
    | .keyword .else_ => .shift [] (elseGoals ++ [moreBranches])
    | .keyword .elseif => .shift [] (elseifGoals ++ [moreBranches])
    | t => doneIf .statement (some t) [.closeIf]
  | moreBranches =>
    match t with
    | .keyword .else_ => .shift [] elseGoals
    | .keyword .elseif => .shift [] elseifGoals
    | t => doneIf .statement (some t) []
  | expression => shiftIf (afterExpression t)
  | unsigned => shiftIf (afterUnsigned t)
  | operandOf l => shiftIf (afterOperand l t)
  | factor => shiftIf (afterFactor t)
  | tail l =>
    match l.operator? t with
    | some o => .shift [] [operandOf l, chain l, actIf l.follow (.fold o)]
    | none => doneIf l.follow (some t) []
  | chain l =>
    match l.operator? t with
    | some o => .shift [] [operandOf l, chain l, actIf l.follow (.chain o)]
    | none => doneIf l.follow (some t) []
  | powerTail =>
    if t.isPower then .shift [] [expression, actIf .expression .power]
    else doneIf .expression (some t) []
  | reference name callable =>
    match t with
    | .symbol .lbracket =>
      .shift [] [expression, sym .rbracket, actIf .factor (.useElement name)]
    | .symbol .lparen =>
      if callable then .shift [.beginCall name] (callRest (.endCall name)) else .reject
    | t => doneIf .factor (some t) [.useVariable name]
  | updatable =>
    match t with
    | .ident name => .shift [] [reference name false]
    | _ => .reject
  | arguments =>
    if t = .symbol .rparen then .done []
    else shiftIf ((afterExpression t).map (· ++ [moreArguments]))
  | moreArguments =>
    match t with
    | .symbol .comma => .shift [] [arguments, act .argument]
    | .symbol .rparen => .done [.argument]
    | _ => .reject

/-- How a goal answers the end of the source: no goal can take it. -/
def reactToEnd : Goal → Reaction
  | act e => .done [e]
  | actIf f e => doneIf f none [e]
  | check f => doneIf f none []
  | declarations site vars => doneIf site.follow none [site.event vars]
  | functions => doneIf .functions none []
  | statements f => doneIf f none []
  | branches => doneIf .statement none [.closeIf]
  | moreBranches => doneIf .statement none []
  | _ => .reject

end Goal

end Symphony
