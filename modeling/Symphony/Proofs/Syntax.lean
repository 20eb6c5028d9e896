import Symphony.Event
import Symphony.Grammar
import Symphony.Token.Scan

/-!
# Syntax trees

Recognition produces events, not a tree. For reasoning, this file has the trees of the language and,
for every tree, its events in the order in which recognition produces them. `Proofs.Parsing` shows
that the events of an accepted source are those of a tree.

Parentheses and the levels of operators leave no mark here: a chain of operators of one level is one
node, whatever its operands are.
-/

namespace Symphony

/-- Signs and negation: operators in front of an operand that leave it as it is. -/
inductive Sign
  | plus
  | minus
  | not
deriving DecidableEq

def Sign.op : Sign → UnOp
  | plus => .plus
  | minus => .minus
  | not => .not

/-- Operators that write their result back. -/
inductive Update
  | increment
  | decrement
deriving DecidableEq

def Update.op : Update → UnOp
  | increment => .increment
  | decrement => .decrement

mutual

inductive Expr
  | literal (t : Ty) (v : Value)
  | reference (t : Target)
  | apply (o : Sign) (e : Expr)
  | update (u : Update) (t : Target)
  /-- A chain of operators of one level: two operands and any number of further ones. -/
  | chain (first : Expr) (o : BinOp) (second : Expr) (rest : Links)
  | power (base exponent : Expr)
  | call (name : String) (args : Args)
  | special (name : String) (args : Args)

/-- A variable or an array element. -/
inductive Target
  | variable (name : String)
  | element (name : String) (index : Expr)

/-- The operators and operands of a chain after its second operand. -/
inductive Links
  | nil
  | cons (o : BinOp) (e : Expr) (rest : Links)

inductive Args
  | nil
  | cons (e : Expr) (rest : Args)

end

def Args.length : Args → Nat
  | nil => 0
  | cons _ rest => rest.length + 1

/-- The notes of a chain's operators after its first, last one first. -/
def Links.operators : Links → List Event
  | nil => []
  | cons o _ rest => rest.operators ++ [.chain o]

mutual

def Expr.events : Expr → List Event
  | .literal t v => [.constant t v]
  | .reference t => t.events
  | .apply o e => e.events ++ [.unary o.op]
  | .update u t => t.events ++ [.unary u.op]
  | .chain first o second rest =>
    first.events ++ (second.events ++ (rest.operands ++ rest.operators)) ++ [.fold o]
  | .power base exponent => base.events ++ exponent.events ++ [.power]
  | .call name args =>
    .beginCall name :: (args.operands ++ List.replicate args.length .argument) ++ [.endCall name]
  | .special name args =>
    .beginSpecial name :: (args.operands ++ List.replicate args.length .argument)
      ++ [.endSpecial name]

def Target.events : Target → List Event
  | .variable name => [.useVariable name]
  | .element name index => index.events ++ [.useElement name]

def Links.operands : Links → List Event
  | .nil => []
  | .cons _ e rest => e.events ++ rest.operands

def Args.operands : Args → List Event
  | .nil => []
  | .cons e rest => e.events ++ rest.operands

end

mutual

inductive Stmt
  | call (name : String) (args : Args)
  | special (name : String) (args : Args)
  | assign (t : Target) (e : Expr)
  | update (u : Update) (t : Target)
  | giveBack (e : Expr)
  | leave
  | branch (condition : Expr) (body : Block) (rest : Branches)
  | loop (condition : Expr) (body : Block)

inductive Block
  | nil
  | cons (s : Stmt) (rest : Block)

/-- What follows the first block of a conditional. -/
inductive Branches
  | done
  | otherwise (body : Block) (more : Extra)
  | elseif (condition : Expr) (body : Block) (rest : Branches) (more : Extra)

/-- One more branch after a last one. The grammar has it, but no source with it is accepted. -/
inductive Extra
  | none
  | otherwise (body : Block)
  | elseif (condition : Expr) (body : Block) (rest : Branches)

end

mutual

def Stmt.events : Stmt → List Event
  | .call name args => (Expr.call name args).events
  | .special name args => (Expr.special name args).events
  | .assign (.variable name) e => e.events ++ [.assign name]
  | .assign (.element name index) e =>
    index.events ++ .selectElement :: (e.events ++ [.assign name])
  | .update u t => (Expr.update u t).events
  | .giveBack e => e.events ++ [.giveBack]
  | .leave => [.breakLoop]
  | .branch condition body rest => condition.events ++ .testIf :: (body.events ++ rest.events)
  | .loop condition body =>
    .markLoop :: (condition.events ++ .testLoop :: (body.events ++ [.closeLoop, .leaveLoop]))

def Block.events : Block → List Event
  | .nil => []
  | .cons s rest => s.events ++ rest.events

def Branches.events : Branches → List Event
  | .done => [.closeIf]
  | .otherwise body more => .elseBranch :: (body.events ++ .closeIf :: more.events)
  | .elseif condition body rest more =>
    .elseBranch :: (condition.events ++ .testIf :: (body.events ++ (rest.events
      ++ .closeIf :: more.events)))

def Extra.events : Extra → List Event
  | .none => []
  | .otherwise body => .elseBranch :: (body.events ++ [.closeIf])
  | .elseif condition body rest =>
    .elseBranch :: (condition.events ++ .testIf :: (body.events ++ (rest.events ++ [.closeIf])))

end

/-- Names declared together, in the order of the source; an array has a size. -/
structure Group where
  type : Ty
  names : List (String × Option Int)

namespace Group

/-- What a name with or without a size declares. -/
def declaration (t : Ty) : String × Option Int → Declaration
  | (name, none) => Goal.scalar t name
  | (name, some n) => Goal.array t name n

/-- The declarations of a group, last one first. -/
def declarations (g : Group) : List Declaration :=
  (g.names.map (declaration g.type)).reverse

/-- A size is read as a constant and dropped. -/
def sizes : List (String × Option Int) → List Event
  | [] => []
  | (_, none) :: rest => sizes rest
  | (_, some n) :: rest => .constant .int (.int n) :: .dropSize :: sizes rest

end Group

/-- The declarations of several groups. -/
def declarationsOf (gs : List Group) : List Declaration :=
  gs.flatMap Group.declarations

/-- The events of the sizes in several groups. -/
def sizesOf (gs : List Group) : List Event :=
  gs.flatMap fun g => Group.sizes g.names

/-- Names are letters, digits and underscores. -/
def IsWord (s : String) : Prop :=
  s.toList ≠ [] ∧ ∀ c ∈ s.toList, Scan.isWordChar c = true

structure FunctionTree where
  result : Option Ty
  name : String
  /-- The parameters in the order of the source. -/
  params : List (Ty × String)
  vars : List Group
  body : Block
  isWord : IsWord name

namespace FunctionTree

/-- Parameters as they are declared, last one first. -/
def declared (params : List (Ty × String)) : List Declaration :=
  (params.map fun p => Goal.scalar p.1 p.2).reverse

/-- The events of a function after its head. -/
def innerEvents (params : List (Ty × String)) (vars : List Group) (body : Block) : List Event :=
  sizesOf vars ++ .declareLocals (declared params) (declarationsOf vars)
    :: (body.events ++ [.endFunction])

def events (f : FunctionTree) : List Event :=
  .defineFunction f.result f.name :: innerEvents f.params f.vars f.body

end FunctionTree

/-- A whole program. -/
structure Tree where
  globals : List Group
  functions : List FunctionTree
  main : Block

def Tree.events (p : Tree) : List Event :=
  sizesOf p.globals ++ .declareGlobals (declarationsOf p.globals)
    :: (p.functions.flatMap FunctionTree.events ++ .enterMain :: (p.main.events ++ [.finish]))

end Symphony
