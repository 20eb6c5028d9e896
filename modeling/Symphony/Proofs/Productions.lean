import Mathlib.Algebra.BigOperators.Ring.List
import Mathlib.Computability.ContextFreeGrammar
import Symphony.Grammar

/-!
# The productions of the language

The context-free grammar of the language, with every production, over the classes of tokens.
Productions without symbols on their right side stand where an action happens between two symbols.

The grammar is ambiguous: what may follow a branch of a conditional can be derived in several ways.
The four levels of operator chains are one family of nonterminals.

**Languages of nonterminals** (`wordsOf`). The words of a nonterminal are the sum, over its
productions, of the products of the words of their symbols (`wordsOf_eq`). With these equations the
grammar is used as a system of equations between languages.
-/

namespace ContextFreeGrammar

/-! ## The words of a form -/

/-- A terminal or nonterminal. -/
abbrev Part (T N : Type) := Symbol T N

/-- A sequence of terminals and nonterminals. -/
abbrev Form (T N : Type) := List (Part T N)

variable {T : Type} (g : ContextFreeGrammar T)

/-- A form yields a word: each of its nonterminals yields a part of it, by one of the rules. -/
inductive Yields : Form T g.NT → List T → Prop
  | nil : Yields [] []
  | terminal {t : T} {ss : Form T g.NT} {w : List T} :
      Yields ss w → Yields (.terminal t :: ss) (t :: w)
  | nonterminal {r : ContextFreeRule T g.NT} {ss : Form T g.NT} {u v : List T} :
      r ∈ g.rules → Yields r.output u → Yields ss v → Yields (.nonterminal r.input :: ss) (u ++ v)

variable {g} {ss ss' : Form T g.NT} {w : List T}

theorem Yields.append {u v : List T} (h : g.Yields ss u) (h' : g.Yields ss' v) :
    g.Yields (ss ++ ss') (u ++ v) := by
  induction h with
  | nil => exact h'
  | terminal _ ih => exact .terminal ih
  | nonterminal hr hu _ _ ih =>
    rw [List.cons_append, List.append_assoc]
    exact .nonterminal hr hu ih

theorem yields_append :
    g.Yields (ss ++ ss') w ↔ ∃ u v, w = u ++ v ∧ g.Yields ss u ∧ g.Yields ss' v := by
  constructor
  · intro h
    induction ss generalizing w with
    | nil => exact ⟨[], w, rfl, .nil, h⟩
    | cons s ss ih =>
      cases h with
      | terminal h =>
        obtain ⟨u, v, rfl, hu, hv⟩ := ih h
        exact ⟨_ :: u, v, rfl, .terminal hu, hv⟩
      | @nonterminal r _ x _ hr hx h =>
        obtain ⟨u, v, rfl, hu, hv⟩ := ih h
        exact ⟨x ++ u, v, (List.append_assoc ..).symm, .nonterminal hr hx hu, hv⟩
  · rintro ⟨u, v, rfl, hu, hv⟩
    exact hu.append hv

theorem Yields.derives (h : g.Yields ss w) : g.Derives ss (w.map .terminal) := by
  induction h with
  | nil => exact .refl _
  | terminal _ ih => exact ih.append_left [.terminal _]
  | @nonterminal r ss u v hr _ _ ihu ihv =>
    have hrule : g.Produces [.nonterminal r.input] r.output := ⟨r, hr, .input_output⟩
    rw [List.map_append]
    exact ((hrule.trans_derives ihu).append_right ss).trans (ihv.append_left _)

theorem yields_terminals (w : List T) : g.Yields (w.map .terminal) w := by
  induction w with
  | nil => exact .nil
  | cons t w ih => exact .terminal ih

/-- A rule can be applied first. -/
theorem Yields.of_produces (hp : g.Produces ss ss') (h : g.Yields ss' w) : g.Yields ss w := by
  obtain ⟨r, hr, hrw⟩ := hp
  obtain ⟨p, q, rfl, rfl⟩ := hrw.exists_parts
  rw [List.append_assoc] at h ⊢
  obtain ⟨x, y, rfl, hx, hy⟩ := yields_append.1 h
  obtain ⟨u, v, rfl, hu, hv⟩ := yields_append.1 hy
  exact hx.append (.nonterminal hr hu hv)

/-- What a form yields is what can be derived from it. -/
theorem yields_iff_derives : g.Yields ss w ↔ g.Derives ss (w.map .terminal) := by
  refine ⟨Yields.derives, fun h => ?_⟩
  induction h using Relation.ReflTransGen.head_induction_on with
  | refl => exact yields_terminals w
  | head hp _ ih => exact .of_produces hp ih

variable (g) in
/-- The words that a form yields. -/
def formWords (ss : Form T g.NT) : Language T :=
  {w | g.Yields ss w}

theorem mem_formWords : w ∈ g.formWords ss ↔ g.Yields ss w :=
  Iff.rfl

theorem formWords_initial : g.formWords [.nonterminal g.initial] = g.language :=
  Language.ext fun _ => yields_iff_derives

theorem formWords_nil : g.formWords [] = 1 := by
  refine Language.ext fun w => ?_
  rw [mem_formWords, Language.mem_one]
  constructor
  · rintro ⟨⟩
    rfl
  · rintro rfl
    exact .nil

theorem formWords_append : g.formWords (ss ++ ss') = g.formWords ss * g.formWords ss' := by
  refine Language.ext fun w => ?_
  rw [mem_formWords, yields_append, Language.mem_mul]
  constructor
  · rintro ⟨u, v, rfl, hu, hv⟩
    exact ⟨u, hu, v, hv, rfl⟩
  · rintro ⟨u, hu, v, hv, rfl⟩
    exact ⟨u, v, rfl, hu, hv⟩

theorem formWords_terminal (t : T) : g.formWords (.terminal t :: ss) = {[t]} * g.formWords ss := by
  rw [show Symbol.terminal t :: ss = [.terminal t] ++ ss from rfl, formWords_append]
  congr 1
  refine Language.ext fun w => ?_
  constructor
  · rintro (_ | ⟨_, ⟨⟩⟩)
    rfl
  · rintro rfl
    exact .terminal .nil

theorem formWords_nonterminal (n : g.NT) :
    g.formWords (.nonterminal n :: ss) = g.formWords [.nonterminal n] * g.formWords ss :=
  @formWords_append _ g [.nonterminal n] ss

/-- The words of a nonterminal are those of its rules. -/
theorem mem_formWords_nonterminal {n : g.NT} :
    w ∈ g.formWords [.nonterminal n] ↔ ∃ r ∈ g.rules, r.input = n ∧ w ∈ g.formWords r.output := by
  constructor
  · rintro (_ | _ | @⟨r, _, u, v, hr, hu, ⟨⟩⟩)
    rw [List.append_nil]
    exact ⟨r, hr, rfl, hu⟩
  · rintro ⟨r, hr, rfl, hw⟩
    have h := Yields.nonterminal hr hw .nil
    rwa [List.append_nil] at h

end ContextFreeGrammar

namespace Symphony

/-! ## The grammar -/

/-- The classes of tokens. -/
inductive Terminal
  | keyword (k : Keyword)
  | symbol (s : Symbol)
  | ident
  | special
  | intVal
  | decVal
  | charVal
  | strVal
  | boolVal
deriving DecidableEq

def Token.terminal : Token → Terminal
  | keyword k => .keyword k
  | symbol s => .symbol s
  | ident _ => .ident
  | special _ => .special
  | intVal _ => .intVal
  | decVal _ => .decVal
  | charVal _ => .charVal
  | strVal _ => .strVal
  | boolVal _ => .boolVal

/-- What the productions are about. The levels of operator chains are those of `Level`: a chain of
connectives is on the second level, a chain of products on the fifth. -/
inductive Nonterminal
  | program | mainGoto | globalDeclarations | empty
  | variableDeclaration | variableGroup | declarationIds | otherDeclarationIds | declarationId
  | usageId | assignmentId | nonArrayId | arrayDeclaration | nonArrayUsage | arrayUsage
  | arrayAssignment
  | expression | expOp | level1 | plusMinusOp
  | level (l : Level)
  | operation (l : Level)
  | chainedOps (l : Level)
  | chainedOp (l : Level)
  | negationOp | level6 | increment | decrement | break_
  | functionDeclaration | function | createScope | parametersAndVariables | returnType | void | type
  | statements | statement | noColonStatement
  | call | callId | arguments | argumentList | assignment
  | condition | optionalElses | ifQuad | addPendingIf
  | cycle | addPendingWhile | whileQuad | storeExpressionPosition
  | special | specialId | return_
  | elses | otherElses | elseifElse | else_ | elseif
  | parameters | allParameters | otherParameters | commaSeparatedParameters | parameter
  | const | intVal | decVal | charVal | strVal | boolVal | variableId | functionResult | block
deriving DecidableEq

namespace Level

/-- What the operands of a chain are. -/
def operand : Level → Nonterminal
  | product => .level6
  | sum => .level .product
  | relation => .level .sum
  | logic => .level .relation

/-- The operators of a chain. -/
def operators : Level → List Terminal
  | product => [.symbol .times, .symbol .slash, .keyword .mod]
  | sum => [.symbol .plus, .symbol .minus]
  | relation => [.symbol .lt, .symbol .gt, .symbol .le, .symbol .ge, .keyword .equals]
  | logic => [.keyword .or, .keyword .and]

end Level

namespace Nonterminal

def all : List Nonterminal :=
  [program, mainGoto, globalDeclarations, empty, variableDeclaration, variableGroup, declarationIds,
    otherDeclarationIds, declarationId, usageId, assignmentId, nonArrayId, arrayDeclaration,
      nonArrayUsage,
    arrayUsage, arrayAssignment, expression, expOp, level1, plusMinusOp, negationOp,
      level6, increment,
    decrement, break_, functionDeclaration, function, createScope, parametersAndVariables,
      returnType, void,
    type, statements, statement, noColonStatement, call, callId, arguments, argumentList,
      assignment,
    condition, optionalElses, ifQuad, addPendingIf, cycle, addPendingWhile, whileQuad,
    storeExpressionPosition, special, specialId, return_, elses, otherElses, elseifElse,
      else_, elseif,
    parameters, allParameters, otherParameters, commaSeparatedParameters, parameter, const,
      intVal, decVal,
    charVal, strVal, boolVal, variableId, functionResult, block] ++
  [Level.product, .sum, .relation, .logic].flatMap fun l =>
    [level l, operation l, chainedOps l, chainedOp l]

theorem mem_all (n : Nonterminal) : n ∈ all := by
  cases n with
  | level l | operation l | chainedOps l | chainedOp l => cases l <;> decide
  | _ => decide

/-! ### Symbols of productions -/

abbrev kw (k : Keyword) : ContextFreeGrammar.Part Terminal Nonterminal := .terminal (.keyword k)

abbrev sy (s : Symbol) : ContextFreeGrammar.Part Terminal Nonterminal := .terminal (.symbol s)

abbrev tk (t : Terminal) : ContextFreeGrammar.Part Terminal Nonterminal := .terminal t

abbrev nt (n : Nonterminal) : ContextFreeGrammar.Part Terminal Nonterminal := .nonterminal n

/-- The right sides of the productions of a nonterminal. -/
@[simp]
def productions : Nonterminal → List (ContextFreeGrammar.Form Terminal Nonterminal)
  | program =>
    [[kw .program, tk .ident, sy .semicolon, nt globalDeclarations, nt functionDeclaration,
      nt mainGoto, nt statements]]
  | mainGoto => [[nt empty]]
  | globalDeclarations => [[nt variableDeclaration]]
  | empty => [[]]
  | variableDeclaration => [[nt variableGroup, nt variableDeclaration], [nt empty]]
  | variableGroup => [[nt type, nt declarationIds, sy .semicolon]]
  | declarationIds => [[nt declarationId, nt otherDeclarationIds]]
  | otherDeclarationIds => [[sy .comma, nt declarationIds], [nt empty]]
  | declarationId => [[nt nonArrayId], [nt arrayDeclaration]]
  | usageId => [[nt nonArrayUsage], [nt arrayUsage]]
  | assignmentId => [[nt nonArrayId], [nt arrayAssignment]]
  | nonArrayId => [[tk .ident]]
  | arrayDeclaration => [[tk .ident, sy .lbracket, nt intVal, sy .rbracket]]
  | nonArrayUsage => [[tk .ident]]
  | arrayUsage => [[tk .ident, sy .lbracket, nt expression, sy .rbracket]]
  | arrayAssignment => [[tk .ident, sy .lbracket, nt expression, sy .rbracket]]
  | expression => [[nt level1], [nt expOp]]
  | expOp => [[nt level1, sy .power, nt expression]]
  | level1 => [[nt (level .logic)], [nt plusMinusOp]]
  | plusMinusOp => [[sy .plus, nt (level .logic)], [sy .minus, nt (level .logic)]]
  | level .product => [[nt level6], [nt (operation .product)], [nt negationOp]]
  | level l => [[nt l.operand], [nt (operation l)]]
  | operation l => l.operators.map fun o => [nt l.operand, tk o, nt l.operand, nt (chainedOps l)]
  | chainedOps l => [[nt (chainedOp l)], [nt empty]]
  | chainedOp l => l.operators.map fun o => [tk o, nt l.operand, nt (chainedOps l)]
  | negationOp => [[kw .not, nt level6]]
  | level6 => [[sy .lparen, nt expression, sy .rparen], [nt const], [nt increment], [nt decrement]]
  | increment => [[sy .increment, nt variableId]]
  | decrement => [[sy .decrement, nt variableId]]
  | break_ => [[kw .break_]]
  | functionDeclaration => [[nt function, nt functionDeclaration], [nt empty]]
  | function => [[nt createScope, nt parametersAndVariables, nt statements, sy .rbrace]]
  | createScope => [[kw .fun_, nt returnType, tk .ident]]
  | parametersAndVariables =>
    [[sy .lparen, nt parameters, sy .rparen, sy .lbrace, nt variableDeclaration]]
  | returnType => [[nt type], [nt void]]
  | void => [[kw .void]]
  | type => [[kw (.type .int)], [kw (.type .dec)], [kw (.type .char)], [kw (.type .str)],
      [kw (.type .bool)]]
  | statements =>
    [[nt statement, sy .semicolon, nt statements], [nt noColonStatement, nt statements], [nt empty]]
  | statement =>
    [[nt call], [nt assignment], [nt special], [nt return_], [nt increment], [nt decrement],
      [nt break_]]
  | noColonStatement => [[nt condition], [nt cycle]]
  | call => [[nt callId, sy .lparen, nt arguments, sy .rparen]]
  | callId => [[tk .ident]]
  | arguments => [[nt empty], [nt argumentList]]
  | argumentList => [[nt expression], [nt expression, sy .comma, nt arguments]]
  | assignment => [[nt assignmentId, sy .assign, nt expression]]
  | condition =>
    [[kw .if_, sy .lparen, nt expression, nt ifQuad, sy .rparen, nt block, nt optionalElses]]
  | optionalElses => [[nt elses], [nt addPendingIf]]
  | ifQuad => [[nt empty]]
  | addPendingIf => [[nt empty]]
  | cycle =>
    [[kw .while_, sy .lparen, nt storeExpressionPosition, nt expression, nt whileQuad,
      sy .rparen, nt block, nt addPendingWhile]]
  | addPendingWhile => [[nt empty]]
  | whileQuad => [[nt empty]]
  | storeExpressionPosition => [[nt empty]]
  | special => [[nt specialId, sy .lparen, nt arguments, sy .rparen]]
  | specialId => [[tk .special]]
  | return_ => [[kw .return_, nt expression]]
  | elses => [[nt elseifElse, nt otherElses]]
  | otherElses => [[nt elseifElse], [nt empty]]
  | elseifElse =>
    [[nt else_, nt block, nt addPendingIf],
      [nt elseif, sy .lparen, nt expression, nt ifQuad, sy .rparen, nt block, nt optionalElses,
        nt addPendingIf]]
  | else_ => [[kw .else_]]
  | elseif => [[kw .elseif]]
  | parameters => [[nt allParameters], [nt empty]]
  | allParameters => [[nt parameter, nt otherParameters]]
  | otherParameters => [[nt commaSeparatedParameters], [nt empty]]
  | commaSeparatedParameters => [[sy .comma, nt parameter, nt otherParameters]]
  | parameter => [[nt type, tk .ident]]
  | const =>
    [[nt variableId], [nt functionResult], [nt intVal], [nt decVal], [nt charVal], [nt strVal],
      [nt boolVal]]
  | intVal => [[tk .intVal]]
  | decVal => [[tk .decVal]]
  | charVal => [[tk .charVal]]
  | strVal => [[tk .strVal]]
  | boolVal => [[tk .boolVal]]
  | variableId => [[nt usageId]]
  | functionResult => [[nt call], [nt special]]
  | block => [[sy .lbrace, nt statements, sy .rbrace]]

end Nonterminal

open Nonterminal

/-- The grammar of the language. -/
def grammar : ContextFreeGrammar Terminal where
  NT := Nonterminal
  initial := .program
  rules := (all.flatMap fun n => (productions n).map (ContextFreeRule.mk n)).toFinset

theorem mem_rules {r : ContextFreeRule Terminal Nonterminal} :
    r ∈ grammar.rules ↔ r.output ∈ productions r.input := by
  have h : r ∈ grammar.rules ↔ ∃ n ∈ all, ∃ ss ∈ productions n, ContextFreeRule.mk n ss = r := by
    refine List.mem_toFinset.trans ?_
    simp
  rw [h]
  constructor
  · rintro ⟨n, -, ss, hss, rfl⟩
    exact hss
  · exact fun hr => ⟨r.input, mem_all _, r.output, hr, rfl⟩

/-- The words of a nonterminal. -/
def wordsOf (n : Nonterminal) : Language Terminal :=
  grammar.formWords [nt n]

/-- The words of a form. -/
def formWords (ss : ContextFreeGrammar.Form Terminal Nonterminal) : Language Terminal :=
  grammar.formWords ss

theorem wordsOf_program : wordsOf .program = grammar.language :=
  ContextFreeGrammar.formWords_initial

@[simp]
theorem formWords_nil : formWords [] = 1 :=
  ContextFreeGrammar.formWords_nil

@[simp]
theorem formWords_terminal (t : Terminal) (ss : ContextFreeGrammar.Form Terminal Nonterminal) :
    formWords (.terminal t :: ss) = {[t]} * formWords ss :=
  ContextFreeGrammar.formWords_terminal t

@[simp]
theorem formWords_nonterminal (n : Nonterminal)
    (ss : ContextFreeGrammar.Form Terminal Nonterminal) :
    formWords (.nonterminal n :: ss) = wordsOf n * formWords ss :=
  ContextFreeGrammar.formWords_nonterminal (g := grammar) n

/-- The words of a nonterminal are those of its productions. -/
theorem wordsOf_eq (n : Nonterminal) : wordsOf n = ((productions n).map formWords).sum := by
  refine Language.ext fun w => ?_
  have hsum : ∀ Ls : List (Language Terminal), w ∈ Ls.sum ↔ ∃ L ∈ Ls, w ∈ L := by
    intro Ls
    induction Ls with
    | nil => simp
    | cons L Ls ih => simp [Language.mem_add, ih]
  rw [hsum]
  refine (ContextFreeGrammar.mem_formWords_nonterminal (g := grammar)).trans ?_
  constructor
  · rintro ⟨r, hr, rfl, hw⟩
    exact ⟨_, List.mem_map.2 ⟨_, mem_rules.1 hr, rfl⟩, hw⟩
  · rintro ⟨L, hL, hw⟩
    obtain ⟨ss, hss, rfl⟩ := List.mem_map.1 hL
    exact ⟨⟨n, ss⟩, mem_rules.2 hss, rfl, hw⟩

end Symphony
