import Symphony.Proofs.Productions
import Symphony.Trace

/-!
# Recognition and the grammar

The productions of the grammar are a system of equations between languages. After its empty
productions are resolved, each goal has a language of its own, and `cons_mem_words` says what a goal
does in terms of it: it takes a token exactly if the token begins one of its words, and the goals
that take its place have what can come after that token as their words.

The equations of expressions hold the one difference of form: the grammar has an operation beside
its operand at every level, and recognition reads the operand first and its operators after it
(`Opens`).
-/

namespace Language

variable {α : Type*} {a b : α} {w : List α} {L M : Language α}

theorem cons_mem_singleton : a :: w ∈ ({[b]} : Language α) ↔ a = b ∧ w = [] := by
  rw [show a :: w ∈ ({[b]} : Language α) ↔ a :: w = [b] from Iff.rfl, List.cons.injEq]

theorem nil_notMem_singleton : [] ∉ ({[b]} : Language α) :=
  List.cons_ne_nil b [] |>.symm

theorem nil_mem_mul : [] ∈ L * M ↔ [] ∈ L ∧ [] ∈ M := by
  simp [mem_mul]

theorem cons_mem_mul :
    a :: w ∈ L * M ↔ (∃ u v, w = u ++ v ∧ a :: u ∈ L ∧ v ∈ M) ∨ ([] ∈ L ∧ a :: w ∈ M) := by
  rw [mem_mul]
  constructor
  · rintro ⟨u, hu, v, hv, h⟩
    cases u with
    | nil => exact .inr ⟨hu, h ▸ hv⟩
    | cons b u =>
      obtain ⟨rfl, rfl⟩ := List.cons.inj h
      exact .inl ⟨u, v, rfl, hu, hv⟩
  · rintro (⟨u, v, rfl, hu, hv⟩ | ⟨hnil, h⟩)
    · exact ⟨_, hu, v, hv, rfl⟩
    · exact ⟨[], hnil, _, h, rfl⟩

theorem cons_mem_singleton_mul : a :: w ∈ {[b]} * L ↔ a = b ∧ w ∈ L := by
  rw [cons_mem_mul]
  simp only [cons_mem_singleton, nil_notMem_singleton, false_and, or_false]
  constructor
  · rintro ⟨u, v, rfl, ⟨rfl, rfl⟩, hv⟩
    exact ⟨rfl, hv⟩
  · rintro ⟨rfl, h⟩
    exact ⟨[], w, rfl, ⟨rfl, rfl⟩, h⟩

end Language

namespace Symphony

open Nonterminal Language

variable {t : Token} {w : List Terminal} {L : Language Terminal} {es : List Event} {l : Level}

/-! ## The grammar as a system of equations -/

/-- The words of one terminal. -/
abbrev symW (s : Symbol) : Language Terminal := {[.symbol s]}

abbrev keyW (k : Keyword) : Language Terminal := {[.keyword k]}

theorem wordsOf_intVal : wordsOf intVal = {[.intVal]} := by
  simp [wordsOf_eq intVal]

theorem wordsOf_variableId :
    wordsOf variableId = {[.ident]} *
      (1 + symW .lbracket * (wordsOf expression * symW .rbracket)) := by
  simp [wordsOf_eq variableId, wordsOf_eq usageId, wordsOf_eq nonArrayUsage, wordsOf_eq arrayUsage,
    mul_add]

/-- The arguments of a call with their parentheses. -/
def callWords : Language Terminal :=
  symW .lparen * (wordsOf arguments * symW .rparen)

theorem wordsOf_call : wordsOf call = {[.ident]} * callWords := by
  simp [wordsOf_eq call, wordsOf_eq callId, callWords]

theorem wordsOf_special : wordsOf special = {[.special]} * callWords := by
  simp [wordsOf_eq special, wordsOf_eq specialId, callWords]

theorem wordsOf_increment : wordsOf increment = symW .increment * wordsOf variableId := by
  simp [wordsOf_eq increment]

theorem wordsOf_decrement : wordsOf decrement = symW .decrement * wordsOf variableId := by
  simp [wordsOf_eq decrement]

theorem wordsOf_level6 :
    wordsOf level6 = symW .lparen * (wordsOf expression * symW .rparen) + (wordsOf variableId +
    (wordsOf call + (wordsOf special + ({[.intVal]} + ({[.decVal]} + ({[.charVal]} + ({[.strVal]} +
      ({[.boolVal]} + (wordsOf increment + wordsOf decrement))))))))) := by
  simp [wordsOf_eq level6, wordsOf_eq const, wordsOf_eq functionResult, wordsOf_eq intVal,
    wordsOf_eq decVal, wordsOf_eq charVal, wordsOf_eq strVal, wordsOf_eq boolVal, add_assoc]

theorem wordsOf_chainedOps (l : Level) : wordsOf (chainedOps l) =
    1 + (l.operators.map fun o => {[o]} * (wordsOf l.operand * wordsOf (chainedOps l))).sum := by
  refine (wordsOf_eq _).trans ?_
  simp [wordsOf_eq (chainedOp l), wordsOf_eq empty, add_comm, Function.comp_def]

/-- A chain is a first operand and further ones, each after its operator. -/
theorem wordsOf_level (hl : l ≠ .product) :
    wordsOf (level l) = wordsOf l.operand * wordsOf (chainedOps l) := by
  rw [wordsOf_chainedOps, wordsOf_eq (level l)]
  simp [wordsOf_eq (operation l), mul_add, Function.comp_def, List.sum_map_mul_left]

theorem wordsOf_level_product :
    wordsOf (level .product) = wordsOf level6 * wordsOf (chainedOps .product) + keyW .not *
      wordsOf level6 := by
  rw [wordsOf_chainedOps, wordsOf_eq (level .product)]
  simp [wordsOf_eq (operation .product), wordsOf_eq negationOp, mul_add, Function.comp_def,
    List.sum_map_mul_left, Level.operand, add_assoc]

/-- The rest of an expression after its base. -/
def powerWords : Language Terminal :=
  1 + symW .power * wordsOf expression

theorem wordsOf_expression : wordsOf expression =
    (wordsOf (level .logic) + (symW .plus + symW .minus) * wordsOf (level .logic)) *
      powerWords := by
  rw [powerWords]
  refine (wordsOf_eq _).trans ?_
  simp [wordsOf_eq expOp, wordsOf_eq level1, wordsOf_eq plusMinusOp, mul_add, add_mul, mul_assoc,
    add_assoc]

theorem wordsOf_arguments :
    wordsOf arguments = 1 + wordsOf expression * (1 + symW .comma * wordsOf arguments) := by
  refine (wordsOf_eq _).trans ?_
  simp [wordsOf_eq argumentList, wordsOf_eq empty, mul_add]

theorem wordsOf_type : wordsOf type = keyW (.type .int) + (keyW (.type .dec) + (keyW (.type .char) +
    (keyW (.type .str) + keyW (.type .bool)))) := by
  simp [wordsOf_eq type]

theorem wordsOf_variableDeclaration : wordsOf variableDeclaration =
    1 + wordsOf type * (wordsOf declarationIds * (symW .semicolon * wordsOf variableDeclaration)) :=
      by
  refine (wordsOf_eq _).trans ?_
  simp [wordsOf_eq variableGroup, wordsOf_eq empty, mul_assoc, add_comm]

theorem wordsOf_declarationIds : wordsOf declarationIds =
    {[.ident]} * ((1 + symW .lbracket * ({[.intVal]} * symW .rbracket)) *
      wordsOf otherDeclarationIds) := by
  simp [wordsOf_eq declarationIds, wordsOf_eq declarationId, wordsOf_eq nonArrayId,
    wordsOf_eq arrayDeclaration, wordsOf_intVal, mul_add, add_mul, mul_assoc]

theorem wordsOf_otherDeclarationIds :
    wordsOf otherDeclarationIds = 1 + symW .comma * wordsOf declarationIds := by
  simp [wordsOf_eq otherDeclarationIds, wordsOf_eq empty, add_comm]

theorem wordsOf_otherParameters :
    wordsOf otherParameters = 1 + symW .comma *
      (wordsOf type * ({[.ident]} * wordsOf otherParameters)) := by
  refine (wordsOf_eq _).trans ?_
  simp [wordsOf_eq commaSeparatedParameters, wordsOf_eq parameter, wordsOf_eq empty, mul_assoc,
    add_comm]

theorem wordsOf_parameters :
    wordsOf parameters = 1 + wordsOf type * ({[.ident]} * wordsOf otherParameters) := by
  simp [wordsOf_eq parameters, wordsOf_eq allParameters, wordsOf_eq parameter, wordsOf_eq empty,
    mul_assoc, add_comm]

/-- The rest of a function after its parameters, with the functions after it. -/
def bodyWords : Language Terminal :=
  symW .rparen * (symW .lbrace * (wordsOf variableDeclaration * (wordsOf statements *
    (symW .rbrace * wordsOf functionDeclaration))))

theorem wordsOf_functionDeclaration : wordsOf functionDeclaration =
    1 + keyW .fun_ * ((wordsOf type + keyW .void) * ({[.ident]} * (symW .lparen *
      (wordsOf parameters * bodyWords)))) := by
  rw [bodyWords]
  refine (wordsOf_eq _).trans ?_
  simp [wordsOf_eq function, wordsOf_eq createScope, wordsOf_eq parametersAndVariables,
    wordsOf_eq returnType, wordsOf_eq void, wordsOf_eq empty, mul_assoc, add_comm]

theorem wordsOf_block : wordsOf block = symW .lbrace * (wordsOf statements * symW .rbrace) := by
  simp [wordsOf_eq block]

/-- A condition with its parentheses. -/
def conditionWords : Language Terminal :=
  symW .lparen * (wordsOf expression * symW .rparen)

theorem wordsOf_elseifElse : wordsOf elseifElse = keyW .else_ * wordsOf block +
    keyW .elseif * (conditionWords * (wordsOf block * wordsOf optionalElses)) := by
  simp [wordsOf_eq elseifElse, wordsOf_eq else_, wordsOf_eq elseif, wordsOf_eq addPendingIf,
    wordsOf_eq ifQuad, wordsOf_eq empty, conditionWords, mul_assoc]

theorem wordsOf_otherElses : wordsOf otherElses = 1 + wordsOf elseifElse := by
  simp [wordsOf_eq otherElses, wordsOf_eq empty, add_comm]

theorem wordsOf_optionalElses :
    wordsOf optionalElses = 1 + wordsOf elseifElse * wordsOf otherElses := by
  simp [wordsOf_eq optionalElses, wordsOf_eq elses, wordsOf_eq addPendingIf,
    wordsOf_eq empty, add_comm]

/-- The rest of a statement after the name with which it starts. -/
def nameWords : Language Terminal :=
  callWords + (symW .assign * wordsOf expression +
    symW .lbracket * (wordsOf expression * (symW .rbracket * (symW .assign * wordsOf expression))))

theorem wordsOf_statement : wordsOf statement = {[.ident]} * nameWords + (wordsOf special +
    (keyW .return_ * wordsOf expression +
      (wordsOf increment + (wordsOf decrement + keyW .break_)))) := by
  simp [wordsOf_eq statement, wordsOf_call, wordsOf_eq assignment, wordsOf_eq assignmentId,
    wordsOf_eq nonArrayId, wordsOf_eq arrayAssignment, wordsOf_eq return_, wordsOf_eq break_,
    nameWords, mul_add, add_mul, mul_assoc, add_assoc]

theorem wordsOf_noColonStatement : wordsOf noColonStatement =
    keyW .if_ * (conditionWords * (wordsOf block * wordsOf optionalElses)) +
      keyW .while_ * (conditionWords * wordsOf block) := by
  simp [wordsOf_eq noColonStatement, wordsOf_eq condition, wordsOf_eq cycle, wordsOf_eq ifQuad,
    wordsOf_eq storeExpressionPosition, wordsOf_eq whileQuad, wordsOf_eq addPendingWhile,
      wordsOf_eq empty, conditionWords, mul_assoc]

theorem wordsOf_statements :
    wordsOf statements = 1 + (wordsOf statement * (symW .semicolon * wordsOf statements) +
    wordsOf noColonStatement * wordsOf statements) := by
  refine (wordsOf_eq _).trans ?_
  simp [wordsOf_eq empty, add_comm, add_assoc]

theorem wordsOf_program_eq : wordsOf program = keyW .program * ({[.ident]} * (symW .semicolon *
    (wordsOf variableDeclaration * (wordsOf functionDeclaration * wordsOf statements)))) := by
  simp [wordsOf_eq program, wordsOf_eq globalDeclarations, wordsOf_eq mainGoto, wordsOf_eq empty]

/-! ## The words of goals -/

theorem Token.terminal_eq_symbol {s : Symbol} : t.terminal = .symbol s ↔ t = .symbol s := by
  cases t <;> simp [Token.terminal]

theorem Token.terminal_eq_keyword {k : Keyword} : t.terminal = .keyword k ↔ t = .keyword k := by
  cases t <;> simp [Token.terminal]

namespace Goal

/-- The words that a goal can take. -/
def words : Goal → Language Terminal
  | expect t => {[t.terminal]}
  | anyName => {[.ident]}
  | act _ | actIf _ _ | check _ => 1
  | declarations _ _ => wordsOf .variableDeclaration
  | declarator _ _ _ _ =>
    wordsOf .declarationIds * (symW .semicolon * wordsOf .variableDeclaration)
  | declared _ _ _ _ _ =>
    (1 + symW .lbracket * ({[.intVal]} * symW .rbracket)) *
      (wordsOf .otherDeclarationIds * (symW .semicolon * wordsOf .variableDeclaration))
  | arraySize _ _ _ _ _ =>
    {[.intVal]} * (symW .rbracket *
      (wordsOf .otherDeclarationIds * (symW .semicolon * wordsOf .variableDeclaration)))
  | moreNames _ _ _ _ =>
    wordsOf .otherDeclarationIds * (symW .semicolon * wordsOf .variableDeclaration)
  | functions => wordsOf .functionDeclaration
  | resultType =>
    (wordsOf .type + keyW .void) * ({[.ident]} * (symW .lparen *
      (wordsOf .parameters * bodyWords)))
  | functionName _ => {[.ident]} * (symW .lparen * (wordsOf .parameters * bodyWords))
  | parameters => wordsOf .parameters * bodyWords
  | parameterType _ =>
    wordsOf .type * ({[.ident]} * (wordsOf .otherParameters * bodyWords))
  | parameterName _ _ => {[.ident]} * (wordsOf .otherParameters * bodyWords)
  | moreParameters _ => wordsOf .otherParameters * bodyWords
  | statements _ => wordsOf .statements
  | nameStatement _ => nameWords
  | branches => wordsOf .optionalElses
  | moreBranches => wordsOf .otherElses
  | expression => wordsOf .expression
  | unsigned => wordsOf (level .logic)
  | operandOf l => wordsOf l.operand
  | factor => wordsOf .level6
  | tail l | chain l => wordsOf (chainedOps l)
  | powerTail => powerWords
  | reference _ callable =>
    1 + symW .lbracket * (wordsOf .expression * symW .rbracket) +
      if callable then callWords else 0
  | updatable => wordsOf .variableId
  | arguments => wordsOf .arguments
  | moreArguments => 1 + symW .comma * wordsOf .arguments

/-- The words that a stack of goals can take. -/
def stackWords (gs : List Goal) : Language Terminal :=
  (gs.map words).prod

@[simp]
theorem stackWords_nil : stackWords [] = 1 := rfl

@[simp]
theorem stackWords_cons (g : Goal) (gs : List Goal) :
    stackWords (g :: gs) = g.words * stackWords gs :=
  List.prod_cons

@[simp]
theorem stackWords_append (gs hs : List Goal) :
    stackWords (gs ++ hs) = stackWords gs * stackWords hs := by
  simp [stackWords]

/-- What holds of all goals that recognition uses: a goal that expects a token names the only one of
its class, and not one that begins a branch; statements are followed by a closing brace or by the
end. -/
def IsProper : Goal → Prop
  | expect t =>
    (∀ u : Token, u.terminal = t.terminal → u = t) ∧ t ≠ .keyword .else_ ∧ t ≠ .keyword .elseif
  | statements f => ∀ t, f.allows t = true → Follow.statementsEnd.allows t = true
  | _ => True

end Goal

open Goal

/-! ### Expressions -/

/-- A function gives the goals after the first token of each word of a language, none of which is
empty. -/
structure Opens (L : Language Terminal) (f : Token → Option (List Goal)) : Prop where
  nil : [] ∉ L
  cons : ∀ t w, t.terminal :: w ∈ L ↔ ∃ gs, f t = some gs ∧ w ∈ stackWords gs

theorem Opens.mul {f : Token → Option (List Goal)} (h : Opens L f) (gs : List Goal) :
    Opens (L * stackWords gs) fun t => (f t).map (· ++ gs) where
  nil := by simp [nil_mem_mul, h.nil]
  cons t w := by
    simp only [cons_mem_mul, h.nil, false_and, or_false, h.cons, Option.map_eq_some_iff]
    constructor
    · rintro ⟨u, v, rfl, ⟨hs, hhs, hu⟩, hv⟩
      exact ⟨_, ⟨hs, hhs, rfl⟩, by rw [stackWords_append]; exact append_mem_mul hu hv⟩
    · rintro ⟨_, ⟨hs, hhs, rfl⟩, hw⟩
      rw [stackWords_append] at hw
      obtain ⟨u, hu, v, hv, rfl⟩ := mem_mul.1 hw
      exact ⟨u, v, rfl, ⟨hs, hhs, hu⟩, hv⟩

theorem opens_level6 : Opens (wordsOf level6) afterFactor where
  nil := by
    simp [wordsOf_level6, wordsOf_variableId, wordsOf_call, wordsOf_special, wordsOf_increment,
      wordsOf_decrement, mem_add, nil_mem_mul, nil_notMem_singleton]
  cons t w := by
    rw [wordsOf_level6, wordsOf_call, wordsOf_special, wordsOf_increment, wordsOf_decrement]
    simp only [mem_add, cons_mem_singleton_mul, cons_mem_singleton]
    unfold afterFactor
    cases t with
    | symbol s =>
      cases s <;>
        simp [Token.terminal, Token.update?, updateRest, Goal.words, Goal.sym, wordsOf_variableId,
          cons_mem_singleton_mul]
    | keyword k =>
      simp [Token.terminal, Token.update?, wordsOf_variableId, cons_mem_singleton_mul]
    | _ =>
      simp [Token.terminal, specialCall, callRest, callWords, Goal.words, Goal.sym,
        wordsOf_variableId, cons_mem_singleton_mul, mem_add]

theorem Opens.congr {f f' : Token → Option (List Goal)} (h : Opens L f) (hf : ∀ t, f' t = f t) :
    Opens L f' := by
  rwa [funext hf]

/-- An operand of a sum is a product, or a negation. -/
theorem opens_product : Opens (wordsOf (level .product)) (afterOperand .sum) := by
  have hchain := opens_level6.mul [tail .product]
  have hfactor : afterFactor (.keyword .not) = none := rfl
  refine ⟨?_, fun t w => ?_⟩
  · simp [wordsOf_level_product, mem_add, nil_mem_mul, nil_notMem_singleton, opens_level6.nil]
  · have hcons := hchain.cons t w
    rw [stackWords_cons, stackWords_nil, mul_one] at hcons
    rw [wordsOf_level_product, mem_add, cons_mem_singleton_mul, Token.terminal_eq_keyword]
    refine (or_congr_left hcons).trans ?_
    by_cases ht : t = .keyword .not
    · subst ht
      simp [afterOperand, hfactor, Goal.words]
    · simp [afterOperand, ht]

theorem opens_operand (l : Level) : Opens (wordsOf l.operand) (afterOperand l) := by
  -- each level adds the tail of its chain
  have hnext : ∀ {l : Level} {f : Token → Option (List Goal)}, Opens (wordsOf l.operand) f →
      l ≠ .product → Opens (wordsOf (level l)) fun t => (f t).map (· ++ [tail l]) := by
    intro l f h hl
    have hmul := h.mul [tail l]
    rwa [stackWords_cons, stackWords_nil, mul_one,
      show (tail l).words = wordsOf (chainedOps l) from rfl, ← wordsOf_level hl] at hmul
  have hsum : Opens (wordsOf (level .sum)) (afterOperand .relation) := by
    refine (hnext (l := .sum) opens_product (by decide)).congr fun t => ?_
    by_cases ht : t = .keyword .not <;> simp [afterOperand, ht, Option.map_map, Function.comp_def]
  have hrelation : Opens (wordsOf (level .relation)) (afterOperand .logic) := by
    refine (hnext (l := .relation) hsum (by decide)).congr fun t => ?_
    by_cases ht : t = .keyword .not <;> simp [afterOperand, ht, Option.map_map, Function.comp_def]
  cases l with
  | product => exact opens_level6
  | sum => exact opens_product
  | relation => exact hsum
  | logic => exact hrelation

theorem opens_logic : Opens (wordsOf (level .logic)) afterUnsigned := by
  have h := (opens_operand .logic).mul [tail .logic]
  rwa [stackWords_cons, stackWords_nil, mul_one,
    show (tail .logic).words = wordsOf (chainedOps .logic) from rfl,
    ← wordsOf_level (by decide)] at h

theorem opens_expression : Opens (wordsOf .expression) afterExpression := by
  have h := opens_logic.mul [powerTail]
  rw [stackWords_cons, stackWords_nil, mul_one, show powerTail.words = powerWords from rfl] at h
  refine ⟨?_, fun t w => ?_⟩
  · simp [wordsOf_expression, add_mul, mem_add, nil_mem_mul, nil_notMem_singleton, opens_logic.nil]
  · rw [wordsOf_expression, add_mul, mem_add, h.cons]
    simp only [add_mul, mul_assoc, mem_add, cons_mem_singleton_mul, Token.terminal_eq_symbol]
    by_cases hplus : t = .symbol .plus
    · subst hplus
      simp [afterExpression, Token.sign?, Goal.words, show afterUnsigned (.symbol .plus) =
        none from rfl]
    · by_cases hminus : t = .symbol .minus
      · subst hminus
        simp [afterExpression, Token.sign?, Goal.words, show afterUnsigned (.symbol .minus) =
          none from rfl]
      · have hsign : t.sign? = none := by
          unfold Token.sign?
          split
          · exact absurd rfl hplus
          · exact absurd rfl hminus
          · rfl
        simp [afterExpression, hsign, hplus, hminus]

/-! ### Statements -/

theorem opens_statements : Opens (wordsOf .statement * (symW .semicolon * wordsOf .statements) +
    wordsOf .noColonStatement * wordsOf .statements) fun t =>
      (afterStatement t).map (· ++ [.statements .statementsEnd]) where
  nil := by
    simp [wordsOf_statement, wordsOf_noColonStatement, wordsOf_special, wordsOf_increment,
      wordsOf_decrement, mem_add, add_mul, nil_mem_mul, nil_notMem_singleton]
  cons t w := by
    rw [wordsOf_statement, wordsOf_noColonStatement, wordsOf_special, wordsOf_increment,
      wordsOf_decrement]
    simp only [add_mul, mul_assoc, mem_add, cons_mem_singleton_mul]
    cases t with
    | symbol s =>
      cases s <;> simp [afterStatement, Token.terminal, Token.update?, updateRest,
        Goal.words, Goal.sym]
    | keyword k =>
      cases k <;> simp [afterStatement, Token.terminal, Token.update?, ifGoals, whileGoals,
        conditionGoals, blockGoals, conditionWords, wordsOf_block, Goal.words, Goal.sym, mul_assoc]
    | _ =>
      simp [afterStatement, Token.terminal, Token.update?, specialCall, callRest, callWords,
        Goal.words, Goal.sym, mul_assoc]

/-! ### All goals -/

/-- The operators of a level, by class. -/
theorem mem_operators : t.terminal ∈ l.operators ↔ (l.operator? t).isSome = true := by
  cases t with
  | symbol s => cases l <;> cases s <;> decide
  | keyword k =>
    cases l <;> cases k <;> simp [Token.terminal, Level.operators, Level.operator?,
      Token.multiplicative?, Token.additive?, Token.comparison?, Token.connective?]
  | _ =>
    cases l <;> simp [Token.terminal, Level.operators, Level.operator?, Token.multiplicative?,
      Token.additive?, Token.comparison?, Token.connective?]

theorem cons_mem_chainedOps :
    t.terminal :: w ∈ wordsOf (chainedOps l) ↔
      (l.operator? t).isSome = true ∧ w ∈ wordsOf l.operand * wordsOf (chainedOps l) := by
  have hsum : ∀ (os : List Terminal) (L : Language Terminal),
      t.terminal :: w ∈ (os.map fun o => {[o]} * L).sum ↔ t.terminal ∈ os ∧ w ∈ L := by
    intro os L
    induction os with
    | nil => simp
    | cons o os ih => simp [mem_add, cons_mem_singleton_mul, ih, or_and_right]
  rw [← mem_operators, ← hsum]
  conv_lhs => rw [wordsOf_chainedOps]
  simp [mem_add]

/-- A goal takes the token and leaves goals that can take a word. -/
def Reaction.Leaves (r : Reaction) (w : List Terminal) : Prop :=
  ∃ es gs, r = .shift es gs ∧ w ∈ stackWords gs

namespace Reaction

@[simp]
theorem leaves_shift {gs : List Goal} : (shift es gs).Leaves w ↔ w ∈ stackWords gs := by
  simp [Leaves]

@[simp]
theorem not_leaves_done : ¬(done es).Leaves w := by
  simp [Leaves]

@[simp]
theorem not_leaves_reject : ¬reject.Leaves w := by
  simp [Leaves]

@[simp]
theorem not_leaves_doneIf {f : Follow} {t : Option Token} : ¬(doneIf f t es).Leaves w := by
  unfold doneIf
  split <;> simp

@[simp]
theorem leaves_shiftIf {gs : Option (List Goal)} :
    (shiftIf gs).Leaves w ↔ ∃ hs, gs = some hs ∧ w ∈ stackWords hs := by
  cases gs <;> simp [shiftIf]

end Reaction

theorem cons_mem_type_mul :
    t.terminal :: w ∈ wordsOf type * L ↔ (∃ ty, t = .keyword (.type ty)) ∧ w ∈ L := by
  rw [wordsOf_type]
  simp only [add_mul, mem_add, cons_mem_singleton_mul, Token.terminal_eq_keyword, ← or_and_right]
  refine and_congr_left fun _ => ⟨?_, ?_⟩
  · rintro (rfl | rfl | rfl | rfl | rfl) <;> exact ⟨_, rfl⟩
  · rintro ⟨ty, rfl⟩
    cases ty <;> simp

/-- The rest of a declaration after a name. -/
theorem leaves_afterName {site : Site} {vars : List Declaration} {ty : Ty}
    {names : List Declaration} : (afterName site vars ty names t).Leaves w ↔
      t.terminal :: w ∈ (moreNames site vars ty names).words := by
  simp only [Goal.words, wordsOf_otherDeclarationIds, add_mul, one_mul, mul_assoc, mem_add,
    cons_mem_singleton_mul, Token.terminal_eq_symbol]
  unfold afterName
  split <;> simp_all [Goal.words]

/-- The body of a function. -/
theorem stackWords_bodyGoals (params : List Declaration) :
    symW .rparen * stackWords (bodyGoals params) = bodyWords := by
  simp [bodyGoals, bodyWords, Goal.words, Goal.sym, Token.terminal]

theorem cons_mem_bodyWords (params : List Declaration) :
    t.terminal :: w ∈ bodyWords ↔ t = .symbol .rparen ∧ w ∈ stackWords (bodyGoals params) := by
  rw [← stackWords_bodyGoals params, cons_mem_singleton_mul, Token.terminal_eq_symbol]

theorem stackWords_callRest (e : Event) : symW .lparen * stackWords (callRest e) = callWords := by
  simp [callRest, callWords, Goal.words, Goal.sym, Token.terminal]

theorem cons_mem_callWords (e : Event) :
    t.terminal :: w ∈ callWords ↔ t = .symbol .lparen ∧ w ∈ stackWords (callRest e) := by
  rw [← stackWords_callRest e, cons_mem_singleton_mul, Token.terminal_eq_symbol]

theorem stackWords_elseGoals : stackWords elseGoals = wordsOf block := by
  simp [elseGoals, blockGoals, wordsOf_block, Goal.words, Goal.sym, Token.terminal]

theorem stackWords_elseifGoals :
    stackWords elseifGoals = conditionWords * (wordsOf block * wordsOf optionalElses) := by
  simp [elseifGoals, conditionGoals, blockGoals, conditionWords, wordsOf_block,
    Goal.words, Goal.sym, Token.terminal, mul_assoc]

theorem cons_mem_elseifElse_mul :
    t.terminal :: w ∈ wordsOf elseifElse * L ↔ t = .keyword .else_ ∧ w ∈ stackWords elseGoals * L ∨
      t = .keyword .elseif ∧ w ∈ stackWords elseifGoals * L := by
  simp only [wordsOf_elseifElse, add_mul, mul_assoc, mem_add, cons_mem_singleton_mul,
    Token.terminal_eq_keyword, stackWords_elseGoals, stackWords_elseifGoals]

/-- A goal takes a token exactly if the token begins one of its words, and leaves the rest to the
goals that take its place. -/
theorem cons_mem_words {g : Goal} (hg : g.IsProper) :
    t.terminal :: w ∈ g.words ↔ (g.reactTo t).Leaves w := by
  cases g with
  | expect u =>
    simp only [Goal.words, cons_mem_singleton, reactTo]
    by_cases ht : t = u
    · simp [ht]
    · have ht' : t.terminal ≠ u.terminal := fun h => ht (hg.1 t h)
      simp [ht, ht']
  | anyName => cases t <;> simp [Goal.words, reactTo, cons_mem_singleton, Token.terminal]
  | act | actIf | check => simp [Goal.words, reactTo]
  | declarations =>
    simp only [Goal.words]
    rw [wordsOf_variableDeclaration, mem_add, cons_mem_type_mul]
    simp only [reactTo]
    split <;> simp_all [Goal.words]
  | declarator =>
    cases t <;>
      simp [Goal.words, reactTo, wordsOf_declarationIds, mul_assoc, cons_mem_singleton_mul,
        Token.terminal]
  | declared site vars ty names name =>
    -- Without an index the goal goes on as after any name.
    have hmore : (afterName site vars ty (scalar ty name :: names) t).Leaves w ↔ _ :=
      leaves_afterName
    simp only [Goal.words] at hmore ⊢
    rw [add_mul, one_mul, mem_add, ← hmore, mul_assoc, cons_mem_singleton_mul,
      Token.terminal_eq_symbol]
    simp only [reactTo]
    split <;> simp_all [Goal.words, afterName, mul_assoc]
  | arraySize =>
    cases t <;> simp [Goal.words, Goal.sym, reactTo, cons_mem_singleton_mul, Token.terminal]
  | moreNames => exact leaves_afterName.symm
  | functions =>
    simp only [Goal.words]
    rw [wordsOf_functionDeclaration, mem_add, cons_mem_singleton_mul, Token.terminal_eq_keyword]
    simp only [reactTo]
    split <;> simp_all [Goal.words]
  | resultType =>
    simp only [Goal.words, add_mul, mem_add, cons_mem_type_mul, cons_mem_singleton_mul,
      Token.terminal_eq_keyword, reactTo]
    split <;> simp_all [Goal.words]
  | functionName =>
    cases t <;> simp [Goal.words, Goal.sym, reactTo, cons_mem_singleton_mul, Token.terminal]
  | parameters =>
    simp only [Goal.words, wordsOf_parameters, add_mul, one_mul, mul_assoc, mem_add,
      cons_mem_type_mul, cons_mem_bodyWords [], reactTo]
    split <;> simp_all [Goal.words]
  | parameterType =>
    simp only [Goal.words, cons_mem_type_mul, reactTo]
    split <;> simp_all [Goal.words]
  | parameterName => cases t <;> simp [Goal.words, reactTo, cons_mem_singleton_mul, Token.terminal]
  | moreParameters params =>
    simp only [Goal.words]
    rw [wordsOf_otherParameters]
    simp only [add_mul, one_mul, mul_assoc, mem_add, cons_mem_bodyWords params,
      cons_mem_singleton_mul, Token.terminal_eq_symbol, reactTo]
    split <;> simp_all [Goal.words]
  | statements =>
    simp only [Goal.words]
    rw [wordsOf_statements, mem_add, opens_statements.cons]
    simp only [reactTo]
    cases afterStatement t <;> simp
  | nameStatement name =>
    simp only [Goal.words, nameWords, mem_add, cons_mem_callWords (.endCall name),
      cons_mem_singleton_mul, Token.terminal_eq_symbol, reactTo]
    split <;> simp_all [Goal.words, Goal.sym, Token.terminal]
  | branches =>
    simp only [Goal.words, wordsOf_optionalElses, mem_add, cons_mem_elseifElse_mul, reactTo]
    split <;> simp_all [Goal.words]
  | moreBranches =>
    have h := cons_mem_elseifElse_mul (t := t) (w := w) (L := 1)
    simp only [mul_one] at h
    simp only [Goal.words, wordsOf_otherElses, mem_add, h, reactTo]
    split <;> simp_all
  | expression => simp [Goal.words, reactTo, opens_expression.cons]
  | unsigned => simp [Goal.words, reactTo, opens_logic.cons]
  | operandOf l => simp [Goal.words, reactTo, (opens_operand l).cons]
  | factor => simp [Goal.words, reactTo, opens_level6.cons]
  | tail l | chain l =>
    simp only [Goal.words, cons_mem_chainedOps, reactTo]
    cases l.operator? t <;> simp [Goal.words]
  | powerTail =>
    simp only [Goal.words, powerWords, mem_add, cons_mem_singleton_mul,
      Token.terminal_eq_symbol, reactTo, Token.isPower]
    split <;> simp_all [Goal.words]
  | reference name callable =>
    cases callable <;>
      simp only [Goal.words, mem_add, cons_mem_singleton_mul, cons_mem_callWords (.endCall name),
        Token.terminal_eq_symbol, reactTo, if_true, Bool.false_eq_true, if_false] <;>
      split <;> simp_all [Goal.words, Goal.sym, Token.terminal]
  | updatable =>
    cases t <;> simp [Goal.words, reactTo, wordsOf_variableId, cons_mem_singleton_mul,
      Token.terminal]
  | arguments =>
    have h := (opens_expression.mul [moreArguments]).cons t w
    simp only [stackWords_cons, stackWords_nil, mul_one, Goal.words] at h ⊢
    rw [wordsOf_arguments, mem_add, h]
    -- No expression begins with the bracket that closes the call.
    by_cases ht : t = .symbol .rparen
    · simp [reactTo, ht, show afterExpression (.symbol .rparen) = none from rfl]
    · simp [reactTo, ht]
  | moreArguments =>
    simp only [Goal.words, mem_add, cons_mem_singleton_mul, Token.terminal_eq_symbol, reactTo]
    split <;> simp_all [Goal.words]

end Symphony
