import Symphony.Proofs.Recognition

/-!
# Lookahead

A goal that needs no token is done when the next token can follow it. Each goal of a stack allows
every token with which the goals below it can begin (`Fits`), so it is never done too late and never
stops a word of the grammar. The goals that a goal leaves in its place fit where it stood
(`fits_of_shift`), which makes `Fits` an invariant of recognition.
-/

namespace Symphony

open Nonterminal Language

variable {e : Event} {f : Follow}

namespace Goal

/-! ## What may follow a goal -/

/-- Goals that can be done without taking a token. -/
def nullable : Goal → Bool
  | act _ | actIf _ _ | check _ | declarations _ _
  | functions | statements _ | branches | moreBranches
  | tail _ | chain _ | powerTail | reference _ _ | arguments | moreArguments => true
  | _ => false

theorem nil_mem_of_eq_one_add {L M : Language Terminal} (h : L = 1 + M) : [] ∈ L := by
  rw [h, mem_add]
  exact .inl nil_mem_one

theorem nil_mem_words (g : Goal) : [] ∈ g.words ↔ g.nullable = true := by
  cases g with
  | declarations => exact iff_of_true (nil_mem_of_eq_one_add wordsOf_variableDeclaration) rfl
  | functions => exact iff_of_true (nil_mem_of_eq_one_add wordsOf_functionDeclaration) rfl
  | statements => exact iff_of_true (nil_mem_of_eq_one_add wordsOf_statements) rfl
  | branches => exact iff_of_true (nil_mem_of_eq_one_add wordsOf_optionalElses) rfl
  | moreBranches => exact iff_of_true (nil_mem_of_eq_one_add wordsOf_otherElses) rfl
  | tail l | chain l => exact iff_of_true (nil_mem_of_eq_one_add (wordsOf_chainedOps l)) rfl
  | arguments => exact iff_of_true (nil_mem_of_eq_one_add wordsOf_arguments) rfl
  | expression => exact iff_of_false opens_expression.nil (by simp [nullable])
  | unsigned => exact iff_of_false opens_logic.nil (by simp [nullable])
  | operandOf l => exact iff_of_false (opens_operand l).nil (by simp [nullable])
  | factor => exact iff_of_false opens_level6.nil (by simp [nullable])
  | _ =>
    simp [words, nullable, mem_add, nil_mem_mul, nil_notMem_singleton, powerWords,
      nameWords, callWords, bodyWords, wordsOf_variableId, wordsOf_declarationIds, wordsOf_type]

end Goal

/-- What can follow an operand of a chain: its operators, and what can follow the chain. -/
def Level.operandFollow : Level → Follow
  | product => .factor
  | sum => .product
  | relation => .sum
  | logic => .relation

namespace Goal

/-- The tokens that may come after the words of a goal. -/
def allowsNext : Goal → Option Token → Bool
  | expect _, _ | anyName, _ | act _, _ => true
  | actIf f _, t | check f, t | statements f, t => f.allows t
  | declarations site _, t | declarator site _ _ _, t | declared site _ _ _ _, t
  | arraySize site _ _ _ _, t
  | moreNames site _ _ _, t => site.follow.allows t
  | functions, t | resultType, t | functionName _, t | parameters, t | parameterType _, t
  | parameterName _ _, t | moreParameters _, t => Follow.functions.allows t
  | nameStatement _, t | expression, t | powerTail, t => Follow.expression.allows t
  | branches, t | moreBranches, t => Follow.block.allows t
  | unsigned, t => Follow.logic.allows t
  | operandOf l, t => l.operandFollow.allows t
  | factor, t | reference _ _, t | updatable, t => Follow.factor.allows t
  | tail l, t | chain l, t => l.follow.allows t
  | arguments, t | moreArguments, t => t == some (.symbol .rparen)

/-- A goal takes a token. -/
def Shifts (g : Goal) (t : Token) : Prop :=
  ∃ es gs, g.reactTo t = .shift es gs

/-- The tokens with which the words of a stack of goals can begin, if what comes after them begins
with one of the given ones. -/
def Leads (next : Option Token → Prop) : List Goal → Option Token → Prop
  | [], t => next t
  | g :: gs, t => (∃ u, t = some u ∧ g.Shifts u) ∨ (g.nullable = true ∧ Leads next gs t)

/-- Each goal of a stack allows what comes after it. -/
def Fits (next : Option Token → Prop) : List Goal → Prop
  | [] => True
  | g :: gs => g.IsProper ∧ (∀ t, Leads next gs t → g.allowsNext t = true) ∧ Fits next gs

variable {next next' : Option Token → Prop} {g : Goal} {gs hs : List Goal} {t : Option Token}
  {l : Level} {u : Token}

theorem fits_nil : Fits next [] :=
  trivial

theorem Leads.mono (h : ∀ t, next t → next' t) (hl : Leads next gs t) : Leads next' gs t := by
  induction gs with
  | nil => exact h t hl
  | cons g gs ih => exact hl.imp_right fun ⟨hn, hl⟩ => ⟨hn, ih hl⟩

theorem leads_append : Leads next (gs ++ hs) t ↔ Leads (Leads next hs) gs t := by
  induction gs with
  | nil => rfl
  | cons g gs ih => simp only [List.cons_append, Leads, ih]

theorem Fits.mono (h : ∀ t, next t → next' t) (hf : Fits next' gs) : Fits next gs := by
  induction gs with
  | nil => trivial
  | cons g gs ih => exact ⟨hf.1, fun t ht => hf.2.1 t (ht.mono h), ih hf.2.2⟩

theorem fits_append : Fits next (gs ++ hs) ↔ Fits (Leads next hs) gs ∧ Fits next hs := by
  induction gs with
  | nil => exact ⟨fun h => ⟨trivial, h⟩, fun h => h.2⟩
  | cons g gs ih => simp only [List.cons_append, Fits, ih, leads_append, and_assoc]

/-! ### Tokens that goals take -/

@[simp]
theorem shifts_expect {v : Token} : (expect v).Shifts u ↔ u = v := by
  by_cases h : u = v <;> simp [Shifts, reactTo, h]

@[simp]
theorem terminal_symbol (s : Symbol) : (Token.symbol s).terminal = .symbol s := rfl

@[simp]
theorem not_shifts_act : ¬(act e).Shifts u := by
  simp [Shifts, reactTo]

@[simp]
theorem not_shifts_actIf : ¬(actIf f e).Shifts u := by
  simp [Shifts, reactTo, doneIf_ne_shift]

@[simp]
theorem not_shifts_check : ¬(check f).Shifts u := by
  simp [Shifts, reactTo, doneIf_ne_shift]

theorem isSome_afterFactor (h : (afterFactor u).isSome = true) : u.startsExpression = true := by
  cases u with
  | symbol s => cases s <;> first | rfl | cases h
  | keyword k => cases h
  | _ => rfl

theorem isSome_afterOperand (h : (afterOperand l u).isSome = true) : u.startsExpression = true := by
  by_cases hu : u = .keyword .not
  · rw [hu]
    rfl
  · cases l with
    | product => exact isSome_afterFactor h
    | _ => exact isSome_afterFactor (by simpa [afterOperand, hu] using h)

theorem shifts_expression (h : expression.Shifts u) : u.startsExpression = true := by
  obtain ⟨es, hs, h⟩ := h
  have hsome := Option.isSome_of_mem (shiftIf_eq_shift h).2
  unfold afterExpression at hsome
  split at hsome
  case h_1 o ho =>
    unfold Token.sign? at ho
    split at ho <;> first | rfl | cases ho
  case h_2 => exact isSome_afterOperand (l := .logic) (by simpa [afterUnsigned] using hsome)

theorem shifts_statements (h : (statements f).Shifts u) : u.startsStatement = true := by
  obtain ⟨es, hs, h⟩ := h
  cases u with
  | symbol s => cases s <;> first | rfl | exact absurd h doneIf_ne_shift
  | keyword k => cases k <;> first | rfl | exact absurd h doneIf_ne_shift
  | ident | special => rfl
  | _ => exact absurd h doneIf_ne_shift

/-! ### Goals that take the place of others -/

/-- What a construct may be followed by. -/
abbrev Allows (f : Follow) (t : Option Token) : Prop :=
  f.allows t = true

/-- The operators of a chain can follow its operands. -/
theorem allows_operator (h : (l.operator? u).isSome = true) : Allows l.operandFollow (some u) := by
  cases l <;> simp_all [Allows, Level.operator?, Level.operandFollow, Follow.allows]

theorem allows_operandFollow (h : Allows l.follow t) : Allows l.operandFollow t := by
  cases l <;> cases t <;> simp_all [Allows, Level.follow, Level.operandFollow, Follow.allows]

theorem allows_logic (h : Allows .expression t) : Allows .logic t := by
  cases t <;> simp_all [Allows, Follow.allows]

@[simp]
theorem shifts_tail : (tail l).Shifts u ↔ (l.operator? u).isSome = true := by
  simp only [Shifts, reactTo]
  cases l.operator? u <;> simp [doneIf_ne_shift]

@[simp]
theorem shifts_chain : (chain l).Shifts u ↔ (l.operator? u).isSome = true := by
  simp only [Shifts, reactTo]
  cases l.operator? u <;> simp [doneIf_ne_shift]

/-- What comes after an operand of a chain. -/
theorem leads_tail (h : ∀ t, Leads next gs t → Allows l.follow t)
    (hl : Leads next (tail l :: gs) t) :
    Allows l.operandFollow t := by
  obtain ⟨u, rfl, hu⟩ | ⟨-, hl⟩ := hl
  · exact allows_operator (shifts_tail.1 hu)
  · exact allows_operandFollow (h t hl)

theorem fits_tail (h : ∀ t, Leads next gs t → Allows l.follow t) (hgs : Fits next gs) :
    Fits next (tail l :: gs) :=
  ⟨trivial, h, hgs⟩

theorem fits_callRest (e : Event) : Fits (Allows .factor) (callRest e) := by
  simp [callRest, sym, Fits, Leads, allowsNext, nullable, IsProper, Token.terminal_eq_symbol]

theorem fits_specialCall (name : String) : Fits (Allows .factor) (specialCall name) := by
  simp [specialCall, callRest, sym, Fits, Leads, allowsNext, nullable, IsProper,
    Token.terminal_eq_symbol]

theorem fits_updateRest (o : UnOp) : Fits (Allows .factor) (updateRest o) := by
  simp [updateRest, Fits, Leads, allowsNext, nullable, IsProper]

theorem fits_afterFactor (h : afterFactor u = some gs) : Fits (Allows .factor) gs := by
  cases u with
  | intVal | decVal | charVal | strVal | boolVal | ident =>
    cases h
    simp [Fits, Leads, allowsNext, IsProper]
  | special =>
    cases h
    exact fits_specialCall _
  | keyword => cases h
  | symbol s =>
    cases s <;> cases h
    · exact fits_updateRest _
    · exact fits_updateRest _
    · simp [sym, Fits, Leads, allowsNext, nullable, IsProper, Token.terminal_eq_symbol]
      rfl

/-- A product or a negation, before the tails that make it an operand of a level. -/
theorem fits_product {tails : List Goal} (hlead : ∀ t, Leads next tails t → Allows .product t)
    (htails : Fits next tails)
    (h : (if u = .keyword .not then some (factor :: actIf .product (.unary .not) :: tails)
      else (afterFactor u).map (· ++ tail .product :: tails)) = some gs) : Fits next gs := by
  split at h
  · cases h
    refine ⟨trivial, fun t ht => ?_, trivial, hlead, htails⟩
    simp only [Leads, not_shifts_actIf, and_false, exists_false, false_or] at ht
    exact allows_operandFollow (l := .product) (hlead t ht.2)
  · obtain ⟨hs, hhs, rfl⟩ := Option.map_eq_some_iff.1 h
    exact fits_append.2 ⟨(fits_afterFactor hhs).mono fun t => leads_tail (l := .product) hlead,
      fits_tail hlead htails⟩

theorem fits_afterOperand (h : afterOperand l u = some gs) : Fits (Allows l.operandFollow) gs := by
  have hsum : ∀ t, Leads (Allows .sum) [tail .sum] t → Allows .product t := fun _ =>
    leads_tail (l := .sum) fun _ h => h
  have hrelation : ∀ t, Leads (Allows .relation) [tail .relation] t → Allows .sum t := fun _ =>
    leads_tail (l := .relation) fun _ h => h
  cases l with
  | product => exact fits_afterFactor h
  | sum =>
    exact fits_product (show ∀ t, Leads (Allows .product) [] t → _ from fun _ h => h) trivial h
  | relation => exact fits_product hsum (fits_tail (fun _ h => h) trivial) h
  | logic =>
    exact fits_product (fun _ => leads_tail (l := .sum) hrelation)
      (fits_tail hrelation (fits_tail (fun _ h => h) trivial)) h

theorem fits_afterUnsigned (h : afterUnsigned u = some gs) : Fits (Allows .logic) gs := by
  obtain ⟨hs, hhs, rfl⟩ := Option.map_eq_some_iff.1 h
  exact fits_append.2 ⟨(fits_afterOperand hhs).mono fun t => leads_tail (l := .logic) fun _ h => h,
    fits_tail (fun _ h => h) trivial⟩

/-- What comes after the base of a power. -/
theorem leads_powerTail (h : Leads (Allows .expression) [powerTail] t) : Allows .logic t := by
  obtain ⟨u, rfl, es, hs, hu⟩ | ⟨-, h⟩ := h
  · have hpower : u.isPower = true := by
      by_contra hne
      simp [reactTo, hne, doneIf_ne_shift] at hu
    simp [Allows, Follow.allows, hpower]
  · exact allows_logic h

theorem fits_afterExpression (h : afterExpression u = some gs) : Fits (Allows .expression) gs := by
  unfold afterExpression at h
  split at h
  · cases h
    refine ⟨trivial, fun t ht => ?_, trivial, fun _ => leads_powerTail, trivial,
      fun _ h => h, trivial⟩
    simp only [Leads, not_shifts_actIf, and_false, exists_false, false_or] at ht
    exact leads_powerTail ht.2
  · obtain ⟨hs, hhs, rfl⟩ := Option.map_eq_some_iff.1 h
    exact fits_append.2 ⟨(fits_afterUnsigned hhs).mono fun _ => leads_powerTail,
      trivial, fun _ h => h, trivial⟩

/-! #### Statements and declarations -/

theorem allows_statementsEnd (h : Allows .blockEnd t) : Allows .statementsEnd t := by
  cases t <;> simp_all [Allows, Follow.allows]

theorem allows_block (h : Allows .statement t) : Allows .block t := by
  cases t with
  | none => rfl
  | some u => simp_all [Allows, Follow.allows]

theorem allows_statement (h : Allows .statementsEnd t) : Allows .statement t := by
  cases t <;> simp_all [Allows, Follow.allows]

theorem allows_globals (h : Allows .functions t) : Allows .globals t := by
  cases t <;> simp_all [Allows, Follow.allows]

theorem allows_factor (h : Allows .expression t) : Allows .factor t :=
  allows_operandFollow (l := .product) <| allows_operandFollow (l := .sum) <|
    allows_operandFollow (l := .relation) <| allows_operandFollow (l := .logic) <| allows_logic h

@[simp]
theorem shifts_branches : branches.Shifts u ↔ u = .keyword .else_ ∨ u = .keyword .elseif := by
  simp only [Shifts, reactTo]
  split <;> simp_all [doneIf_ne_shift]

@[simp]
theorem shifts_moreBranches :
    moreBranches.Shifts u ↔ u = .keyword .else_ ∨ u = .keyword .elseif := by
  simp only [Shifts, reactTo]
  split <;> simp_all [doneIf_ne_shift]

@[simp]
theorem shifts_functions : functions.Shifts u ↔ u = .keyword .fun_ := by
  simp only [Shifts, reactTo]
  split <;> simp_all [doneIf_ne_shift]

@[simp]
theorem shifts_moreNames {site : Site} {vars names : List Declaration} {ty : Ty} :
    (moreNames site vars ty names).Shifts u ↔ u = .symbol .comma ∨ u = .symbol .semicolon := by
  simp only [Shifts, reactTo, afterName]
  split <;> simp_all

@[simp]
theorem shifts_moreArguments : moreArguments.Shifts u ↔ u = .symbol .comma := by
  simp only [Shifts, reactTo]
  split <;> simp_all

theorem leads_branches (h : ∀ t, Leads next gs t → Allows .block t)
    (hl : Leads next (branches :: gs) t) : Allows .block t := by
  obtain ⟨u, rfl, hu⟩ | ⟨-, hl⟩ := hl
  · obtain rfl | rfl := shifts_branches.1 hu <;> rfl
  · exact h t hl

theorem leads_moreBranches (h : Leads (Allows .block) [moreBranches] t) : Allows .block t := by
  obtain ⟨u, rfl, hu⟩ | ⟨-, h⟩ := h
  · obtain rfl | rfl := shifts_moreBranches.1 hu <;> rfl
  · exact h

theorem fits_blockGoals : Fits (Allows .block) blockGoals := by
  simp [blockGoals, sym, Fits, Leads, allowsNext, nullable, IsProper, Token.terminal_eq_symbol]
  exact ⟨fun _ => allows_statementsEnd, rfl⟩

theorem fits_conditionGoals (e : Event) : Fits next (conditionGoals e) := by
  simp [conditionGoals, sym, Fits, Leads, allowsNext, nullable, IsProper, Token.terminal_eq_symbol]
  rfl

theorem fits_sym_cons {s : Symbol} (h : Fits next gs) : Fits next (sym s :: gs) :=
  ⟨⟨fun _ => Token.terminal_eq_symbol.1, by simp, by simp⟩, fun _ _ => rfl, h⟩

theorem fits_act_cons (h : Fits next gs) : Fits next (act e :: gs) :=
  ⟨trivial, fun _ _ => rfl, h⟩

theorem fits_elseGoals : Fits (Allows .block) elseGoals :=
  fits_act_cons <| fits_append.2 ⟨fits_blockGoals.mono fun _ => by simp [Leads, nullable],
    trivial, fun _ h => h, trivial⟩

theorem fits_elseifGoals : Fits (Allows .block) elseifGoals := by
  refine fits_act_cons <| fits_sym_cons <| fits_append.2
    ⟨fits_append.2 ⟨fits_conditionGoals _, ?_⟩, ?_⟩
  · exact fits_blockGoals.mono fun _ => leads_branches fun _ => by simp [Leads, nullable]
  · refine ⟨trivial, fun _ => ?_, trivial, fun _ h => h, trivial⟩
    simp [Leads, nullable, allowsNext]

theorem fits_ifGoals : Fits (Allows .statement) ifGoals :=
  fits_sym_cons <| fits_append.2 ⟨fits_append.2 ⟨fits_conditionGoals _,
    fits_blockGoals.mono fun _ => leads_branches fun _ => allows_block⟩,
    trivial, fun _ => allows_block, trivial⟩

theorem fits_whileGoals : Fits (Allows .statement) whileGoals := by
  refine fits_sym_cons ⟨trivial, fun t ht => ?_, ?_⟩
  · obtain ⟨u, rfl, hu⟩ | ⟨h, -⟩ := ht
    · exact shifts_expression hu
    · cases h
  · refine fits_append.2 ⟨fits_append.2 ⟨fits_conditionGoals _, ?_⟩, ?_⟩
    · exact fits_blockGoals.mono fun _ h => allows_block (by simpa [Leads, nullable] using h)
    · refine ⟨trivial, fun _ => ?_, trivial, fun _ h => h, trivial⟩
      simp [Leads, nullable, allowsNext]

theorem fits_expression_act (e : Event) : Fits (Allows .expression) [expression, act e] :=
  ⟨trivial, fun _ h => by simpa [Leads, nullable, allowsNext] using h, fits_act_cons fits_nil⟩

/-- Statements that end with a semicolon. -/
theorem fits_semicolon (hgs : Fits (Allows .expression) gs) :
    Fits next (gs ++ [sym .semicolon]) := by
  refine fits_append.2 ⟨hgs.mono fun t ht => ?_, fits_sym_cons trivial⟩
  simp only [Leads, sym, shifts_expect, nullable, Bool.false_eq_true, false_and, or_false] at ht
  obtain ⟨u, rfl, rfl⟩ := ht
  rfl

theorem fits_afterStatement (h : afterStatement u = some gs) : Fits (Allows .statement) gs := by
  cases u with
  | symbol s =>
    cases s <;> cases h
    · exact fits_semicolon ((fits_updateRest _).mono fun _ => allows_factor)
    · exact fits_semicolon ((fits_updateRest _).mono fun _ => allows_factor)
  | keyword k =>
    cases k <;> cases h
    · exact fits_ifGoals
    · exact fits_whileGoals
    · exact fits_semicolon (fits_act_cons fits_nil)
    · exact fits_semicolon (fits_expression_act _)
  | ident name =>
    cases h
    have hname : Fits (Allows .expression) [nameStatement name] := ⟨trivial, fun _ h => h, trivial⟩
    exact fits_semicolon hname
  | special name =>
    cases h
    exact fits_semicolon ((fits_specialCall name).mono fun _ => allows_factor)
  | _ => cases h

theorem fits_bodyGoals (params : List Declaration) :
    Fits (Allows .functions) (bodyGoals params) := by
  have hfunctions : ∀ t, Leads (Allows .functions) [functions] t → Allows .globals t := by
    rintro t (⟨u, rfl, hu⟩ | ⟨-, h⟩)
    · rw [shifts_functions.1 hu]
      rfl
    · exact allows_globals h
  have hrbrace : ∀ {t : Option Token} {hs : List Goal},
      Leads (Allows .functions) (sym .rbrace :: hs) t → t = some (.symbol .rbrace) := by
    simp [Leads, sym, nullable]
  have hlocals : ∀ {t : Option Token} {hs : List Goal},
      Leads (Allows .functions) (statements .blockEnd :: sym .rbrace :: hs) t →
        Allows .locals t := by
    rintro t hs (⟨u, rfl, hu⟩ | ⟨-, h⟩)
    · simp [Allows, Follow.allows, shifts_statements hu]
    · rw [hrbrace h]
      rfl
  refine fits_sym_cons ⟨trivial, fun _ => hlocals, fun _ => allows_statementsEnd,
    fun t ht => ?_, ?_⟩
  · rw [hrbrace ht]
    rfl
  · exact fits_sym_cons ⟨trivial, hfunctions, trivial, fun _ h => h, trivial⟩

theorem fits_arraySize (site : Site) (vars names : List Declaration) (ty : Ty) (n : Int) :
    Fits (Allows site.follow) [actIf .factor (.constant .int (.int n)), sym .rbracket,
      actIf .declarator .dropSize, moreNames site vars ty names] := by
  simp [sym, Fits, Leads, allowsNext, nullable, IsProper, Token.terminal_eq_symbol]
  refine ⟨rfl, ?_⟩
  rintro t u rfl (rfl | rfl) <;> rfl

theorem fits_singleton (hg : g.IsProper) (h : ∀ t, next t → g.allowsNext t = true) :
    Fits next [g] :=
  ⟨hg, h, trivial⟩

theorem fits_afterName {site : Site} {vars names : List Declaration} {ty : Ty} {es : List Event}
    (h : afterName site vars ty names u = .shift es gs) : Fits (Allows site.follow) gs := by
  unfold afterName at h
  split at h <;> cases h <;> exact fits_singleton trivial fun _ h => h

/-- The goals that take the place of a goal fit where it stood. -/
theorem fits_of_shift {es : List Event} (hg : g.IsProper) (h : g.reactTo u = .shift es gs) :
    Fits (fun t => g.allowsNext t = true) gs := by
  cases g with
  | expect v =>
    simp only [reactTo] at h
    split at h <;> cases h
    trivial
  | anyName => cases u <;> cases h; trivial
  | act => cases h
  | actIf | check => exact absurd h doneIf_ne_shift
  | declarations site =>
    simp only [reactTo] at h
    split at h
    · cases h
      exact fits_singleton trivial fun _ h => h
    · exact absurd h doneIf_ne_shift
  | declarator => cases u <;> cases h; exact fits_singleton trivial fun _ h => h
  | declared =>
    simp only [reactTo] at h
    split at h
    · cases h
      exact fits_singleton trivial fun _ h => h
    · exact fits_afterName h
  | arraySize => cases u <;> cases h; exact fits_arraySize _ _ _ _ _
  | moreNames => exact fits_afterName h
  | functions =>
    simp only [reactTo] at h
    split at h
    · cases h
      exact fits_singleton trivial fun _ h => h
    · exact absurd h doneIf_ne_shift
  | resultType =>
    simp only [reactTo] at h
    split at h <;> cases h <;> exact fits_singleton trivial fun _ h => h
  | functionName =>
    cases u <;> cases h
    exact fits_act_cons (fits_sym_cons (fits_singleton trivial fun _ h => h))
  | parameters =>
    simp only [reactTo] at h
    split at h <;> cases h
    · exact fits_bodyGoals _
    · exact fits_singleton trivial fun _ h => h
  | parameterType =>
    simp only [reactTo] at h
    split at h <;> cases h
    exact fits_singleton trivial fun _ h => h
  | parameterName => cases u <;> cases h; exact fits_singleton trivial fun _ h => h
  | moreParameters =>
    simp only [reactTo] at h
    split at h <;> cases h
    · exact fits_bodyGoals _
    · exact fits_singleton trivial fun _ h => h
  | statements f =>
    simp only [reactTo] at h
    split at h
    · rename_i goals hgoals
      cases h
      refine fits_append.2 ⟨(fits_afterStatement hgoals).mono ?_, fits_singleton (fun _ h => h) hg⟩
      -- Another statement, or what may follow all of them.
      rintro t (⟨u, rfl, hu⟩ | ⟨-, h⟩)
      · simp [Allows, Follow.allows, shifts_statements hu]
      · exact allows_statement (hg t h)
    · exact absurd h doneIf_ne_shift
  | nameStatement =>
    simp only [reactTo] at h
    split at h <;> cases h
    · exact (fits_callRest _).mono fun _ => allows_factor
    · exact fits_expression_act _
    · simp [sym, Fits, Leads, allowsNext, nullable, IsProper, Token.terminal_eq_symbol]
      rfl
  | branches =>
    simp only [reactTo] at h
    split at h
    · cases h
      exact fits_append.2 ⟨fits_elseGoals.mono fun _ => leads_moreBranches,
        fits_singleton trivial fun _ h => h⟩
    · cases h
      exact fits_append.2 ⟨fits_elseifGoals.mono fun _ => leads_moreBranches,
        fits_singleton trivial fun _ h => h⟩
    · exact absurd h doneIf_ne_shift
  | moreBranches =>
    simp only [reactTo] at h
    split at h
    · cases h
      exact fits_elseGoals
    · cases h
      exact fits_elseifGoals
    · exact absurd h doneIf_ne_shift
  | expression => exact fits_afterExpression (shiftIf_eq_shift h).2
  | unsigned => exact fits_afterUnsigned (shiftIf_eq_shift h).2
  | operandOf l => exact fits_afterOperand (shiftIf_eq_shift h).2
  | factor => exact fits_afterFactor (shiftIf_eq_shift h).2
  | tail l | chain l =>
    simp only [reactTo] at h
    split at h
    · cases h
      refine ⟨trivial, fun t ht => ?_, trivial, ?_, trivial, fun _ h => h, trivial⟩
      · -- Another operator of the level, or what may follow an operand of it.
        obtain ⟨u, rfl, hu⟩ | ⟨-, h⟩ := ht
        · exact allows_operator (shifts_chain.1 hu)
        · exact allows_operandFollow (by simpa [Leads, nullable, allowsNext] using h)
      · simp [Leads, nullable, allowsNext]
    · exact absurd h doneIf_ne_shift
  | powerTail =>
    simp only [reactTo] at h
    split at h
    · cases h
      simp [Fits, Leads, allowsNext, nullable, IsProper]
    · exact absurd h doneIf_ne_shift
  | reference =>
    simp only [reactTo] at h
    split at h
    · cases h
      simp [sym, Fits, Leads, allowsNext, nullable, IsProper, Token.terminal_eq_symbol]
      rfl
    · split at h <;> cases h
      exact fits_callRest _
    · exact absurd h doneIf_ne_shift
  | updatable => cases u <;> cases h; exact fits_singleton trivial fun _ h => h
  | arguments =>
    simp only [reactTo] at h
    split at h
    · cases h
    · obtain ⟨hs, hhs, rfl⟩ := Option.map_eq_some_iff.1 (shiftIf_eq_shift h).2
      refine fits_append.2 ⟨(fits_afterExpression hhs).mono ?_, fits_singleton trivial fun _ h => h⟩
      -- A comma, or the bracket that closes the call.
      rintro t (⟨u, rfl, hu⟩ | ⟨-, h⟩)
      · rw [shifts_moreArguments.1 hu]
        rfl
      · rw [beq_iff_eq.1 h]
        rfl
  | moreArguments =>
    simp only [reactTo] at h
    split at h <;> cases h
    simp [Fits, Leads, allowsNext, nullable, IsProper]

end Goal

end Symphony
