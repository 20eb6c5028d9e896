import Symphony.Proofs.Syntax
import Symphony.Trace

/-!
# The events of an accepted source are those of a tree

Recognition is a machine with a stack of goals. `Goal.Means` says, for each goal, which events it
may produce while it is on top of the stack, in terms of trees: an `expression` produces the events
of some expression, a `tail` those that complete a chain, and so on.

**Theorem (`exists_tree`).** If a source is recognised to its end, its events are those of some
tree.

The proof is one lemma for each way a goal can answer a token. If a goal takes a token and leaves
others in its place, what these mean together is what the goal means (`means_of_shift`); if it is
done, the events it produced are what it means (`means_of_done`). The rest is an induction over the
tokens.
-/

namespace Symphony

variable {evs xs ys : List Event} {g : Goal} {line : Nat} {t : Token} {cs text : List Char}

/-! ## Names -/

/-- A token that is a name is spelt as one, and special functions have the names of special
functions. -/
def Token.IsSpelled : Token → Prop
  | ident name => IsWord name
  | special name => name ∈ specialNames
  | _ => True

theorem isSpelled_ofWord {w : List Char} (hw : w ≠ []) (hc : ∀ c ∈ w, Scan.isWordChar c = true) :
    (Token.ofWord (String.ofList w)).IsSpelled := by
  unfold Token.ofWord
  split
  case isTrue hname => exact List.contains_iff_mem.1 hname
  case isFalse =>
    split
    · trivial
    · split
      · trivial
      · split
        · trivial
        · exact ⟨by simpa using hw, by simpa using hc⟩

theorem isSpelled_of_word? (h : Scan.word? cs = some (.token t text)) : t.IsSpelled := by
  cases cs with
  | nil => cases h
  | cons c cs =>
    simp only [Scan.word?] at h
    split at h
    case isTrue hc =>
      cases h
      refine isSpelled_ofWord (by simp) fun d hd => ?_
      rcases List.mem_cons.1 hd with rfl | hd
      · simp [Scan.isWordChar, hc]
      · exact List.all_eq_true.1 List.all_takeWhile d hd
    case isFalse => cases h

theorem isSpelled_of_first? (h : Piece.first? cs = some (.token t text)) : t.IsSpelled := by
  obtain ⟨rule, hrule, h⟩ := List.exists_of_findSome?_eq_some h
  simp only [Scan.rules, List.mem_cons, List.not_mem_nil, or_false] at hrule
  rcases hrule with rfl | rfl | rfl | rfl | rfl | rfl | rfl | rfl | rfl | rfl
  · simp [Scan.blanks?] at h
  · unfold Scan.blockComment? at h
    split at h <;> simp at h
  · exact isSpelled_of_word? h
  · simp only [Scan.decimal?] at h
    split at h
    · split at h <;> cases h
      trivial
    · cases h
  · simp only [Scan.integer?] at h
    split at h
    · cases h
    · split at h <;> cases h
      trivial
  · unfold Scan.character? at h
    split at h
    · split at h <;> cases h
      trivial
    · cases h
  · unfold Scan.string? at h
    split at h
    · dsimp only at h
      split at h <;> cases h
      trivial
    · cases h
  · simp [Scan.newlines?] at h
  · unfold Scan.lineComment? at h
    split at h <;> cases h
  · unfold Scan.symbol? at h
    split at h <;> cases h <;> trivial

theorem isSpelled_of_mem_scanUpTo {fuel : Nat}
    (h : .token t text ∈ (Pieces.scanUpTo fuel cs).list) :
    t.IsSpelled := by
  fun_induction Pieces.scanUpTo fuel cs with
  | case1 => simp at h
  | case2 => simp at h
  | case3 => simp at h
  | case4 => simp at h
  | case5 fuel c cs p hp hfirst rest ih =>
    rcases List.mem_cons.1 h with rfl | h
    · exact isSpelled_of_first? hfirst
    · exact ih h

theorem isSpelled_of_mem_place {pos : Nat} {ps : List Piece}
    (hps : ∀ t text, .token t text ∈ ps → t.IsSpelled) :
    ∀ l ∈ (Piece.place line pos ps).1, l.token.IsSpelled := by
  induction ps generalizing line pos with
  | nil => simp [Piece.place]
  | cons p ps ih =>
    have hrest : ∀ t text, .token t text ∈ ps → t.IsSpelled :=
      fun t text h => hps t text (List.mem_cons_of_mem _ h)
    cases p with
    | token t text =>
      intro l hl
      rcases List.mem_cons.1 hl with rfl | hl
      · exact hps t text List.mem_cons_self
      · exact ih hrest l hl
    | _ => exact ih hrest

/-- Every name in a scanned source is spelt as one. -/
theorem isSpelled_of_mem_scan {source : String} :
    ∀ l ∈ (Lexemes.scan line source).list, l.token.IsSpelled :=
  isSpelled_of_mem_place fun _ _ h => isSpelled_of_mem_scanUpTo h

/-- The events of a function after its head, with the given parameters, and of the functions after
it. -/
def MeansFunctionRest (params : List (Ty × String)) (es : List Event) : Prop :=
  ∃ (vars : List Group) (body : Block) (fs : List FunctionTree),
    es = FunctionTree.innerEvents params vars body ++ fs.flatMap FunctionTree.events

/-- The events from within a group of declarations on: `names` are the remaining names of the
group. -/
def MeansDeclarations (site : Site) (vars : List Declaration) (t : Ty)
    (read : List Declaration) (names : List (String × Option Int)) (es : List Event) : Prop :=
  ∃ gs : List Group, es = Group.sizes names ++ sizesOf gs
    ++ [site.event (vars ++ (Group.declarations ⟨t, names⟩ ++ read) ++ declarationsOf gs)]

namespace Goal

variable {es : List Event} {gs : List Goal}

/-- The parameters behind a list of declarations, if they are the ones of a parameter list. -/
def ReadParams (params : List (Ty × String)) (ds : List Declaration) : Prop :=
  ds = FunctionTree.declared params

/-- The events that a goal can produce. -/
def Means (es : List Event) : Goal → Prop
  | expect _ => es = []
  | anyName => es = []
  | act e => es = [e]
  | actIf _ e => es = [e]
  | check _ => es = []
  | declarations site vars =>
    ∃ gs : List Group, es = sizesOf gs ++ [site.event (vars ++ declarationsOf gs)]
  | declarator site vars t read => ∃ n ns, MeansDeclarations site vars t read (n :: ns) es
  | declared site vars t read name =>
    ∃ n? ns, MeansDeclarations site vars t read ((name, n?) :: ns) es
  | arraySize site vars t read name =>
    ∃ n ns, MeansDeclarations site vars t read ((name, some n) :: ns) es
  | moreNames site vars t read => ∃ ns, MeansDeclarations site vars t read ns es
  | functions => ∃ fs : List FunctionTree, es = fs.flatMap FunctionTree.events
  | resultType => ∃ (f : FunctionTree) (fs : List FunctionTree),
    es = f.events ++ fs.flatMap FunctionTree.events
  | functionName result => ∃ (f : FunctionTree) (fs : List FunctionTree),
    f.result = result ∧ es = f.events ++ fs.flatMap FunctionTree.events
  | parameters => ∃ params, MeansFunctionRest params es
  | parameterType ds => ∀ read, ReadParams read ds → ∃ more, MeansFunctionRest (read ++ more) es
  | parameterName ds _ => ∀ read, ReadParams read ds → ∃ more, MeansFunctionRest (read ++ more) es
  | moreParameters ds => ∀ read, ReadParams read ds → ∃ more, MeansFunctionRest (read ++ more) es
  | statements _ => ∃ b : Block, es = b.events
  | nameStatement _ => ∃ s : Stmt, es = s.events
  | branches => ∃ r : Branches, es = r.events
  | moreBranches => ∃ x : Extra, es = x.events
  | expression => ∃ e : Expr, es = e.events
  | unsigned => ∃ e : Expr, es = e.events
  | operandOf _ => ∃ e : Expr, es = e.events
  | factor => ∃ e : Expr, es = e.events
  | tail _ => es = [] ∨ ∃ (o : BinOp) (e : Expr) (rest : Links),
    es = e.events ++ (rest.operands ++ rest.operators) ++ [.fold o]
  | chain _ => ∃ rest : Links, es = rest.operands ++ rest.operators
  | powerTail => es = [] ∨ ∃ e : Expr, es = e.events ++ [.power]
  | reference _ callable =>
    if callable then ∃ e : Expr, es = e.events else ∃ t : Target, es = t.events
  | updatable => ∃ t : Target, es = t.events
  | arguments => ∃ args : Args, es = args.operands ++ List.replicate args.length .argument
  | moreArguments =>
    ∃ args : Args, es = args.operands ++ List.replicate (args.length + 1) .argument

/-- The events that a stack of goals can produce. -/
def MeansAll : List Event → List Goal → Prop
  | es, [] => es = []
  | es, g :: gs => ∃ xs ys, es = xs ++ ys ∧ g.Means xs ∧ MeansAll ys gs

theorem meansAll_append {hs : List Goal} :
    MeansAll es (gs ++ hs) ↔ ∃ xs ys, es = xs ++ ys ∧ MeansAll xs gs ∧ MeansAll ys hs := by
  induction gs generalizing es with
  | nil =>
    constructor
    · exact fun h => ⟨[], es, rfl, rfl, h⟩
    · rintro ⟨_, ys, rfl, rfl, h⟩
      exact h
  | cons g gs ih =>
    simp only [List.cons_append, MeansAll, ih]
    constructor
    · rintro ⟨xs, _, rfl, hx, ys, zs, rfl, hy, hz⟩
      exact ⟨xs ++ ys, zs, by simp, ⟨xs, ys, rfl, hx, hy⟩, hz⟩
    · rintro ⟨_, zs, rfl, ⟨xs, ys, rfl, hx, hy⟩, hz⟩
      exact ⟨xs, ys ++ zs, by simp, hx, ys, zs, rfl, hy, hz⟩

theorem meansAll_singleton : MeansAll es [g] ↔ g.Means es := by
  constructor
  · rintro ⟨xs, _, rfl, h, rfl⟩
    rwa [List.append_nil]
  · exact fun h => ⟨es, [], by simp, h, rfl⟩

/-! ## Expressions -/

/-- The goals of a call, after its opening parenthesis. -/
theorem meansAll_callRest {e : Event} (h : MeansAll es (callRest e)) :
    ∃ args : Args, es = args.operands ++ List.replicate args.length .argument ++ [e] := by
  obtain ⟨xs, _, rfl, ⟨args, rfl⟩, _, _, rfl, rfl, h⟩ := h
  obtain rfl := meansAll_singleton.1 h
  exact ⟨args, rfl⟩

theorem meansAll_specialCall {name : String} (h : MeansAll es (specialCall name)) :
    ∃ args : Args, es = (Expr.special name args).events := by
  obtain ⟨_, _, rfl, rfl, _, _, rfl, rfl, h⟩ := h
  obtain ⟨args, rfl⟩ := meansAll_callRest h
  exact ⟨args, by simp [Expr.events]⟩

theorem meansAll_updateRest {u : Update} (h : MeansAll es (updateRest u.op)) :
    ∃ t : Target, es = (Expr.update u t).events := by
  obtain ⟨_, _, rfl, ⟨t, rfl⟩, h⟩ := h
  obtain rfl := meansAll_singleton.1 h
  exact ⟨t, by simp [Expr.events]⟩

/-- Update operators are increment and decrement. -/
theorem update?_eq_some {o : UnOp} (h : t.update? = some o) : ∃ u : Update, u.op = o := by
  unfold Token.update? at h
  split at h
  · exact ⟨.increment, by simpa [Update.op] using h⟩
  · exact ⟨.decrement, by simpa [Update.op] using h⟩
  · cases h

theorem sign?_eq_some {o : UnOp} (h : t.sign? = some o) : ∃ s : Sign, s.op = o := by
  unfold Token.sign? at h
  split at h
  · exact ⟨.plus, by simpa [Sign.op] using h⟩
  · exact ⟨.minus, by simpa [Sign.op] using h⟩
  · cases h

/-- A literal is one event. -/
theorem meansAll_literal {t : Ty} {v : Value} (h : MeansAll es [actIf .factor (.constant t v)]) :
    ∃ e : Expr, es = e.events := by
  obtain rfl := meansAll_singleton.1 h
  exact ⟨.literal t v, by simp [Expr.events]⟩

theorem meansAll_update (ht : t.update?.map updateRest = some gs) (h : MeansAll es gs) :
    ∃ e : Expr, es = e.events := by
  obtain ⟨o, ho, rfl⟩ := Option.map_eq_some_iff.1 ht
  obtain ⟨u, rfl⟩ := update?_eq_some ho
  obtain ⟨t, rfl⟩ := meansAll_updateRest h
  exact ⟨_, rfl⟩

theorem means_afterFactor (ht : afterFactor t = some gs) (h : MeansAll es gs) :
    ∃ e : Expr, es = e.events := by
  cases t with
  | intVal | decVal | charVal | strVal | boolVal =>
    cases ht
    exact meansAll_literal h
  | ident =>
    cases ht
    simpa [Means] using meansAll_singleton.1 h
  | special =>
    cases ht
    obtain ⟨args, rfl⟩ := meansAll_specialCall h
    exact ⟨_, rfl⟩
  | keyword k => exact meansAll_update (t := .keyword k) ht h
  | symbol s =>
    by_cases hs : s = .lparen
    · subst hs
      cases ht
      obtain ⟨_, _, rfl, ⟨e, rfl⟩, _, _, rfl, rfl, h⟩ := h
      obtain rfl := meansAll_singleton.1 h
      exact ⟨e, by simp⟩
    · have ht' : (Token.symbol s).update?.map updateRest = some gs := by
        cases s <;> first | exact absurd rfl hs | exact ht
      exact meansAll_update ht' h

/-- An operand followed by the tail of a chain is an operand again. -/
theorem means_append_tail {l : Level} (hx : ∃ e : Expr, xs = e.events) (hy : (tail l).Means ys) :
    ∃ e : Expr, xs ++ ys = e.events := by
  obtain ⟨e, rfl⟩ := hx
  rcases hy with rfl | ⟨o, second, rest, rfl⟩
  · exact ⟨e, by simp⟩
  · exact ⟨.chain e o second rest, by simp [Expr.events]⟩

/-- An operand followed by several tails is an operand again. -/
theorem means_append_tails (ls : List Level) (hx : ∃ e : Expr, xs = e.events)
    (hy : MeansAll ys (ls.map tail)) : ∃ e : Expr, xs ++ ys = e.events := by
  induction ls generalizing xs ys with
  | nil =>
    obtain rfl : ys = [] := hy
    simpa using hx
  | cons l ls ih =>
    obtain ⟨ys, zs, rfl, hl, hz⟩ := hy
    rw [← List.append_assoc]
    exact ih (means_append_tail hx hl) hz

theorem means_afterOperand {l : Level} (ht : afterOperand l t = some gs) (h : MeansAll es gs) :
    ∃ e : Expr, es = e.events := by
  -- The tails that follow an operand are those of the levels below its own.
  have general : ∀ ls : List Level,
      (if t = .keyword .not then some (factor :: actIf .product (.unary .not) :: ls.map tail)
        else (afterFactor t).map fun goals => goals ++ tail .product :: ls.map tail) = some gs →
      ∃ e : Expr, es = e.events := by
    intro ls ht
    split at ht
    · cases ht
      obtain ⟨_, _, rfl, ⟨e, rfl⟩, _, _, rfl, rfl, h⟩ := h
      rw [← List.append_assoc]
      exact means_append_tails ls ⟨.apply .not e, by simp [Expr.events, Sign.op]⟩ h
    · obtain ⟨gs, hgs, rfl⟩ := Option.map_eq_some_iff.1 ht
      obtain ⟨xs, ys, rfl, hx, hy⟩ := meansAll_append.1 h
      exact means_append_tails (.product :: ls) (means_afterFactor hgs hx) hy
  cases l with
  | product => exact means_afterFactor ht h
  | sum => exact general [] ht
  | relation => exact general [.sum] ht
  | logic => exact general [.sum, .relation] ht

theorem means_afterUnsigned (ht : afterUnsigned t = some gs) (h : MeansAll es gs) :
    ∃ e : Expr, es = e.events := by
  obtain ⟨gs, hgs, rfl⟩ := Option.map_eq_some_iff.1 ht
  obtain ⟨xs, ys, rfl, hx, hy⟩ := meansAll_append.1 h
  exact means_append_tail (means_afterOperand hgs hx) (meansAll_singleton.1 hy)

/-- An expression may be the base of a power. -/
theorem means_append_powerTail (hx : ∃ e : Expr, xs = e.events) (hy : powerTail.Means ys) :
    ∃ e : Expr, xs ++ ys = e.events := by
  obtain ⟨e, rfl⟩ := hx
  rcases hy with rfl | ⟨exponent, rfl⟩
  · exact ⟨e, by simp⟩
  · exact ⟨.power e exponent, by simp [Expr.events]⟩

theorem means_afterExpression (ht : afterExpression t = some gs) (h : MeansAll es gs) :
    ∃ e : Expr, es = e.events := by
  unfold afterExpression at ht
  split at ht
  case h_1 o ho =>
    cases ht
    obtain ⟨s, rfl⟩ := sign?_eq_some ho
    obtain ⟨_, _, rfl, ⟨e, rfl⟩, _, _, rfl, rfl, h⟩ := h
    rw [← List.append_assoc]
    exact means_append_powerTail ⟨.apply s e, by simp [Expr.events]⟩ (meansAll_singleton.1 h)
  case h_2 =>
    obtain ⟨gs, hgs, rfl⟩ := Option.map_eq_some_iff.1 ht
    obtain ⟨xs, ys, rfl, hx, hy⟩ := meansAll_append.1 h
    exact means_append_powerTail (means_afterUnsigned hgs hx) (meansAll_singleton.1 hy)

/-! ## Statements -/

theorem meansAll_blockGoals (h : MeansAll es blockGoals) : ∃ b : Block, es = b.events := by
  obtain ⟨_, _, rfl, rfl, _, _, rfl, ⟨b, rfl⟩, _, _, rfl, rfl, h⟩ := h
  obtain rfl := meansAll_singleton.1 h
  exact ⟨b, by simp⟩

theorem meansAll_conditionGoals {e : Event} (h : MeansAll es (conditionGoals e)) :
    ∃ c : Expr, es = c.events ++ [e] := by
  obtain ⟨_, _, rfl, ⟨c, rfl⟩, _, _, rfl, rfl, h⟩ := h
  obtain rfl := meansAll_singleton.1 h
  exact ⟨c, by simp⟩

theorem meansAll_elseGoals (h : MeansAll es elseGoals) :
    ∃ b : Block, es = .elseBranch :: (b.events ++ [.closeIf]) := by
  obtain ⟨_, _, rfl, ⟨_, _, rfl, rfl, hb⟩, hclose⟩ := meansAll_append.1 h
  obtain ⟨b, rfl⟩ := meansAll_blockGoals hb
  obtain rfl := meansAll_singleton.1 hclose
  exact ⟨b, rfl⟩

theorem meansAll_elseifGoals (h : MeansAll es elseifGoals) :
    ∃ (c : Expr) (b : Block) (r : Branches), es = .elseBranch :: (c.events ++ .testIf :: (b.events
      ++ (r.events ++ [.closeIf]))) := by
  obtain ⟨_, _, rfl, hbody, ⟨_, _, rfl, ⟨r, rfl⟩, hclose⟩⟩ := meansAll_append.1 h
  obtain ⟨_, _, rfl, hhead, hb⟩ := meansAll_append.1 hbody
  obtain ⟨_, _, rfl, ⟨_, _, rfl, rfl, hparen⟩, hc⟩ := meansAll_append.1 hhead
  obtain rfl := meansAll_singleton.1 hparen
  obtain rfl := meansAll_singleton.1 hclose
  obtain ⟨b, rfl⟩ := meansAll_blockGoals hb
  obtain ⟨c, rfl⟩ := meansAll_conditionGoals hc
  exact ⟨c, b, r, by simp⟩

theorem meansAll_ifGoals (h : MeansAll es ifGoals) : ∃ s : Stmt, es = s.events := by
  obtain ⟨_, _, rfl, hbody, hr⟩ := meansAll_append.1 h
  obtain ⟨_, _, rfl, ⟨_, _, rfl, rfl, hc⟩, hb⟩ := meansAll_append.1 hbody
  obtain ⟨r, rfl⟩ := meansAll_singleton.1 hr
  obtain ⟨b, rfl⟩ := meansAll_blockGoals hb
  obtain ⟨c, rfl⟩ := meansAll_conditionGoals hc
  exact ⟨.branch c b r, by simp [Stmt.events]⟩

theorem meansAll_whileGoals (h : MeansAll es whileGoals) : ∃ s : Stmt, es = s.events := by
  obtain ⟨_, _, rfl, hbody, ⟨_, _, rfl, rfl, hl⟩⟩ := meansAll_append.1 h
  obtain ⟨_, _, rfl, hhead, hb⟩ := meansAll_append.1 hbody
  obtain ⟨_, _, rfl, ⟨_, _, rfl, rfl, hm⟩, hc⟩ := meansAll_append.1 hhead
  obtain rfl := meansAll_singleton.1 hl
  obtain rfl := meansAll_singleton.1 hm
  obtain ⟨b, rfl⟩ := meansAll_blockGoals hb
  obtain ⟨c, rfl⟩ := meansAll_conditionGoals hc
  exact ⟨.loop c b, by simp [Stmt.events]⟩

/-- Goals that end with a semicolon mean what they mean without it. -/
theorem meansAll_semicolon (gs : List Goal) (h : MeansAll es (gs ++ [sym .semicolon])) :
    MeansAll es gs := by
  obtain ⟨xs, _, rfl, hx, h⟩ := meansAll_append.1 h
  obtain rfl := meansAll_singleton.1 h
  rwa [List.append_nil]

theorem means_afterStatement (ht : afterStatement t = some gs) (h : MeansAll es gs) :
    ∃ s : Stmt, es = s.events := by
  unfold afterStatement at ht
  split at ht
  case h_1 =>
    cases ht
    obtain ⟨_, _, rfl, ⟨e, rfl⟩, _, _, rfl, rfl, h⟩ := h
    obtain rfl := meansAll_singleton.1 h
    exact ⟨.giveBack e, by simp [Stmt.events]⟩
  case h_2 =>
    cases ht
    obtain ⟨_, _, rfl, rfl, h⟩ := h
    obtain rfl := meansAll_singleton.1 h
    exact ⟨.leave, by simp [Stmt.events]⟩
  case h_3 =>
    cases ht
    exact meansAll_ifGoals h
  case h_4 =>
    cases ht
    exact meansAll_whileGoals h
  case h_5 name =>
    cases ht
    exact meansAll_singleton.1 (meansAll_semicolon [nameStatement name] h)
  case h_6 name =>
    cases ht
    obtain ⟨args, rfl⟩ := meansAll_specialCall (meansAll_semicolon _ h)
    exact ⟨.special name args, by simp [Stmt.events]⟩
  case h_7 =>
    obtain ⟨o, ho, rfl⟩ := Option.map_eq_some_iff.1 ht
    obtain ⟨u, rfl⟩ := update?_eq_some ho
    obtain ⟨t, rfl⟩ := meansAll_updateRest (meansAll_semicolon _ h)
    exact ⟨.update u t, by simp [Stmt.events]⟩

/-! ## Declarations -/

/-- After a name has been declared, a comma or a semicolon follows. -/
theorem means_afterName {site : Site} {vars read : List Declaration} {t : Ty} {u : Token}
    (hr : afterName site vars t read u = .shift evs gs) (h : MeansAll es gs) :
    ∃ ns, MeansDeclarations site vars t read ns (evs ++ es) := by
  unfold afterName at hr
  split at hr
  · cases hr
    obtain ⟨n, ns, h⟩ := meansAll_singleton.1 h
    exact ⟨n :: ns, h⟩
  · cases hr
    obtain ⟨gs, rfl⟩ := meansAll_singleton.1 h
    exact ⟨[], gs, by simp [Group.sizes, Group.declarations]⟩
  · cases hr

/-- A declared name is the first of the remaining names of its group. -/
theorem means_declared {site : Site} {vars read : List Declaration} {t : Ty}
    {n : String × Option Int} {ns : List (String × Option Int)}
    (h : MeansDeclarations site vars t (Group.declaration t n :: read) ns es) :
    MeansDeclarations site vars t read (n :: ns) (Group.sizes [n] ++ es) := by
  obtain ⟨gs, rfl⟩ := h
  refine ⟨gs, ?_⟩
  rcases n with ⟨name, _ | n⟩ <;> simp [Group.sizes, Group.declarations]

/-! ## Functions -/

/-- The body of a function and the functions after it. -/
theorem means_bodyGoals {params : List (Ty × String)} {ds : List Declaration}
    (hd : ReadParams params ds) (h : MeansAll es (bodyGoals ds)) : MeansFunctionRest params es := by
  obtain ⟨_, _, rfl, rfl, _, _, rfl, ⟨vars, rfl⟩, h⟩ := h
  obtain ⟨_, _, rfl, ⟨body, rfl⟩, _, _, rfl, rfl, _, _, rfl, rfl, h⟩ := h
  obtain ⟨fs, rfl⟩ := meansAll_singleton.1 h
  refine ⟨vars, body, fs, ?_⟩
  obtain rfl : ds = _ := hd
  simp [FunctionTree.innerEvents, Site.event]

theorem readParams_cons {read : List (Ty × String)} {ds : List Declaration} (h : ReadParams read ds)
    (t : Ty) (name : String) : ReadParams (read ++ [(t, name)]) (scalar t name :: ds) := by
  obtain rfl : ds = _ := h
  simp [ReadParams, FunctionTree.declared]

/-! ## Reactions -/

/-- If a goal takes a token, what the goals in its place mean is what it means. -/
theorem means_of_shift (ht : t.IsSpelled) (hr : g.reactTo t = .shift evs gs) (h : MeansAll es gs) :
    g.Means (evs ++ es) := by
  cases g with
  | expect u =>
    simp only [reactTo] at hr
    split at hr <;> cases hr
    exact h
  | anyName =>
    simp only [reactTo] at hr
    split at hr <;> cases hr
    exact h
  | act e => cases hr
  | actIf f e => exact absurd hr doneIf_ne_shift
  | check f => exact absurd hr doneIf_ne_shift
  | declarations site vars =>
    simp only [reactTo] at hr
    split at hr
    case h_1 ty =>
      cases hr
      obtain ⟨n, ns, gs, rfl⟩ := meansAll_singleton.1 h
      exact ⟨⟨ty, n :: ns⟩ :: gs, by simp [sizesOf, declarationsOf]⟩
    case h_2 => exact absurd hr doneIf_ne_shift
  | declarator site vars ty read =>
    simp only [reactTo] at hr
    split at hr <;> cases hr
    obtain ⟨n?, ns, h⟩ := meansAll_singleton.1 h
    exact ⟨_, ns, h⟩
  | declared site vars ty read name =>
    simp only [reactTo] at hr
    split at hr
    · cases hr
      obtain ⟨n, ns, h⟩ := meansAll_singleton.1 h
      exact ⟨some n, ns, h⟩
    · obtain ⟨ns, h⟩ := means_afterName hr h
      exact ⟨none, ns, means_declared h⟩
  | arraySize site vars ty read name =>
    simp only [reactTo] at hr
    split at hr <;> cases hr
    obtain ⟨_, _, rfl, rfl, _, _, rfl, rfl, _, _, rfl, rfl, h⟩ := h
    obtain ⟨ns, h⟩ := meansAll_singleton.1 h
    exact ⟨_, ns, means_declared h⟩
  | moreNames site vars ty read => exact means_afterName hr h
  | functions =>
    simp only [reactTo] at hr
    split at hr
    · cases hr
      obtain ⟨f, fs, rfl⟩ := meansAll_singleton.1 h
      exact ⟨f :: fs, by simp⟩
    · exact absurd hr doneIf_ne_shift
  | resultType =>
    simp only [reactTo] at hr
    split at hr <;> cases hr <;>
    · obtain ⟨f, fs, -, rfl⟩ := meansAll_singleton.1 h
      exact ⟨f, fs, rfl⟩
  | functionName result =>
    simp only [reactTo] at hr
    split at hr
    case h_1 name =>
      cases hr
      obtain ⟨_, _, rfl, rfl, _, _, rfl, rfl, h⟩ := h
      obtain ⟨params, vars, body, fs, rfl⟩ := meansAll_singleton.1 h
      exact ⟨⟨result, name, params, vars, body, ht⟩, fs, rfl, rfl⟩
    case h_2 => cases hr
  | parameters =>
    simp only [reactTo] at hr
    split at hr <;> cases hr
    · exact ⟨[], means_bodyGoals rfl h⟩
    · obtain ⟨more, h⟩ := meansAll_singleton.1 h [] rfl
      exact ⟨more, h⟩
  | parameterType ds =>
    simp only [reactTo] at hr
    split at hr <;> cases hr
    exact meansAll_singleton.1 h
  -- A parameter means the same after every list that was read before it.
  | parameterName ds ty =>
    simp only [reactTo] at hr
    split at hr <;> cases hr
    intro read hread
    obtain ⟨more, h⟩ := meansAll_singleton.1 h _ (readParams_cons hread ty _)
    exact ⟨_, by simpa using h⟩
  | moreParameters ds =>
    simp only [reactTo] at hr
    split at hr <;> cases hr
    · exact fun read hread => ⟨[], by simpa using means_bodyGoals hread h⟩
    · exact meansAll_singleton.1 h
  | statements f =>
    simp only [reactTo] at hr
    split at hr
    case h_1 gs ht =>
      cases hr
      obtain ⟨_, _, rfl, hs, hb⟩ := meansAll_append.1 h
      obtain ⟨s, rfl⟩ := means_afterStatement ht hs
      obtain ⟨b, rfl⟩ := meansAll_singleton.1 hb
      exact ⟨.cons s b, by simp [Block.events]⟩
    case h_2 => exact absurd hr doneIf_ne_shift
  | nameStatement name =>
    simp only [reactTo] at hr
    split at hr <;> cases hr
    · obtain ⟨args, rfl⟩ := meansAll_callRest h
      exact ⟨.call name args, by simp [Stmt.events, Expr.events]⟩
    · obtain ⟨_, _, rfl, ⟨e, rfl⟩, h⟩ := h
      obtain rfl := meansAll_singleton.1 h
      exact ⟨.assign (.variable name) e, by simp [Stmt.events]⟩
    · obtain ⟨_, _, rfl, ⟨index, rfl⟩, _, _, rfl, rfl, _, _, rfl, rfl, h⟩ := h
      obtain ⟨_, _, rfl, rfl, _, _, rfl, ⟨e, rfl⟩, h⟩ := h
      obtain rfl := meansAll_singleton.1 h
      exact ⟨.assign (.element name index) e, by simp [Stmt.events]⟩
  | branches =>
    simp only [reactTo] at hr
    split at hr
    · cases hr
      obtain ⟨_, _, rfl, h, hx⟩ := meansAll_append.1 h
      obtain ⟨b, rfl⟩ := meansAll_elseGoals h
      obtain ⟨x, rfl⟩ := meansAll_singleton.1 hx
      exact ⟨.otherwise b x, by simp [Branches.events]⟩
    · cases hr
      obtain ⟨_, _, rfl, h, hx⟩ := meansAll_append.1 h
      obtain ⟨c, b, r, rfl⟩ := meansAll_elseifGoals h
      obtain ⟨x, rfl⟩ := meansAll_singleton.1 hx
      exact ⟨.elseif c b r x, by simp [Branches.events]⟩
    · exact absurd hr doneIf_ne_shift
  | moreBranches =>
    simp only [reactTo] at hr
    split at hr
    · cases hr
      obtain ⟨b, rfl⟩ := meansAll_elseGoals h
      exact ⟨.otherwise b, by simp [Extra.events]⟩
    · cases hr
      obtain ⟨c, b, r, rfl⟩ := meansAll_elseifGoals h
      exact ⟨.elseif c b r, by simp [Extra.events]⟩
    · exact absurd hr doneIf_ne_shift
  | expression =>
    obtain ⟨rfl, hgs⟩ := shiftIf_eq_shift hr
    exact means_afterExpression hgs h
  | unsigned =>
    obtain ⟨rfl, hgs⟩ := shiftIf_eq_shift hr
    exact means_afterUnsigned hgs h
  | operandOf l =>
    obtain ⟨rfl, hgs⟩ := shiftIf_eq_shift hr
    exact means_afterOperand hgs h
  | factor =>
    obtain ⟨rfl, hgs⟩ := shiftIf_eq_shift hr
    exact means_afterFactor hgs h
  -- After the first operand of a level comes nothing, or an operator and the rest of a chain.
  | tail l =>
    simp only [reactTo] at hr
    split at hr
    case h_1 o ho =>
      cases hr
      obtain ⟨_, _, rfl, ⟨e, rfl⟩, _, _, rfl, ⟨rest, rfl⟩, h⟩ := h
      obtain rfl := meansAll_singleton.1 h
      exact .inr ⟨o, e, rest, by simp⟩
    case h_2 => exact absurd hr doneIf_ne_shift
  | chain l =>
    simp only [reactTo] at hr
    split at hr
    case h_1 o ho =>
      cases hr
      obtain ⟨_, _, rfl, ⟨e, rfl⟩, _, _, rfl, ⟨rest, rfl⟩, h⟩ := h
      obtain rfl := meansAll_singleton.1 h
      exact ⟨.cons o e rest, by simp [Links.operands, Links.operators]⟩
    case h_2 => exact absurd hr doneIf_ne_shift
  | powerTail =>
    simp only [reactTo] at hr
    split at hr
    · cases hr
      obtain ⟨_, _, rfl, ⟨e, rfl⟩, h⟩ := h
      obtain rfl := meansAll_singleton.1 h
      exact .inr ⟨e, by simp⟩
    · exact absurd hr doneIf_ne_shift
  -- An element is an expression or a target; a call is an expression only.
  | reference name callable =>
    simp only [reactTo] at hr
    split at hr
    · cases hr
      obtain ⟨_, _, rfl, ⟨index, rfl⟩, _, _, rfl, rfl, h⟩ := h
      obtain rfl := meansAll_singleton.1 h
      have ht : ([] ++ (index.events ++ ([] ++ [Event.useElement name])) : List Event) =
          (Target.element name index).events := by simp [Target.events]
      simp only [Means]
      split
      · exact ⟨.reference (.element name index), by rw [ht, Expr.events]⟩
      · exact ⟨.element name index, ht⟩
    · split at hr
      · cases hr
        obtain ⟨args, rfl⟩ := meansAll_callRest h
        simp only [Means, *, if_true]
        exact ⟨.call name args, by simp [Expr.events]⟩
      · cases hr
    · exact absurd hr doneIf_ne_shift
  | updatable =>
    simp only [reactTo] at hr
    split at hr <;> cases hr
    simpa [Means] using meansAll_singleton.1 h
  | arguments =>
    simp only [reactTo] at hr
    split at hr
    · cases hr
    · obtain ⟨rfl, hmap⟩ := shiftIf_eq_shift hr
      obtain ⟨gs, hgs, rfl⟩ := Option.map_eq_some_iff.1 hmap
      obtain ⟨_, _, rfl, he, hmore⟩ := meansAll_append.1 h
      obtain ⟨e, rfl⟩ := means_afterExpression hgs he
      obtain ⟨args, rfl⟩ := meansAll_singleton.1 hmore
      exact ⟨.cons e args, by simp [Args.operands, Args.length]⟩
  | moreArguments =>
    simp only [reactTo] at hr
    split at hr <;> cases hr
    obtain ⟨_, _, rfl, ⟨args, rfl⟩, h⟩ := h
    obtain rfl := meansAll_singleton.1 h
    exact ⟨args, by simp [List.replicate_succ']⟩

/-- If a goal is done without a token, its events are what it means. -/
theorem means_of_done (hr : g.reactTo t = .done es) : g.Means es := by
  cases g with
  | act e =>
    cases hr
    rfl
  | actIf f e => exact doneIf_eq_done hr
  | check f => exact doneIf_eq_done hr
  | declarations site vars =>
    simp only [reactTo] at hr
    split at hr
    · cases hr
    · exact ⟨[], by simpa [sizesOf, declarationsOf] using doneIf_eq_done hr⟩
  | functions =>
    simp only [reactTo] at hr
    split at hr
    · cases hr
    · exact ⟨[], by simpa using doneIf_eq_done hr⟩
  | statements f =>
    simp only [reactTo] at hr
    split at hr
    · cases hr
    · exact ⟨.nil, by simpa [Block.events] using doneIf_eq_done hr⟩
  | branches =>
    simp only [reactTo] at hr
    split at hr
    · cases hr
    · cases hr
    · exact ⟨.done, by simpa [Branches.events] using doneIf_eq_done hr⟩
  | moreBranches =>
    simp only [reactTo] at hr
    split at hr
    · cases hr
    · cases hr
    · exact ⟨.none, by simpa [Extra.events] using doneIf_eq_done hr⟩
  | tail l =>
    simp only [reactTo] at hr
    split at hr
    · cases hr
    · exact .inl (doneIf_eq_done hr)
  | chain l =>
    simp only [reactTo] at hr
    split at hr
    · cases hr
    · exact ⟨.nil, by simpa [Links.operands, Links.operators] using doneIf_eq_done hr⟩
  | powerTail =>
    simp only [reactTo] at hr
    split at hr
    · cases hr
    · exact .inl (doneIf_eq_done hr)
  | reference name callable =>
    simp only [reactTo] at hr
    split at hr
    · cases hr
    · split at hr <;> cases hr
    · obtain rfl := doneIf_eq_done hr
      simp only [Means]
      split
      · exact ⟨.reference (.variable name), by simp [Expr.events, Target.events]⟩
      · exact ⟨.variable name, by simp [Target.events]⟩
  | arguments =>
    simp only [reactTo] at hr
    split at hr
    · cases hr
      exact ⟨.nil, by simp [Args.operands, Args.length]⟩
    · exact absurd hr shiftIf_ne_done
  | moreArguments =>
    simp only [reactTo] at hr
    split at hr <;> cases hr
    exact ⟨.nil, by simp [Args.operands, Args.length]⟩
  | expression | unsigned | factor => exact absurd hr shiftIf_ne_done
  | operandOf l => exact absurd hr shiftIf_ne_done
  | expect u =>
    simp only [reactTo] at hr
    split at hr <;> cases hr
  | declared site vars ty read name =>
    simp only [reactTo] at hr
    split at hr
    · cases hr
    · unfold afterName at hr
      split at hr <;> cases hr
  | moreNames site vars ty read =>
    simp only [reactTo, afterName] at hr
    split at hr <;> cases hr
  | anyName | declarator | arraySize | resultType | functionName | parameters | parameterType
  | parameterName | moreParameters | nameStatement | updatable =>
    simp only [reactTo] at hr
    split at hr <;> cases hr

/-- If a goal is done at the end of the source, its events are what it means. -/
theorem means_of_end (hr : g.reactToEnd = .done es) : g.Means es := by
  cases g with
  | act e =>
    cases hr
    rfl
  | actIf f e => exact doneIf_eq_done hr
  | check f => exact doneIf_eq_done hr
  | declarations site vars => exact ⟨[], by simpa [sizesOf, declarationsOf] using doneIf_eq_done hr⟩
  | functions => exact ⟨[], by simpa using doneIf_eq_done hr⟩
  | statements f => exact ⟨.nil, by simpa [Block.events] using doneIf_eq_done hr⟩
  | branches => exact ⟨.done, by simpa [Branches.events] using doneIf_eq_done hr⟩
  | moreBranches => exact ⟨.none, by simpa [Extra.events] using doneIf_eq_done hr⟩
  | _ => cases hr

end Goal

/-! ## Traces -/

namespace Trace

open Goal

/-- The events that happen without a look at the next token belong to the goals that produce
them. -/
theorem meansAll_release (h : MeansAll es (release gs).2) : MeansAll ((release gs).1 ++ es) gs := by
  fun_induction release gs with
  | case1 e gs events rest hr ih =>
    rw [hr] at ih
    exact ⟨[e], events ++ es, rfl, rfl, ih h⟩
  | case2 => exact h

/-- A stack of goals that takes a token means the events of this token and those of the new
stack. -/
theorem meansAll_take {gs' : List Goal} (ht : t.IsSpelled) (htake : take t gs = (evs, some gs'))
    (h : MeansAll es gs') : MeansAll (evs ++ es) gs := by
  induction gs generalizing evs with
  | nil => cases htake
  | cons g gs ih =>
    simp only [take] at htake
    split at htake
    case h_1 events push hr =>
      cases htake
      obtain ⟨xs, ys, rfl, hx, hy⟩ := meansAll_append.1 h
      exact ⟨evs ++ xs, ys, by simp, means_of_shift ht hr hx, hy⟩
    case h_2 events hr =>
      simp only [Prod.mk.injEq] at htake
      obtain ⟨rfl, hresult⟩ := htake
      rw [List.append_assoc]
      exact ⟨events, _, rfl, means_of_done hr, ih (Prod.ext rfl hresult)⟩
    case h_3 => cases htake

theorem meansAll_close (hc : close gs = (evs, true)) : MeansAll evs gs := by
  induction gs generalizing evs with
  | nil =>
    cases hc
    rfl
  | cons g gs ih =>
    simp only [close] at hc
    split at hc
    case h_1 events hr =>
      simp only [Prod.mk.injEq] at hc
      obtain ⟨rfl, hresult⟩ := hc
      exact ⟨events, _, rfl, means_of_end hr, ih (Prod.ext rfl hresult)⟩
    case h_2 => cases hc

/-- The events of a trace. -/
def events (t : Trace) : List Event :=
  t.steps.map Step.event

@[simp] theorem events_prepend (es : List Event) (line : Nat) (t : Trace) :
    (prepend es line t).events = es ++ t.events := by
  simp [events, prepend, Function.comp_def]

@[simp] theorem ending_prepend (es : List Event) (line : Nat) (t : Trace) :
    (prepend es line t).ending = t.ending := rfl

/-- An accepted trace has the events that its goals mean. -/
theorem meansAll_ofGoals {stop : Stop} {last : Nat} {ls : List Lexeme}
    (hls : ∀ l ∈ ls, l.token.IsSpelled) (h : (ofGoals stop last gs line ls).ending = .accepted) :
    MeansAll (ofGoals stop last gs line ls).events gs := by
  induction ls generalizing gs line with
  | nil =>
    unfold ofGoals at h ⊢
    simp only [ending_prepend, events_prepend] at h ⊢
    apply meansAll_release
    cases stop with
    | finished =>
      simp only [ending_prepend, events_prepend] at h ⊢
      have hc : (close (release gs).2).2 = true := by
        split at h
        · assumption
        · cases h
      simpa [events] using meansAll_close (Prod.ext rfl hc)
    | illegal c => cases h
    | overlong => cases h
  | cons l ls ih =>
    unfold ofGoals at h ⊢
    simp only [ending_prepend, events_prepend] at h ⊢
    apply meansAll_release
    split at h
    case h_1 gs' hr =>
      have hl : l.token.IsSpelled := hls l List.mem_cons_self
      exact meansAll_take hl (Prod.ext rfl hr)
        (ih (fun l hl => hls l (List.mem_cons_of_mem _ hl)) h)
    case h_2 => cases h

/-- What the goals of a whole program mean is a tree. -/
theorem exists_tree_of_meansAll (h : MeansAll es programGoals) : ∃ p : Tree, p.events = es := by
  obtain ⟨_, _, rfl, rfl, _, _, rfl, rfl, _, _, rfl, rfl, hgoals⟩ := h
  obtain ⟨_, _, rfl, ⟨globals, rfl⟩, _, _, rfl, ⟨functions, rfl⟩, _, _, rfl, rfl, hmain⟩ := hgoals
  obtain ⟨_, _, rfl, ⟨main, rfl⟩, hfinish⟩ := hmain
  obtain rfl := meansAll_singleton.1 hfinish
  exact ⟨⟨globals, functions, main⟩, by simp [Tree.events, Site.event]⟩

/-- **Recognition is sound.** The events of an accepted source are those of a tree. -/
theorem exists_tree {source : String} (h : (ofSource line source).ending = .accepted) :
    ∃ p : Tree, p.events = (ofSource line source).events :=
  exists_tree_of_meansAll (meansAll_ofGoals isSpelled_of_mem_scan h)

end Trace

end Symphony
