import Symphony.Proofs.Nesting

/-!
# The stacks of the compiler and the levels of an expression

Chains stand in parentheses, in arguments and in indices of other chains, but the compiler has one
stack of operands, one list of noted operators and one list of arguments for all of them. They can
be shared because of the order of the events: a chain notes its operators when all its operands are
complete, and a call reads its arguments when all of them are on the stack. So both lists are empty
whenever an operand begins, at whatever level.

**Theorem (`Compiled.expression_stacks`).** An expression in which no call lacks a result leaves
exactly one operand, of the type of the expression, and everything else on the stacks as it was.
Whenever a chain is folded, the noted operators are those of this chain after its first. For the
expressions of an accepted source this is `Compiled.expression_in_source`.
-/

namespace Symphony

variable {e : Event} {c c' : Compiler} {es : List Event} {isGlobal : Bool} {x : Operand}

/-! ## Types of expressions -/

/-- The type of a binary operation, if the operator applies. -/
def BinOp.kind? (o : BinOp) (l r : Kind) : Option Kind :=
  l.row?.bind fun lt => r.row?.bind fun rt => (o.result? lt rt).map Kind.value

/-- The type of a unary operation, if the operator applies. Only the code of the type is kept. -/
def UnOp.kind? (o : UnOp) (k : Kind) : Option Kind :=
  k.row?.bind fun t => (o.result? t).map fun u => Kind.bare u.code

/-- What names stand for: variables, and the types of the results of functions. -/
structure Names where
  denoted? : String → Option Variable
  result? : String → Option Kind

mutual

/-- The type of an expression. That of a call is the result of the function, whatever the arguments
are. -/
def Expr.kind? (N : Names) : Expr → Option Kind
  | .literal t _ => some (.value t)
  | .reference t => t.kind? N
  | .apply o e => (e.kind? N).bind o.op.kind?
  | .update u t => (t.kind? N).bind u.op.kind?
  | .chain first o second rest =>
    (first.kind? N).bind fun l => (second.kind? N).bind fun r => (o.kind? l r).bind (rest.kind? N)
  | .power base exponent =>
    (base.kind? N).bind fun l => (exponent.kind? N).bind fun r => BinOp.pow.kind? l r
  | .call name _ => N.result? name
  | .special name _ => (Special.signature? name).bind fun s => s.result.map Kind.value

def Target.kind? (N : Names) : Target → Option Kind
  | .variable name => (N.denoted? name).map Variable.kind
  | .element name _ => (N.denoted? name).bind fun v => v.elements.map Prod.fst

/-- The type of a chain, given that of its operands so far: they are folded from the left. -/
def Links.kind? (N : Names) : Links → Kind → Option Kind
  | .nil, k => some k
  | .cons o e rest, k => (e.kind? N).bind fun r => (o.kind? k r).bind (rest.kind? N)

end

/-! ## Calls without a result -/

/-- Special functions that do not give a result. -/
def Special.isVoid (name : String) : Bool :=
  (Special.signature? name).any fun s => s.result.isNone

mutual

/-- How many calls in an expression, itself included, are calls of functions that give no result. -/
def Expr.voids (void : String → Bool) : Expr → Nat
  | .literal _ _ => 0
  | .reference t => t.voids void
  | .apply _ e => e.voids void
  | .update _ t => t.voids void
  | .chain first _ second rest => first.voids void + second.voids void + rest.voids void
  | .power base exponent => base.voids void + exponent.voids void
  | .call name args => (void name).toNat + args.voids void
  | .special name args => (Special.isVoid name).toNat + args.voids void

def Target.voids (void : String → Bool) : Target → Nat
  | .variable _ => 0
  | .element _ index => index.voids void

def Links.voids (void : String → Bool) : Links → Nat
  | .nil => 0
  | .cons _ e rest => e.voids void + rest.voids void

def Args.voids (void : String → Bool) : Args → Nat
  | .nil => 0
  | .cons e rest => e.voids void + rest.voids void

end

/-- The noted operators after an event. -/
def Event.note (noted : List String) : Event → List String
  | .chain o => o.symbol :: noted
  | .fold _ => []
  | _ => noted

namespace Compiler

/-- What names stand for in a state. -/
def names (c : Compiler) : Names where
  denoted? := c.denoted?
  result? name := (c.function? (some name)).bind Function.result

/-- Functions that do not give a result. -/
def isVoid (c : Compiler) (name : String) : Bool :=
  (c.function? (some name)).any fun f => f.result.isNone

variable {c'' : Compiler}

theorem Quiet.names (h : Quiet c c') : c'.names = c.names := by
  have hfunction : c'.function? = c.function? := by
    funext s
    rw [function?, function?, h.functions]
  have hdenoted : c'.denoted? = c.denoted? := by
    funext name
    rw [denoted?, denoted?, current, current, hfunction, h.scope]
  rw [Compiler.names, Compiler.names, hdenoted, hfunction]

theorem Quiet.isVoid (h : Quiet c c') : c'.isVoid = c.isVoid := by
  funext name
  rw [Compiler.isVoid, Compiler.isVoid, function?, function?, h.functions]

/-- The operands, noted operators and arguments. -/
def held (c : Compiler) : List Operand × List String × List Operand :=
  (c.operands, c.chained, c.arguments)

theorem DeclaresStep.held {d : Declaration} (h : DeclaresStep isGlobal d c c') :
    c'.held = c.held := by
  cases h with
  | one h => cases h <;> rfl
  | kind | address => rfl

theorem DeclaresAll.held {ds : List Declaration} (h : DeclaresAll isGlobal ds c c') :
    c'.held = c.held :=
  h.keeps (fun _ _ _ _ hs h => hs.held.trans h) rfl

theorem DeclaresParams.held {ds : List Declaration} (h : DeclaresParams isGlobal ds c c') :
    c'.held = c.held :=
  h.keeps (fun _ _ _ _ hs h => hs.held.trans h) rfl

theorem Acts.chained (ha : Acts e c c') : c'.chained = e.note c.chained := by
  cases ha with
  | declareGlobals hv => exact congrArg (·.2.1) hv.held
  | declareLocals hp hv => exact congrArg (·.2.1) (hv.held.trans hp.held)
  | power _ hop =>
    cases hop
    rfl
  | giveBack | closeLoop =>
    rw [completeAll_eq]
    rfl
  | _ => rfl

theorem RunsBy.chained (hr : Runs es c c') : c'.chained = es.foldl Event.note c.chained := by
  induction hr with
  | nil => rfl
  | cons ha _ ih => rw [ih, ha.chained, List.foldl_cons]

/-- What is being called is what it was if all calls that begin also end. -/
theorem RunsBy.called_eq (hr : Runs es c c') (hes : Event.Nested es) : c'.called = c.called := by
  let due : List Event := c.called.map fun s => s.elim .argument .endCall
  have hdue : due.map Event.callee = c.called := by
    rw [List.map_map]
    refine (List.map_congr_left fun s _ => ?_).trans (List.map_id _)
    cases s <;> rfl
  rw [hr.called hdue.symm (hes due), hdue]

/-! ## Operators and arguments -/

theorem Operates.kind {o : BinOp} {l r : Operand} (h : Operates o.symbol l r c x c') :
    o.kind? l.kind r.kind = some x.kind := by
  cases h with
  | mk hl hr hop ht =>
    rw [BinOp.ofSymbol?_symbol] at hop
    cases hop
    rw [BinOp.kind?, hl, hr, Option.bind_some, Option.bind_some, ht, Option.map_some]

end Compiler

/-- The operators of a chain after its first. -/
def Links.ops : Links → List BinOp
  | nil => []
  | cons o _ rest => o :: rest.ops

open Compiler

/-- The operators of a chain are noted from its end. -/
theorem Links.runs_operators : ∀ (l : Links) {c c' : Compiler}, Runs l.operators c c' →
    c' = { c with chained := l.ops.map BinOp.symbol ++ c.chained }
  | .nil, c, c', hr => by
    obtain rfl := runs_nil.1 hr
    rfl
  | .cons o e rest, c, c', hr => by
    obtain ⟨c₁, hrest, ho⟩ := runs_append.1 hr
    obtain rfl := rest.runs_operators hrest
    cases runs_singleton.1 ho with
    | chain => rfl

/-- Arguments are taken from the stack. -/
theorem Compiler.RunsBy.arguments {n : Nat} (hr : Runs (List.replicate n .argument) c c') :
    c'.operands = c.operands.drop n ∧ c'.chained = c.chained := by
  induction n generalizing c with
  | zero =>
    obtain rfl := runs_nil.1 hr
    exact ⟨rfl, rfl⟩
  | succ n ih =>
    obtain ⟨c₁, harg, hrest⟩ := runs_cons.1 hr
    obtain ⟨hoperands, hchained⟩ := ih hrest
    cases harg with
    | argument hx => exact ⟨by rw [hoperands, hx, List.drop_succ_cons], hchained⟩

/-! ## Expressions -/

namespace Compiler

/-- No operators are noted and no arguments are read. -/
structure Rests (c : Compiler) : Prop where
  chained : c.chained = []
  arguments : c.arguments = []

/-- Operands have been added, the last one on top, and nothing else is left. -/
structure Gains (os : List Operand) (c c' : Compiler) : Prop where
  rests : c'.Rests
  operands : c'.operands = os.reverse ++ c.operands
  quiet : Quiet c c'

variable {c'' : Compiler} {os os' : List Operand}

theorem Gains.trans (h : Gains os c c') (h' : Gains os' c' c'') : Gains (os ++ os') c c'' where
  rests := h'.rests
  operands := by rw [h'.operands, h.operands, List.reverse_append, List.append_assoc]
  quiet := h.quiet.trans h'.quiet

/-- An event that leaves an operand in place of those on top. -/
theorem Gains.replace {rest : List Operand} (h : Gains os c c') (ha : Acts e c' c'')
    (he : e.isQuiet = true) (hoperands : c''.operands = x :: rest) (hrest : rest = c.operands)
    (hchained : c''.chained = c'.chained) (harguments : c''.arguments = c'.arguments) :
    Gains [x] c c'' where
  rests := ⟨hchained.trans h.rests.chained, harguments.trans h.rests.arguments⟩
  operands := by rw [hoperands, hrest]; rfl
  quiet := h.quiet.trans (ha.quiet he)

/-- An event that adds an operand. -/
theorem Rests.gains (h : c.Rests) (ha : Acts e c c') (he : e.isQuiet = true)
    (hheld : c'.held = (x :: c.operands, c.chained, c.arguments)) : Gains [x] c c' := by
  obtain ⟨hoperands, hchained, harguments⟩ : c'.operands = x :: c.operands ∧
      c'.chained = c.chained ∧ c'.arguments = c.arguments := by simpa [held] using hheld
  exact ⟨⟨hchained.trans h.chained, harguments.trans h.arguments⟩, hoperands, ha.quiet he⟩

/-- Operands as the arguments of a call, of which the head is the name. -/
theorem Gains.arguments {args : Args} {name : String} {os : List Operand} {c₁ c₂ c₃ : Compiler}
    (hname : c₁ = { c with called := some name :: c.called }) (h : Gains os c₁ c₂)
    (hlength : os.length = args.length) (hargs : Runs args.operands c₁ c₂)
    (hr : Runs (List.replicate args.length .argument) c₂ c₃) :
    c₃.operands = c.operands ∧ c₃.chained = [] ∧ c₃.called = some name :: c.called ∧
      Quiet c c₃ := by
  obtain ⟨hoperands, hchained⟩ := hr.arguments
  have hstart : Quiet c c₁ := by
    subst hname
    exact .keep rfl rfl rfl rfl rfl rfl rfl
  have hquiet : ∀ e ∈ List.replicate args.length Event.argument, e.isQuiet = true := by
    intro e he
    rw [List.eq_of_mem_replicate he]
    rfl
  have hnested : Event.Nested (args.operands ++ List.replicate args.length .argument) :=
    args.nested.arguments _
  refine ⟨?_, hchained.trans h.rests.chained, ?_, (hstart.trans h.quiet).trans (hr.quiet hquiet)⟩
  · rw [hoperands, h.operands, ← hlength, List.drop_left' os.length_reverse, hname]
  · rw [(runs_append.2 ⟨c₂, hargs, hr⟩).called_eq hnested, hname]

end Compiler

mutual

theorem Expr.gains :
    ∀ (e : Expr) {c c' : Compiler}, Runs e.events c c' → c.Rests → e.voids c.isVoid = 0 →
    ∃ x : Operand, e.kind? c.names = some x.kind ∧ Gains [x] c c'
  | .literal t v, c, c', hr, hc, _ => by
    have ha := runs_singleton.1 hr
    cases ha with
    | oldConstant h => exact ⟨_, rfl, hc.gains (.oldConstant h) rfl rfl⟩
    | newConstant h => exact ⟨_, rfl, hc.gains (.newConstant h) rfl rfl⟩
  | .reference t, c, c', hr, hc, hv => t.gains hr hc hv
  | .apply o e, c, c', hr, hc, hv => by
    obtain ⟨c₁, he, ho⟩ := runs_append.1 hr
    obtain ⟨x, hx, hgains⟩ := e.gains he hc hv
    have ha := runs_singleton.1 ho
    cases ha with
    | update _ _ _ hupdates => cases o <;> cases hupdates
    | unary htop ht hu hupdates =>
      obtain ⟨rfl, rfl⟩ := List.cons.inj (htop.symm.trans hgains.operands)
      refine ⟨_, ?_, hgains.replace (.unary htop ht hu hupdates) rfl rfl rfl rfl rfl⟩
      rw [Expr.kind?, hx, Option.bind_some, UnOp.kind?, ht, Option.bind_some, hu, Option.map_some]
  | .update u t, c, c', hr, hc, hv => by
    obtain ⟨c₁, htarget, hupdate⟩ := runs_append.1 hr
    obtain ⟨x, hx, hgains⟩ := t.gains htarget hc hv
    have ha := runs_singleton.1 hupdate
    cases ha with
    | update htop ht hu hupdates =>
      obtain ⟨rfl, rfl⟩ := List.cons.inj (htop.symm.trans hgains.operands)
      refine ⟨_, ?_, hgains.replace (.update htop ht hu hupdates) rfl rfl rfl rfl rfl⟩
      rw [Expr.kind?, hx, Option.bind_some, UnOp.kind?, ht, Option.bind_some, hu, Option.map_some]
    | unary _ _ _ hupdates => cases u <;> cases hupdates
  | .chain first o second rest, c, c', hr, hc, hv => by
    simp only [Expr.voids, Nat.add_eq_zero_iff] at hv
    obtain ⟨⟨hfirst, hsecond⟩, hrest⟩ := hv
    obtain ⟨c₄, hoperands, hfold⟩ := runs_append.1 hr
    obtain ⟨c₁, h₁, hoperands⟩ := runs_append.1 hoperands
    obtain ⟨c₂, h₂, hoperands⟩ := runs_append.1 hoperands
    obtain ⟨c₃, h₃, hoperators⟩ := runs_append.1 hoperands
    -- The operands come to stand one above the other, with the first at the bottom.
    obtain ⟨a, ha, hgains₁⟩ := first.gains h₁ hc hfirst
    obtain ⟨b, hb, hgains₂⟩ := second.gains h₂ hgains₁.rests (by rw [hgains₁.quiet.isVoid, hsecond])
    have hgains := hgains₁.trans hgains₂
    obtain ⟨os, hlength, hkind, hgains₃⟩ :=
      rest.gains h₃ hgains₂.rests (by rw [hgains.quiet.isVoid, hrest])
    rw [hgains₁.quiet.names] at hb
    rw [hgains.quiet.names] at hkind
    obtain rfl := rest.runs_operators hoperators
    have hstack : c₃.operands = (b :: os).reverse ++ a :: c.operands := by
      rw [(hgains.trans hgains₃).operands]
      simp
    have hfold' := runs_singleton.1 hfold
    cases hfold' with
    | @fold _ d _ x result below hdrop hfolds =>
      -- The fold takes as many as there are operators, so it comes down to the first.
      have hcount : (b :: os).reverse.length =
          (rest.ops.map BinOp.symbol ++ c₃.chained).length + 1 := by
        simp [hgains₃.rests.chained, hlength]
      dsimp only at hdrop hfolds
      rw [hstack, List.drop_left' hcount] at hdrop
      rw [hstack, List.take_left' hcount, List.reverse_reverse, hgains₃.rests.chained,
        List.append_nil, List.zip_cons_cons] at hfolds
      obtain ⟨rfl, rfl⟩ := List.cons.inj hdrop
      have harguments : d.arguments = c₃.arguments := (congrArg Compiler.arguments hfolds.rest_eq :)
      refine ⟨result, ?_, ⟨rfl, harguments.trans hgains₃.rests.arguments⟩, rfl, ?_⟩
      · cases hfolds with
        | cons hop hmore =>
          rw [Expr.kind?, ha, Option.bind_some, hb, Option.bind_some, hop.kind, Option.bind_some]
          exact hkind hmore
      · exact hr.quiet (Expr.chain first o second rest).quiet
  | .power base exponent, c, c', hr, hc, hv => by
    simp only [Expr.voids, Nat.add_eq_zero_iff] at hv
    obtain ⟨c₂, hoperands, hpower⟩ := runs_append.1 hr
    obtain ⟨c₁, h₁, h₂⟩ := runs_append.1 hoperands
    obtain ⟨a, ha, hgains₁⟩ := base.gains h₁ hc hv.1
    obtain ⟨b, hb, hgains₂⟩ := exponent.gains h₂ hgains₁.rests (by rw [hgains₁.quiet.isVoid, hv.2])
    rw [hgains₁.quiet.names] at hb
    have hgains := hgains₁.trans hgains₂
    have hpower' := runs_singleton.1 hpower
    cases hpower' with
    | @power _ d l r x rest htop hop =>
      obtain ⟨rfl, hrest⟩ := List.cons.inj (htop.symm.trans hgains.operands)
      obtain ⟨rfl, rfl⟩ := List.cons.inj hrest
      have hkind := hop.kind
      refine ⟨x, ?_, ?_⟩
      · rw [Expr.kind?, ha, Option.bind_some, hb, Option.bind_some, hkind]
      · refine hgains.replace (.power htop hop) rfl ?_ rfl ?_ ?_ <;> cases hop <;> rfl
  | .call name args, c, c', hr, hc, hv => by
    simp only [Expr.voids, Nat.add_eq_zero_iff] at hv
    obtain ⟨c₃, hbefore, hend⟩ := runs_append.1 hr
    obtain ⟨c₁, hbegin, hargs⟩ := runs_cons.1 hbefore
    obtain ⟨c₂, hoperands, harguments⟩ := runs_append.1 hargs
    cases hbegin with
    | beginCall hknown =>
      obtain ⟨os, hlength, hgains⟩ := args.gains hoperands ⟨hc.chained, hc.arguments⟩ hv.2
      obtain ⟨hstack, hchained, hcalled, hquiet⟩ :=
        hgains.arguments rfl hlength hoperands harguments
      -- The call is not void, so it leaves its result.
      have hnotVoid : ∀ f, c.function? (some name) = some f → f.result ≠ none := by
        intro f hf hnone
        simp [isVoid, hf, hnone] at hv
      have hend' := runs_singleton.1 hend
      have hall := hr.quiet (Expr.call name args).quiet
      cases hend' with
      | callVoid hname hf _ _ hresult =>
        cases hname.symm.trans hcalled
        rw [function?, hquiet.functions] at hf
        exact absurd hresult (hnotVoid _ hf)
      | callKnown hname hf _ _ hresult =>
        cases hname.symm.trans hcalled
        rw [function?, hquiet.functions] at hf
        refine ⟨_, ?_, ⟨hchained, rfl⟩, congrArg _ hstack, hall⟩
        exact (congrArg (Option.bind · Function.result) hf).trans hresult
      | callSelf hname hf _ _ hresult =>
        cases hname.symm.trans hcalled
        rw [function?, hquiet.functions] at hf
        refine ⟨_, ?_, ⟨hchained, rfl⟩, congrArg _ hstack, hall⟩
        exact (congrArg (Option.bind · Function.result) hf).trans hresult
  | .special name args, c, c', hr, hc, hv => by
    simp only [Expr.voids, Nat.add_eq_zero_iff] at hv
    obtain ⟨c₃, hbefore, hend⟩ := runs_append.1 hr
    obtain ⟨c₁, hbegin, hargs⟩ := runs_cons.1 hbefore
    obtain ⟨c₂, hoperands, harguments⟩ := runs_append.1 hargs
    cases hbegin with
    | beginSpecial =>
      obtain ⟨os, hlength, hgains⟩ := args.gains hoperands ⟨hc.chained, hc.arguments⟩ hv.2
      obtain ⟨hstack, hchained, hcalled, hquiet⟩ :=
        hgains.arguments rfl hlength hoperands harguments
      have hend' := runs_singleton.1 hend
      have hall := hr.quiet (Expr.special name args).quiet
      cases hend' with
      | specialVoid hname hs _ _ hresult =>
        cases hname.symm.trans hcalled
        simp [Special.isVoid, hs, hresult] at hv
      | specialValue hname hs _ _ hresult =>
        cases hname.symm.trans hcalled
        refine ⟨_, ?_, ⟨hchained, rfl⟩, congrArg _ hstack, hall⟩
        rw [Expr.kind?, hs, Option.bind_some, hresult, Option.map_some]

theorem Target.gains :
    ∀ (t : Target) {c c' : Compiler}, Runs t.events c c' → c.Rests → t.voids c.isVoid = 0 →
    ∃ x : Operand, t.kind? c.names = some x.kind ∧ Gains [x] c c'
  | .variable name, c, c', hr, hc, _ => by
    have ha := runs_singleton.1 hr
    cases ha with
    | @useVariable _ _ v h =>
      exact ⟨⟨v.kind, .num v.address⟩, congrArg (Option.map Variable.kind) h,
        hc.gains (.useVariable h) rfl rfl⟩
  | .element name index, c, c', hr, hc, hv => by
    obtain ⟨c₁, hindex, hname⟩ := runs_append.1 hr
    obtain ⟨x, hx, hgains⟩ := index.gains hindex hc hv
    have ha := runs_singleton.1 hname
    cases ha with
    | useElement htop hkind hdenoted helements ht =>
      obtain ⟨rfl, rfl⟩ := List.cons.inj (htop.symm.trans hgains.operands)
      refine ⟨_, ?_, hgains.replace (.useElement htop hkind hdenoted helements ht) rfl rfl
        rfl rfl rfl⟩
      have hnames : c.names.denoted? name = _ :=
        (congrArg (Names.denoted? · name) hgains.quiet.names).symm.trans hdenoted
      rw [Target.kind?, hnames, Option.bind_some, helements, Option.map_some]

theorem Links.gains :
    ∀ (l : Links) {c c' : Compiler}, Runs l.operands c c' → c.Rests → l.voids c.isVoid = 0 →
    ∃ os : List Operand, os.length = l.ops.length ∧
      (∀ {x y : Operand} {d d' : Compiler}, Folds x (os.zip (l.ops.map BinOp.symbol)) d y d' →
        l.kind? c.names x.kind = some y.kind) ∧ Gains os c c'
  | .nil, c, c', hr, hc, _ => by
    obtain rfl := runs_nil.1 hr
    refine ⟨[], rfl, fun h => ?_, hc, rfl, .refl _⟩
    cases h
    rfl
  | .cons o e rest, c, c', hr, hc, hv => by
    simp only [Links.voids, Nat.add_eq_zero_iff] at hv
    obtain ⟨c₁, he, hrest⟩ := runs_append.1 hr
    obtain ⟨b, hb, hgains⟩ := e.gains he hc hv.1
    obtain ⟨os, hlength, hkind, hgains'⟩ :=
      rest.gains hrest hgains.rests (by rw [hgains.quiet.isVoid, hv.2])
    refine ⟨b :: os, congrArg (· + 1) hlength, fun h => ?_, hgains.trans hgains'⟩
    rw [hgains.quiet.names] at hkind
    cases h with
    | cons hop hmore =>
      rw [Links.kind?, hb, Option.bind_some, hop.kind, Option.bind_some]
      exact hkind hmore

theorem Args.gains :
    ∀ (a : Args) {c c' : Compiler}, Runs a.operands c c' → c.Rests → a.voids c.isVoid = 0 →
    ∃ os : List Operand, os.length = a.length ∧ Gains os c c'
  | .nil, c, c', hr, hc, _ => by
    obtain rfl := runs_nil.1 hr
    exact ⟨[], rfl, hc, rfl, .refl _⟩
  | .cons e rest, c, c', hr, hc, hv => by
    simp only [Args.voids, Nat.add_eq_zero_iff] at hv
    obtain ⟨c₁, he, hrest⟩ := runs_append.1 hr
    obtain ⟨x, -, hgains⟩ := e.gains he hc hv.1
    obtain ⟨os, hlength, hgains'⟩ :=
      rest.gains hrest hgains.rests (by rw [hgains.quiet.isVoid, hv.2])
    exact ⟨x :: os, congrArg (· + 1) hlength, hgains.trans hgains'⟩

end

/-! ## Chains -/

/-- A chain at its end: the events before it is folded, its first operator and the others in the
order of the source. -/
structure Folding where
  before : List Event
  first : BinOp
  others : List BinOp

/-- A chain that comes after other events. -/
def Folding.after (es : List Event) (f : Folding) : Folding :=
  { f with before := es ++ f.before }

mutual

/-- The chains in an expression. -/
def Expr.foldings : Expr → List Folding
  | .literal _ _ => []
  | .reference t => t.foldings
  | .apply _ e => e.foldings
  | .update _ t => t.foldings
  | .chain first o second rest =>
    first.foldings ++
      (second.foldings ++ rest.foldings.map (Folding.after second.events)).map
        (Folding.after first.events) ++
      [⟨first.events ++ (second.events ++ rest.operands) ++ rest.operators, o, rest.ops⟩]
  | .power base exponent => base.foldings ++ exponent.foldings.map (Folding.after base.events)
  | .call name args => args.foldings.map (Folding.after [.beginCall name])
  | .special name args => args.foldings.map (Folding.after [.beginSpecial name])

def Target.foldings : Target → List Folding
  | .variable _ => []
  | .element _ index => index.foldings

def Links.foldings : Links → List Folding
  | .nil => []
  | .cons _ e rest => e.foldings ++ rest.foldings.map (Folding.after e.events)

def Args.foldings : Args → List Folding
  | .nil => []
  | .cons e rest => e.foldings ++ rest.foldings.map (Folding.after e.events)

end

namespace Event

/-- An entry of two lists together is one of the first or one of the second. -/
theorem split_append {α : Type} {xs ys zs ws : List α} {a : α} (h : xs ++ ys = zs ++ a :: ws) :
    (∃ vs, xs = zs ++ a :: vs ∧ ws = vs ++ ys) ∨ ∃ vs, zs = xs ++ vs ∧ ys = vs ++ a :: ws := by
  rcases List.append_eq_append_iff.1 h with ⟨vs, hzs, hys⟩ | ⟨vs, rfl, hvs⟩
  · exact .inr ⟨vs, hzs, hys⟩
  · rcases List.append_eq_cons_iff.1 hvs.symm with ⟨rfl, hys⟩ | ⟨us, rfl, hws⟩
    · exact .inr ⟨[], by simp, hys⟩
    · exact .inl ⟨us, rfl, hws⟩

/-- Events that neither note operators nor fold a chain. -/
def isPlain : Event → Bool
  | .chain _ | .fold _ => false
  | _ => true

/-- The given chains are those of the events. Each is folded when just its own operators are noted,
and in the end none are noted. -/
structure Folded (es : List Event) (fs : List Folding) : Prop where
  ends : es.foldl note [] = []
  noted : ∀ f ∈ fs, f.before.foldl note [] = f.others.map BinOp.symbol
  folds : ∀ xs o, (∃ ys, es = xs ++ .fold o :: ys) ↔ ∃ ops, ⟨xs, o, ops⟩ ∈ fs

variable {xs ys : List Event} {fs gs : List Folding}

theorem foldl_note (h : ∀ e ∈ es, e.isPlain = true) (noted : List String) :
    es.foldl note noted = noted := by
  induction es with
  | nil => rfl
  | cons e es ih =>
    have he := h e List.mem_cons_self
    rw [List.foldl_cons, show note noted e = noted by cases e <;> first | rfl | cases he]
    exact ih fun e he => h e (List.mem_cons_of_mem _ he)

theorem folded_of_isPlain (h : ∀ e ∈ es, e.isPlain = true) : Folded es [] where
  ends := foldl_note h []
  noted := List.forall_mem_nil _
  folds xs o := by
    refine ⟨?_, ?_⟩
    · rintro ⟨ys, rfl⟩
      cases h (.fold o) (by simp)
    · rintro ⟨_, ⟨⟩⟩

theorem Folded.append (hx : Folded xs fs) (hy : Folded ys gs) :
    Folded (xs ++ ys) (fs ++ gs.map (Folding.after xs)) where
  ends := by rw [List.foldl_append, hx.ends, hy.ends]
  noted f hf := by
    rcases List.mem_append.1 hf with hf | hf
    · exact hx.noted f hf
    · obtain ⟨g, hg, rfl⟩ := List.mem_map.1 hf
      rw [Folding.after, List.foldl_append, hx.ends]
      exact hy.noted g hg
  folds zs o := by
    constructor
    · rintro ⟨rest, h⟩
      rcases split_append h with ⟨us, hxs, -⟩ | ⟨us, rfl, hys⟩
      · obtain ⟨ops, hops⟩ := (hx.folds zs o).1 ⟨us, hxs⟩
        exact ⟨ops, List.mem_append_left _ hops⟩
      · obtain ⟨ops, hops⟩ := (hy.folds us o).1 ⟨rest, hys⟩
        exact ⟨ops, List.mem_append_right _ (List.mem_map.2 ⟨_, hops, rfl⟩)⟩
    · rintro ⟨ops, hops⟩
      rcases List.mem_append.1 hops with hops | hops
      · obtain ⟨rest, rfl⟩ := (hx.folds zs o).2 ⟨ops, hops⟩
        exact ⟨rest ++ ys, by simp⟩
      · obtain ⟨g, hg, hafter⟩ := List.mem_map.1 hops
        cases hafter
        obtain ⟨rest, hrest⟩ := (hy.folds g.before g.first).2 ⟨g.others, hg⟩
        exact ⟨rest, by rw [hrest, List.append_assoc]⟩

theorem folded_singleton (he : e.isPlain = true) : Folded [e] [] :=
  folded_of_isPlain fun _ h => List.mem_singleton.1 h ▸ he

theorem Folded.snoc (hx : Folded xs fs) (he : e.isPlain = true) : Folded (xs ++ [e]) fs := by
  simpa using hx.append (folded_singleton he)

/-- The operands of a call stand between its name and its arguments. -/
theorem Folded.call {first last : Event} (hx : Folded xs fs) (n : Nat)
    (hfirst : first.isPlain = true) (hlast : last.isPlain = true) :
    Folded (first :: (xs ++ List.replicate n .argument) ++ [last])
      (fs.map (Folding.after [first])) := by
  have harguments : Folded (List.replicate n Event.argument) [] :=
    folded_of_isPlain fun _ h => List.eq_of_mem_replicate h ▸ rfl
  simpa using (folded_singleton hfirst).append ((hx.append harguments).snoc hlast)

/-- Operators are noted from the end of a chain, so that the first one is noted last. -/
theorem foldl_operators : ∀ (l : Links) (noted : List String),
    l.operators.foldl note noted = l.ops.map BinOp.symbol ++ noted
  | .nil, _ => rfl
  | .cons o e rest, noted => by
    rw [Links.operators, List.foldl_append, foldl_operators rest]
    rfl

theorem eq_chain_of_mem : ∀ (l : Links) {e : Event}, e ∈ l.operators → ∃ o, e = .chain o
  | .nil, _, he => by cases he
  | .cons o _ rest, _, he => by
    rcases List.mem_append.1 he with he | he
    · exact eq_chain_of_mem rest he
    · exact ⟨o, List.mem_singleton.1 he⟩

/-- The operands of a chain are followed by its operators. -/
theorem Folded.chain (hx : Folded xs fs) (l : Links) (o : BinOp) :
    Folded (xs ++ (l.operators ++ [.fold o])) (fs ++ [⟨xs ++ l.operators, o, l.ops⟩]) := by
  have hfold : Folded (l.operators ++ [.fold o]) [⟨l.operators, o, l.ops⟩] := by
    refine ⟨by rw [List.foldl_append]; rfl, ?_, fun zs o' => ⟨?_, ?_⟩⟩
    · intro f hf
      rw [List.mem_singleton.1 hf, foldl_operators, List.append_nil]
    · rintro ⟨rest, h⟩
      rcases split_append h with ⟨us, hl, -⟩ | ⟨us, rfl, hus⟩
      · obtain ⟨_, h⟩ := eq_chain_of_mem l (hl ▸ List.mem_append_right _ List.mem_cons_self)
        cases h
      · cases us with
        | nil =>
          cases hus
          exact ⟨l.ops, by simp⟩
        | cons u us => simp at hus
    · rintro ⟨ops, hops⟩
      cases List.mem_singleton.1 hops
      exact ⟨[], rfl⟩
  exact hx.append hfold

end Event

open Event

mutual

theorem Expr.folded : ∀ e : Expr, Folded e.events e.foldings
  | .literal _ _ => folded_singleton rfl
  | .reference t => t.folded
  | .apply _ e => e.folded.snoc rfl
  | .update _ t => t.folded.snoc rfl
  | .chain first o second rest => by
    have h := (first.folded.append (second.folded.append rest.folded)).chain rest o
    simpa only [Expr.events, Expr.foldings, List.append_assoc] using h
  | .power base exponent => (base.folded.append exponent.folded).snoc rfl
  | .call _ args => args.folded.call _ rfl rfl
  | .special _ args => args.folded.call _ rfl rfl

theorem Target.folded : ∀ t : Target, Folded t.events t.foldings
  | .variable _ => folded_singleton rfl
  | .element _ index => index.folded.snoc rfl

theorem Links.folded : ∀ l : Links, Folded l.operands l.foldings
  | .nil => folded_of_isPlain (List.forall_mem_nil _)
  | .cons _ e rest => e.folded.append rest.folded

theorem Args.folded : ∀ a : Args, Folded a.operands a.foldings
  | .nil => folded_of_isPlain (List.forall_mem_nil _)
  | .cons e rest => e.folded.append rest.folded

end

/-- Where a chain is folded, its operators after the first are noted, and no others. -/
theorem Expr.chained_of_fold (e : Expr) {xs ys : List Event} {o : BinOp}
    (hsplit : e.events = xs ++ .fold o :: ys) (hr : Runs xs c c') (hc : c.chained = []) :
    ∃ ops, ⟨xs, o, ops⟩ ∈ e.foldings ∧ c'.chained = ops.map BinOp.symbol := by
  obtain ⟨ops, hops⟩ := (e.folded.folds _ o).1 ⟨_, hsplit⟩
  refine ⟨ops, hops, ?_⟩
  rw [hr.chained, hc]
  exact e.folded.noted _ hops

/-! ## Compiled expressions -/

namespace Compiled

/-- Steps that are performed without a fault begin with steps that are. -/
theorem rejection_ofSteps_append {last : Nat} {before after : List Step}
    (h : (ofSteps .accepted last (before ++ after) c).rejection = none) :
    (ofSteps .accepted last before c).rejection = none := by
  induction before generalizing c with
  | nil => rfl
  | cons s steps ih =>
    rw [List.cons_append] at h
    simp only [ofSteps] at h ⊢
    rcases hrun : (Compile.perform s).runFrom c with ⟨_ | _, c₁⟩
    · rw [hrun] at h
      cases h
    · rw [hrun] at h
      exact ih h

end Compiled

/-- Operators are noted from the end of a chain and the one noted last stands first, so the list has
them in the order of the source. -/
theorem Compiled.expression_stacks {e : Expr} {steps : List Step} {c : Compiler} {last : Nat}
    (hevents : steps.map Step.event = e.events) (hchained : c.chained = [])
    (harguments : c.arguments = []) (hvoids : e.voids c.isVoid = 0)
    (h : (ofSteps .accepted last steps c).rejection = none) :
    let c' := (ofSteps .accepted last steps c).state
    (c'.chained = [] ∧ c'.arguments = [] ∧ c'.called = c.called ∧ c'.jumps = c.jumps) ∧
      (∃ k place, e.kind? c.names = some k ∧ c'.operands = ⟨k, place⟩ :: c.operands) ∧
      ∀ before s after o, steps = before ++ s :: after → s.event = .fold o →
        ∃ ops, ⟨before.map Step.event, o, ops⟩ ∈ e.foldings ∧
          (ofSteps .accepted last before c).state.chained = ops.map BinOp.symbol := by
  intro c'
  have hruns : Runs e.events c c' := hevents ▸ (runs_ofSteps h).2
  obtain ⟨⟨k, place⟩, hkind, hgains⟩ := e.gains hruns ⟨hchained, harguments⟩ hvoids
  refine ⟨⟨hgains.rests.chained, hgains.rests.arguments, hruns.called_eq e.nested,
    hgains.quiet.jumps⟩, ⟨k, place, hkind, hgains.operands⟩, ?_⟩
  rintro before s after o rfl hs
  have hsplit : e.events = before.map Step.event ++ .fold o :: after.map Step.event := by
    rw [← hevents, List.map_append, List.map_cons, hs]
  exact e.chained_of_fold hsplit (runs_ofSteps (rejection_ofSteps_append h)).2 hchained

/-- The argument of a call of `println`, up to the end of the chain in parentheses and to its own
end. -/
theorem Compiled.expression_stacks_of_chains :
    let source := "program p; println(1 + (2 - 3 - 4) * length(\"ab\"));"
    let steps := ((Trace.ofSource 1 source).steps.drop 3).take 12
    let c := (ofSteps .accepted 1 ((Trace.ofSource 1 source).steps.take 3) {}).state
    let product := Expr.chain (.chain (.literal .int (.int 2)) .sub (.literal .int (.int 3))
      (.cons .sub (.literal .int (.int 4)) .nil)) .mul
      (.special "length" (.cons (.literal .str (.str "ab")) .nil)) .nil
    let e := Expr.chain (.literal .int (.int 1)) .add product .nil
    (ofSource 1 source).rejection = none ∧ steps.map Step.event = e.events ∧
      (∃ place, (ofSteps .accepted 1 steps c).state.operands = [⟨.value .int, place⟩]) ∧
      ∃ ops, ⟨(steps.take 5).map Step.event, .sub, ops⟩ ∈ e.foldings ∧
        (ofSteps .accepted 1 (steps.take 5) c).state.chained = ops.map BinOp.symbol := by
  intro source steps c product e
  have haccepted : (ofSource 1 source).rejection = none := by decide +kernel
  have hevents : steps.map Step.event = e.events := by decide +kernel
  have hvoids : e.voids c.isVoid = 0 := by decide +kernel
  have hrejection : (ofSteps .accepted 1 steps c).rejection = none := by decide +kernel
  have hkind : e.kind? c.names = some (.value .int) := by decide +kernel
  have hfold : steps = steps.take 5 ++ ⟨.fold .sub, 1⟩ :: steps.drop 6 := by decide +kernel
  have hc : c.chained = [] ∧ c.arguments = [] ∧ c.operands = [] := by decide +kernel
  obtain ⟨-, ⟨k, place, hk, hoperands⟩, hfolds⟩ :=
    expression_stacks hevents hc.1 hc.2.1 hvoids hrejection
  cases hk.symm.trans hkind
  rw [hc.2.2] at hoperands
  exact ⟨haccepted, hevents, ⟨place, hoperands⟩, hfolds _ _ _ _ hfold rfl⟩

end Symphony
