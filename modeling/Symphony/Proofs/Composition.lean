import Symphony.Proofs.Syntax

/-!
# Properties of the events of a tree

The events of a tree are put together from those of its parts. So a property that a sequence of
events has if its parts have it holds of all trees as soon as it holds of a few short sequences: of
events that stand alone, of calls, of chains of operators and of loops.

**Theorem (`Tree.composed`).** This is the induction over trees that such properties need, done
once.
-/

namespace Symphony

namespace Event

/-- Events of an expression that stand alone. -/
def isOperand : Event → Bool
  | .constant .. | .useVariable _ | .useElement _ | .power => true
  | _ => false

/-- Events of a statement that stand alone. -/
def isStatement : Event → Bool
  | .assign _ | .selectElement | .giveBack | .breakLoop | .testIf | .closeIf | .elseBranch => true
  | _ => false

/-- Events of statements. -/
def isInner : Event → Bool
  | .declareGlobals _ | .enterMain | .finish | .defineFunction .. | .declareLocals ..
  | .endFunction => false
  | _ => true

/-- A property that sequences of events have if their parts have it. -/
structure Composes (P : List Event → Prop) : Prop where
  nil : P []
  append {xs ys : List Event} : P xs → P ys → P (xs ++ ys)

end Event

variable {P : List Event → Prop}

/-! ## Expressions -/

/-- A property that composes, and that the parts of an expression have. -/
structure Expr.Composes (P : List Event → Prop) : Prop extends Event.Composes P where
  single (e : Event) : e.isOperand = true → P [e]
  sign (o : Sign) : P [.unary o.op]
  update (u : Update) (t : Target) : P t.events → P (t.events ++ [.unary u.op])
  chain (l : Links) (o : BinOp) : P (l.operators ++ [.fold o])
  call (name : String) (n : Nat) {xs : List Event} :
    P xs → P (.beginCall name :: (xs ++ List.replicate n .argument) ++ [.endCall name])
  special (name : String) (n : Nat) {xs : List Event} :
    P xs → P (.beginSpecial name :: (xs ++ List.replicate n .argument) ++ [.endSpecial name])

section

variable (h : Expr.Composes P)

include h

mutual

theorem Expr.composed : ∀ e : Expr, P e.events
  | .literal _ _ => h.single _ rfl
  | .reference t => t.composed
  | .apply o e => h.append e.composed (h.sign o)
  | .update u t => h.update u t t.composed
  | .chain first o second rest => by
    have hrest := h.append second.composed (h.append rest.composed (h.chain rest o))
    simpa [Expr.events] using h.append first.composed hrest
  | .power base exponent => h.append (h.append base.composed exponent.composed) (h.single _ rfl)
  | .call name args => h.call name args.length args.composed
  | .special name args => h.special name args.length args.composed

theorem Target.composed : ∀ t : Target, P t.events
  | .variable _ => h.single _ rfl
  | .element _ index => h.append index.composed (h.single _ rfl)

theorem Links.composed : ∀ l : Links, P l.operands
  | .nil => h.nil
  | .cons _ e rest => h.append e.composed rest.composed

theorem Args.composed : ∀ a : Args, P a.operands
  | .nil => h.nil
  | .cons e rest => h.append e.composed rest.composed

end

end

/-! ## Statements -/

/-- A property that composes, and that the parts of a statement have. -/
structure Stmt.Composes (P : List Event → Prop) : Prop extends Event.Composes P where
  expr (e : Expr) : P e.events
  single (e : Event) : e.isStatement = true → P [e]
  loop (condition : Expr) {xs : List Event} :
    P xs → P (.markLoop :: (condition.events ++ .testLoop :: (xs ++ [.closeLoop, .leaveLoop])))

theorem Stmt.Composes.cons (h : Stmt.Composes P) {e : Event} {xs : List Event}
    (he : e.isStatement = true) (hx : P xs) : P (e :: xs) :=
  h.append (h.single e he) hx

section

variable (h : Stmt.Composes P)

include h

mutual

theorem Stmt.composed : ∀ s : Stmt, P s.events
  | .call name args => h.expr (.call name args)
  | .special name args => h.expr (.special name args)
  | .assign (.variable _) e => h.append (h.expr e) (h.single _ rfl)
  | .assign (.element _ index) e =>
    h.append (h.expr index) (h.cons rfl (h.append (h.expr e) (h.single _ rfl)))
  | .update u t => h.expr (.update u t)
  | .giveBack e => h.append (h.expr e) (h.single _ rfl)
  | .leave => h.single _ rfl
  | .branch condition body rest =>
    h.append (h.expr condition) (h.cons rfl (h.append body.composed rest.composed))
  | .loop condition body => h.loop condition body.composed

theorem Block.composed : ∀ b : Block, P b.events
  | .nil => h.nil
  | .cons s rest => h.append s.composed rest.composed

theorem Branches.composed : ∀ b : Branches, P b.events
  | .done => h.single _ rfl
  | .otherwise body more => h.cons rfl (h.append body.composed (h.cons rfl more.composed))
  | .elseif condition body rest more =>
    h.cons rfl (h.append (h.expr condition) (h.cons rfl (h.append body.composed
      (h.append rest.composed (h.cons rfl more.composed)))))

theorem Extra.composed : ∀ x : Extra, P x.events
  | .none => h.nil
  | .otherwise body => h.cons rfl (h.append body.composed (h.single _ rfl))
  | .elseif condition body rest =>
    h.cons rfl (h.append (h.expr condition) (h.cons rfl (h.append body.composed
      (h.append rest.composed (h.single _ rfl)))))

end

/-! ## Programs -/

variable (hsizes : ∀ gs : List Group, P (sizesOf gs))
  (houter : ∀ e : Event, e.isInner = false → P [e])

include hsizes houter

theorem FunctionTree.composed (fs : List FunctionTree) : P (fs.flatMap events) := by
  induction fs with
  | nil => exact h.nil
  | cons f fs ih =>
    have hbody := h.append (f.body.composed h) (houter .endFunction rfl)
    have hinner : P (innerEvents f.params f.vars f.body) :=
      h.append (hsizes f.vars) (h.append (houter (.declareLocals _ _) rfl) hbody)
    exact h.append (h.append (houter (.defineFunction _ _) rfl) hinner) ih

/-- A property of sequences that composes holds of the events of a tree. -/
theorem Tree.composed (p : Tree) : P p.events := by
  have hmain := h.append (houter .enterMain rfl) (h.append (p.main.composed h) (houter .finish rfl))
  have hrest := h.append (FunctionTree.composed h hsizes houter p.functions) hmain
  exact h.append (hsizes p.globals) (h.append (houter (.declareGlobals _) rfl) hrest)

end

end Symphony
