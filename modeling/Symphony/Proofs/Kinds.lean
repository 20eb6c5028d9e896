import Symphony.Proofs.Words

/-!
# The types of operands

Everything that a tree declares has one of the types of the language, and so have the results of
operators, except those of unary operators: of these only the code of the type is kept, and a
message cannot name it.

**Theorem (`Compiler.Acts.kinded`).** An event that is not the application of a unary operator keeps
the types of all operands such that they have a name (`Compiler.Kinded`).
-/

namespace Symphony

variable {o : Operand} {isGlobal : Bool}

/-! ## Declarations -/

def Kind.IsValue (k : Kind) : Prop :=
  ∃ t, k = .value t

/-- What is declared has a type of its own, and so has the size of an array. -/
def Declaration.IsUsual (d : Declaration) : Prop :=
  d.kind.IsValue ∧ ∀ k n, d.extent = some (k, n) → k.IsValue

def Event.IsUsual : Event → Prop
  | .declareGlobals vars => ∀ d ∈ vars, d.IsUsual
  | .declareLocals params vars => ∀ d ∈ params ++ vars, d.IsUsual
  | _ => True

theorem isUsual_of_isInner {e : Event} (h : e.isInner = true) : e.IsUsual := by
  cases e with
  | declareGlobals | declareLocals => cases h
  | _ => trivial

theorem isUsual_scalar (t : Ty) (name : String) : (Goal.scalar t name).IsUsual :=
  ⟨⟨t, rfl⟩, by rintro k n ⟨⟩⟩

theorem isUsual_declarationsOf {gs : List Group} : ∀ d ∈ declarationsOf gs, d.IsUsual := by
  intro d hd
  obtain ⟨g, -, hd⟩ := List.mem_flatMap.1 hd
  obtain ⟨⟨name, size⟩, -, rfl⟩ := List.mem_map.1 (List.mem_reverse.1 hd)
  cases size with
  | none => exact isUsual_scalar _ _
  | some n => exact ⟨⟨_, rfl⟩, by rintro k m ⟨⟩; exact ⟨_, rfl⟩⟩

theorem FunctionTree.isUsual (f : FunctionTree) : ∀ e ∈ f.events, e.IsUsual := by
  have hsizes : ∀ e ∈ sizesOf f.vars, e.IsUsual := fun e he =>
    isUsual_of_isInner (sizesOf_isInner _ e he)
  have hlocals : ∀ d ∈ declared f.params ++ declarationsOf f.vars, d.IsUsual := by
    refine List.forall_mem_append.2 ⟨fun d hd => ?_, isUsual_declarationsOf⟩
    obtain ⟨p, -, rfl⟩ := List.mem_map.1 (List.mem_reverse.1 hd)
    exact isUsual_scalar _ _
  simp only [events, innerEvents, List.forall_mem_cons, List.forall_mem_append]
  exact ⟨trivial, hsizes, hlocals, fun e he => isUsual_of_isInner (f.body.isInner e he), trivial,
    List.forall_mem_nil _⟩

theorem Tree.isUsual (p : Tree) : ∀ e ∈ p.events, e.IsUsual := by
  have hsizes : ∀ e ∈ sizesOf p.globals, e.IsUsual := fun e he =>
    isUsual_of_isInner (sizesOf_isInner _ e he)
  have hfunctions : ∀ e ∈ p.functions.flatMap FunctionTree.events, e.IsUsual := by
    intro e he
    obtain ⟨f, -, he⟩ := List.mem_flatMap.1 he
    exact f.isUsual e he
  simp only [events, List.forall_mem_cons, List.forall_mem_append]
  exact ⟨hsizes, isUsual_declarationsOf, hfunctions, trivial,
    fun e he => isUsual_of_isInner (p.main.isInner e he), trivial, List.forall_mem_nil _⟩

/-! ## The compiler -/

/-- The type of an operand has a name, or is that of an array. -/
def Kind.IsNamed (k : Kind) : Prop :=
  k.name?.isSome = true

theorem Kind.IsValue.isNamed {k : Kind} (h : k.IsValue) : k.IsNamed := by
  obtain ⟨t, rfl⟩ := h
  rfl

def Variable.IsUsual (v : Variable) : Prop :=
  v.kind.IsNamed ∧ ∀ k n, v.elements = some (k, n) → k.IsValue

/-- What is known of a function has types that can be declared. -/
structure Function.IsUsual (f : Function) : Prop where
  result : ∀ k, f.result = some k → k.IsValue
  parameterKinds : ∀ k ∈ f.parameterKinds, k.IsValue
  declared : ∀ v ∈ f.declared, v.IsUsual

namespace Compiler

variable {N : Prop} {c c' : Compiler}

/-- The types of all that the compiler holds are usual. Operands have types with names under a
condition: that they are no results of unary operators. -/
structure Kinded (N : Prop) (c : Compiler) : Prop where
  operands : N → ∀ o ∈ c.operands, o.kind.IsNamed
  arguments : N → ∀ o ∈ c.arguments, o.kind.IsNamed
  offset : N → ∀ o, c.offset = some o → o.kind.IsNamed
  functions : ∀ f ∈ c.functions, f.IsUsual
  chained : ∀ w ∈ c.chained, ∃ o : BinOp, w = o.symbol

namespace Kinded

theorem denoted (h : Kinded N c) {name : String} {v : Variable} (hv : c.denoted? name = some v) :
    v.IsUsual := by
  obtain ⟨s, f, hf, hv⟩ := function_of_denoted? hv
  exact (h.functions f (List.mem_of_find?_eq_some hf)).declared v hv

theorem function (h : Kinded N c) {s : Scope} {f : Function} (hf : c.function? s = some f) :
    f.IsUsual :=
  h.functions f (List.mem_of_find?_eq_some hf)

theorem current (h : Kinded N c) : c.current.IsUsual := by
  rw [Compiler.current]
  cases hf : c.function? c.scope with
  | none => exact ⟨by rintro k ⟨⟩, List.forall_mem_nil _, List.forall_mem_nil _⟩
  | some f => exact h.function hf

theorem push (h : Kinded N c) (ho : N → o.kind.IsNamed) : Kinded N (c.push o) :=
  { h with operands := fun hN => List.forall_mem_cons.2 ⟨ho hN, h.operands hN⟩ }

theorem pop (h : Kinded N c) {rest : List Operand} (ho : c.operands = o :: rest) :
    Kinded N { c with operands := rest } :=
  { h with operands := fun hN o' ho' => h.operands hN o' (ho ▸ List.mem_cons_of_mem _ ho') }

theorem top (h : Kinded N c) {rest : List Operand} (ho : c.operands = o :: rest) (hN : N) :
    o.kind.IsNamed :=
  h.operands hN o (ho ▸ List.mem_cons_self)

theorem updateCurrent (h : Kinded N c) {change : Function → Function}
    (hchange : ∀ f, f.IsUsual → (change f).IsUsual) : Kinded N (c.updateCurrent change) := by
  refine { h with functions := fun f hf => ?_ }
  obtain ⟨g, hg, rfl⟩ := List.mem_map.1 hf
  split
  · exact hchange g (h.functions g hg)
  · exact h.functions g hg

theorem addVariable (h : Kinded N c) {v : Variable} (hv : v.IsUsual) : Kinded N (c.addVariable v) :=
  h.updateCurrent fun _ hf => { hf with
    declared := List.forall_mem_append.2 ⟨hf.declared, List.forall_mem_singleton.2 hv⟩ }

theorem markFirst (h : Kinded N c) : Kinded N c.markFirst :=
  h.updateCurrent fun _ hf => { hf with }

theorem emit (h : Kinded N c) (q : Quad) : Kinded N (c.emit q) :=
  { h with }

theorem reserve (h : Kinded N c) (s : Sector) (t : Ty) (n : Int) : Kinded N (c.reserve s t n) :=
  { h with }

theorem completeAll (h : Kinded N c) (ps : List (Nat × List Field)) :
    Kinded N (c.completeAll ps) := by
  rw [completeAll_eq]
  exact { h with }

theorem enterFunction (h : Kinded N c) (name : Scope) (rest : List Scope) :
    Kinded N (c.enterFunction name rest) :=
  { h with arguments := fun _ => List.forall_mem_nil _ }

end Kinded

theorem DeclaresStep.kinded {d : Declaration} (hd : DeclaresStep isGlobal d c c') (hu : d.IsUsual)
    (h : Kinded N c) : Kinded N c' := by
  cases hd with
  | one hd =>
    cases hd with
    | scalar => exact (h.reserve _ _ _).addVariable ⟨hu.1.isNamed, nofun⟩
    | array =>
      refine (h.reserve _ _ _).addVariable ⟨rfl, ?_⟩
      intro k n hk
      cases hk
      exact hu.1
  | kind =>
    exact h.updateCurrent fun _ hf =>
      { hf with parameterKinds := List.forall_mem_cons.2 ⟨hu.1, hf.parameterKinds⟩ }
  | address => exact h.updateCurrent fun _ hf => { hf with }

theorem Folds.isNamed {l : Operand} {rest : List (Operand × String)} (hf : Folds l rest c o c')
    (hl : l.kind.IsNamed) : o.kind.IsNamed := by
  induction hf with
  | nil => exact hl
  | cons ho _ ih =>
    cases ho
    exact ih rfl

/-- Every usual event keeps the types of what the compiler holds usual. -/
theorem Acts.kinded {e : Event} (ha : Acts e c c') (he : e.IsUsual) (hN : N → ∀ o, e ≠ .unary o)
    (h : Kinded N c) : Kinded N c' := by
  cases ha with
  | declareGlobals hv =>
    exact hv.keeps (fun d hd _ _ hs => hs.kinded (he d hd)) (h.emit _).markFirst
  | declareLocals hp hv =>
    obtain ⟨hparams, hvars⟩ := List.forall_mem_append.1 he
    exact hv.keeps (fun d hd _ _ hs => hs.kinded (hvars d hd))
      (hp.keeps (fun d hd _ _ hs => hs.kinded (hparams d hd)) h.markFirst)
  | defineFunction =>
    refine { h with
      functions := List.forall_mem_append.2 ⟨h.functions, List.forall_mem_singleton.2 ?_⟩ }
    refine ⟨fun k hk => ?_, List.forall_mem_nil _, List.forall_mem_nil _⟩
    obtain ⟨t, -, rfl⟩ := Option.map_eq_some_iff.1 hk
    exact ⟨t, rfl⟩
  | endFunction =>
    have hclosed : Kinded N (c.updateCurrent fun f => { f with declared := [] }) :=
      h.updateCurrent fun _ hf => { hf with declared := List.forall_mem_nil _ }
    exact { hclosed with }
  | oldConstant => exact h.push fun _ => rfl
  | newConstant =>
    exact { h with operands := fun hN => List.forall_mem_cons.2 ⟨rfl, h.operands hN⟩ }
  | dropSize hx => exact h.pop hx
  | useVariable hv => exact h.push fun _ => (h.denoted hv).1
  | useElement hx _ hv hel =>
    exact (((h.pop hx).emit _).reserve _ _ _ |>.emit _).push fun _ =>
      ((h.denoted hv).2 _ _ hel).isNamed
  | selectElement hx =>
    refine { h.pop hx with offset := fun hN o ho => ?_ }
    cases ho
    exact h.top hx hN
  | assignVariable _ _ _ hx => exact { h.pop hx with }
  | assignElement _ _ _ _ _ hx => exact { h.pop hx with offset := fun _ o ho => by cases ho }
  | power hx hop =>
    have hrest : Kinded N { c with operands := _ } := (h.pop hx).pop rfl
    cases hop
    exact ((hrest.reserve _ _ _).emit _).push fun _ => rfl
  | chain => exact { h with chained := List.forall_mem_cons.2 ⟨⟨_, rfl⟩, h.chained⟩ }
  | @fold _ _ _ first result below hdrop hfold =>
    have harguments : _ = c.arguments := (congrArg arguments hfold.rest_eq :)
    have hoffset : _ = c.offset := (congrArg offset hfold.rest_eq :)
    have hfunctions : _ = c.functions := (congrArg functions hfold.rest_eq :)
    have hmem : ∀ o ∈ first :: below, o ∈ c.operands :=
      fun o ho => List.mem_of_mem_drop (hdrop ▸ ho)
    refine ⟨fun hN => ?_, ?_, ?_, ?_, List.forall_mem_nil _⟩
    · have hnamed := fun o ho => h.operands hN o (hmem o ho)
      exact List.forall_mem_cons.2 ⟨hfold.isNamed (hnamed _ List.mem_cons_self),
        (List.forall_mem_cons.1 hnamed).2⟩
    · show N → ∀ o ∈ _, _
      rw [harguments]
      exact h.arguments
    · show N → ∀ o, _ = some o → _
      rw [hoffset]
      exact h.offset
    · show ∀ f ∈ _, _
      rw [hfunctions]
      exact h.functions
  | update hx | unary hx =>
    -- These leave a type code without a name, so they are excluded where names are asked for.
    exact { h.pop hx with operands := fun hN' => absurd rfl (hN hN' _) }
  | giveBack _ _ hx =>
    refine Kinded.completeAll (Kinded.updateCurrent (h.pop hx) fun _ hf => ?_) _
    exact { hf with }
  | callVoid => exact h.enterFunction _ _
  | callKnown _ hf _ _ hk | callSelf _ hf _ _ hk =>
    have hresult := ((h.function hf).result _ hk).isNamed
    exact { h with
      operands := fun hN => List.forall_mem_cons.2 ⟨hresult, h.operands hN⟩
      arguments := fun _ => List.forall_mem_nil _ }
  | specialVoid => exact { h with arguments := fun _ => List.forall_mem_nil _ }
  | specialValue =>
    exact { h with
      operands := fun hN => List.forall_mem_cons.2 ⟨rfl, h.operands hN⟩
      arguments := fun _ => List.forall_mem_nil _ }
  | argument hx =>
    exact { h.pop hx with
      arguments := fun hN => List.forall_mem_cons.2 ⟨h.top hx hN, h.arguments hN⟩ }
  | testIf hx | testLoop hx => exact { h.pop hx with }
  | closeLoop =>
    rw [completeAll_eq]
    exact { h with }
  | enterMain | finish | breakLoop | beginCall | beginSpecial | closeIf | elseBranch | markLoop
  | leaveLoop =>
    exact { h with }

end Compiler

end Symphony
