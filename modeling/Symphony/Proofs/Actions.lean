import Symphony.Compiler.Perform

/-!
# What the compiler does at each event

`Compiler.Acts e c c'` says that the compiler may take the event `e` in the state `c` and is then in
the state `c'`. It has one constructor for each event and each way it can go, with the checks that
were passed and the new state in full.

**Theorem (`acts_of_perform`).** If the compiler performs an event without a rejection, it acts as
described here. There is no other way to act (`Acts.unique`).

Everything that is proved about compilation is proved from these descriptions.
-/

namespace Symphony

variable {isGlobal : Bool} {i : Nat} {name op : String} {l o : Operand} {ds : List Declaration}
  {f : Scope}

/-- A sequence of actions that succeeds is two actions that succeed. -/
theorem Attempt.bind_ok {ε σ α β : Type} {x : Attempt ε σ α} {f : α → Attempt ε σ β} {s s'' : σ}
    {b : β} (h : (x >>= f).runFrom s = (.ok b, s'')) :
    ∃ a s', x.runFrom s = (.ok a, s') ∧ (f a).runFrom s' = (.ok b, s'') := by
  rw [runFrom_bind] at h
  split at h
  case h_1 a s' hx => exact ⟨a, s', hx, h⟩
  case h_2 => cases h

namespace Compiler

/-! ## Changes of the state -/

def emit (c : Compiler) (q : Quad) : Compiler :=
  { c with quads := c.quads.push q }

/-- Adds fields at the end of a quad. -/
def complete (c : Compiler) (i : Nat) (fs : List Field) : Compiler :=
  { c with quads := c.quads.modify i (· ++ fs) }

/-- Completes quads one after the other. -/
def completeAll (c : Compiler) (ps : List (Nat × List Field)) : Compiler :=
  ps.foldl (fun c p => c.complete p.1 p.2) c

def push (c : Compiler) (o : Operand) : Compiler :=
  { c with operands := o :: c.operands }

/-- The next free address of a region. -/
def next (c : Compiler) (s : Sector) (t : Ty) : Int :=
  (c.counters.get s).get t

/-- Moves the next free address of a region. -/
def reserve (c : Compiler) (s : Sector) (t : Ty) (n : Int) : Compiler :=
  { c with counters := c.counters.set s ((c.counters.get s).set t (c.next s t + n)) }

def addVariable (c : Compiler) (v : Variable) : Compiler :=
  c.updateCurrent fun f => { f with declared := f.declared ++ [v] }

/-- Notes where the variables of the current function are declared. -/
def markFirst (c : Compiler) : Compiler :=
  c.updateCurrent fun f => { f with firstQuad := some c.quads.size }

/-- Checks an index and computes the address of an array element. -/
def point (c : Compiler) (base n : Int) (t : Ty) (index : Field) : Compiler :=
  ((c.emit [.word "VER", index, .num 0, .num n]).reserve .temporals t 1).emit
    [.word "ACCESS", .num base, index, .num (c.next .temporals t)]

/-- The quads that pass arguments, starting with the given number. -/
def passing : Nat → List Operand → List Quad
  | _, [] => []
  | i, x :: xs => [.word "PARAM", x.place, .num i] :: passing (i + 1) xs

def emitAll (c : Compiler) (qs : List Quad) : Compiler :=
  { c with quads := c.quads ++ qs }

/-- Where variables are allocated. -/
def variableSector (isGlobal : Bool) : Sector :=
  if isGlobal then .globals else .locals

/-- Starts a function. -/
def define (c : Compiler) (result : Option Ty) (name : String) : Compiler :=
  { c with
    scope := some name
    functions := c.functions ++ [.opened (result.map Kind.value) (some name) c.quads.size] }

/-- Ends a function; its variables are forgotten. -/
def close (c : Compiler) : Compiler :=
  { c.updateCurrent (fun f => { f with declared := [] }) with scope := none }.emit
    [.word "ENDPROC", .word c.current.name.text]

/-- The state after the arguments of a call have been passed and the function has been entered. -/
def enterFunction (c : Compiler) (name : Scope) (rest : List Scope) : Compiler :=
  { ({ c with called := rest }.emitAll (passing 1 c.arguments)).emit
      [.word "GOSUB", .word name.text] with arguments := [] }

theorem next_reserve (c : Compiler) (s u : Sector) (t t' : Ty) (n : Int) :
    (c.reserve s t n).next u t' = c.next u t' + if u = s ∧ t' = t then n else 0 := by
  by_cases h : u = s
  · subst h
    by_cases h' : t' = t
    · subst h'
      simp [next, reserve]
    · simp [next, reserve, h', PerTy.get_set_of_ne]
  · simp [next, reserve, h, PerSector.get_set_of_ne]

/-! ## Actions in several steps -/

/-- A binary operation is emitted, and its result is a new cell. -/
inductive Operates (op : String) (l r : Operand) : Compiler → Operand → Compiler → Prop
  | mk {c : Compiler} {o : BinOp} {lt rt t : Ty} :
      l.kind.row? = some lt → r.kind.row? = some rt → BinOp.ofSymbol? op = some o →
      o.result? lt rt = some t →
      Operates op l r c ⟨.value t, .num (c.next .temporals t)⟩ ((c.reserve .temporals t 1).emit
        [.word op, l.place, r.place, .num (c.next .temporals t)])

/-- Operands are folded into a left one, each with its operator. -/
inductive Folds : Operand → List (Operand × String) → Compiler → Operand → Compiler → Prop
  | nil (l : Operand) (c : Compiler) : Folds l [] c l c
  | cons {l r m o : Operand} {op : String} {rest : List (Operand × String)} {c c' c'' : Compiler} :
      Operates op l r c m c' → Folds m rest c' o c'' → Folds l ((r, op) :: rest) c o c''

/-- One variable is declared. -/
inductive Declares (isGlobal : Bool) : Declaration → Compiler → Compiler → Prop
  | scalar {d : Declaration} {c : Compiler} {t : Ty} :
      d.extent = none → c.current.find? d.name = none → d.kind.ty? = some t →
      Declares isGlobal d c ((c.reserve (variableSector isGlobal) t 1).addVariable
        ⟨d.kind, c.next (variableSector isGlobal) t, d.name, none⟩)
  | array {d : Declaration} {c : Compiler} {t : Ty} {k : Kind} {n : Int} :
      d.extent = some (k, n) → c.current.find? d.name = none → k.agrees (.value .int) = true →
      d.kind.ty? = some t →
      Declares isGlobal d c ((c.reserve (variableSector isGlobal) t n).addVariable
        ⟨.array, c.next (variableSector isGlobal) t, d.name, some (d.kind, n)⟩)

inductive DeclaresAll (isGlobal : Bool) : List Declaration → Compiler → Compiler → Prop
  | nil (c : Compiler) : DeclaresAll isGlobal [] c c
  | cons {d : Declaration} {rest : List Declaration} {c c' c'' : Compiler} :
      Declares isGlobal d c c' → DeclaresAll isGlobal rest c' c'' →
      DeclaresAll isGlobal (d :: rest) c c''

/-- Parameters are declared, and become part of the signature. -/
inductive DeclaresParams (isGlobal : Bool) : List Declaration → Compiler → Compiler → Prop
  | nil (c : Compiler) : DeclaresParams isGlobal [] c c
  | cons {d : Declaration} {rest : List Declaration} {c c' c'' : Compiler} :
      Declares isGlobal d
        (c.updateCurrent fun f => { f with parameterKinds := d.kind :: f.parameterKinds }) c' →
      DeclaresParams isGlobal rest
        (c'.updateCurrent fun f =>
          { f with
            parameterAddresses :=
              ((f.find? d.name).map Variable.address).toList ++ f.parameterAddresses }) c'' →
      DeclaresParams isGlobal (d :: rest) c c''

/-- One step of declarations: a variable is declared, or the signature gets a kind or an address. -/
inductive DeclaresStep (isGlobal : Bool) (d : Declaration) : Compiler → Compiler → Prop
  | one {c c' : Compiler} : Declares isGlobal d c c' → DeclaresStep isGlobal d c c'
  | kind {t : Ty} (c : Compiler) : d.kind.ty? = some t → DeclaresStep isGlobal d c
      (c.updateCurrent fun f => { f with parameterKinds := d.kind :: f.parameterKinds })
  | address (c : Compiler) : DeclaresStep isGlobal d c
      (c.updateCurrent fun f =>
        { f with
          parameterAddresses :=
            ((f.find? d.name).map Variable.address).toList ++ f.parameterAddresses })

/-! ## Events -/

inductive Acts : Event → Compiler → Compiler → Prop
  | declareGlobals {c c' : Compiler} {vars : List Declaration} :
      DeclaresAll true vars (c.emit [.word "GOTO"]).markFirst c' → Acts (.declareGlobals vars) c c'
  | enterMain {c : Compiler} :
      0 < c.quads.size → Acts .enterMain c (c.complete 0 [.num c.quads.size])
  | finish {c : Compiler} : Acts .finish c { c with finished := true }
  | defineFunction {c : Compiler} {result : Option Ty} {name : String} :
      c.function? (some name) = none →
      Acts (.defineFunction result name) c (c.define result name)
  | declareLocals {c c' c'' : Compiler} {params vars : List Declaration} :
      DeclaresParams false params c.markFirst c' → DeclaresAll false vars c' c'' →
      Acts (.declareLocals params vars) c c''
  | endFunction {c : Compiler} :
      (c.current.result = none ∨ c.current.returnPlace ≠ none) →
      Acts .endFunction c c.close
  | oldConstant {c : Compiler} {t : Ty} {v w : Value} {a : Int} :
      (c.constants.get t).find? (·.1.equal v) = some (w, a) →
      Acts (.constant t v) c (c.push ⟨.value t, .num a⟩)
  | newConstant {c : Compiler} {t : Ty} {v : Value} :
      (c.constants.get t).find? (·.1.equal v) = none →
      Acts (.constant t v) c
        ({ c.reserve .constants t 1 with
          constants := c.constants.set t (c.constants.get t ++ [(v, c.next .constants t)]) }.push
          ⟨.value t, .num (c.next .constants t)⟩)
  | dropSize {c : Compiler} {o : Operand} {rest : List Operand} :
      c.operands = o :: rest → Acts .dropSize c { c with operands := rest }
  | useVariable {c : Compiler} {name : String} {v : Variable} :
      c.denoted? name = some v → Acts (.useVariable name) c (c.push ⟨v.kind, .num v.address⟩)
  | useElement {c : Compiler} {name : String} {index : Operand} {rest : List Operand} {v : Variable}
      {k : Kind} {n : Int} {t : Ty} :
      c.operands = index :: rest → index.kind.agrees (.value .int) = true →
      c.denoted? name = some v → v.elements = some (k, n) → k.ty? = some t →
      Acts (.useElement name) c
        (({ c with operands := rest }.point v.address n t index.place).push
          ⟨k, .pointer (c.next .temporals t)⟩)
  | selectElement {c : Compiler} {index : Operand} {rest : List Operand} :
      c.operands = index :: rest →
      Acts .selectElement c { c with operands := rest, offset := some index }
  | assignVariable {c : Compiler} {name : String} {v : Variable} {right : Operand}
      {rest : List Operand} :
      c.denoted? name = some v → c.offset = none → v.kind.agrees .array = false →
      c.operands = right :: rest → v.kind.agrees right.kind = true →
      Acts (.assign name) c
        ({ c with operands := rest }.emit [.word "=", right.place, .num v.address])
  | assignElement {c : Compiler} {name : String} {v : Variable} {index right : Operand}
      {rest : List Operand} {k : Kind} {n : Int} {t : Ty} :
      c.denoted? name = some v → c.offset = some index →
      index.kind.agrees (.value .int) = true → v.elements = some (k, n) → k.ty? = some t →
      c.operands = right :: rest → k.agrees right.kind = true →
      Acts (.assign name) c
        (({ c with operands := rest, offset := none }.point v.address n t index.place).emit
          [.word "=", right.place, .pointer (c.next .temporals t)])
  | power {c c' : Compiler} {l r o : Operand} {rest : List Operand} :
      c.operands = r :: l :: rest →
      Operates BinOp.pow.symbol l r { c with operands := rest } o c' → Acts .power c (c'.push o)
  | chain {c : Compiler} {o : BinOp} :
      Acts (.chain o) c { c with chained := o.symbol :: c.chained }
  | fold {c c' : Compiler} {o : BinOp} {first result : Operand} {below : List Operand} :
      c.operands.drop (c.chained.length + 1) = first :: below →
      Folds first (((c.operands.take (c.chained.length + 1)).reverse).zip (o.symbol :: c.chained))
        { c with chained := o.symbol :: c.chained } result c' →
      Acts (.fold o) c { c' with chained := [], operands := result :: below }
  | update {c : Compiler} {o : UnOp} {x : Operand} {rest : List Operand} {t u : Ty} :
      c.operands = x :: rest → x.kind.row? = some t → o.result? t = some u →
      o.updatesOperand = true →
      Acts (.unary o) c
        (({ c with operands := rest }.emit [.word o.mnemonic, x.place, x.place]).push
          ⟨.bare u.code, x.place⟩)
  | unary {c : Compiler} {o : UnOp} {x : Operand} {rest : List Operand} {t u : Ty} :
      c.operands = x :: rest → x.kind.row? = some t → o.result? t = some u →
      o.updatesOperand = false →
      Acts (.unary o) c
        ((({ c with operands := rest }.reserve .temporals u 1).emit
          [.word o.mnemonic, x.place, .num (c.next .temporals u)]).push
          ⟨.bare u.code, .num (c.next .temporals u)⟩)
  | breakLoop {c : Compiler} :
      c.openLoops ≠ 0 →
      Acts .breakLoop c ({ c with breaks := c.breaks ++ [c.quads.size] }.emit [.word "GOTO"])
  | giveBack {c : Compiler} {x : Operand} {rest : List Operand} {k : Kind} :
      c.current.returnPlace = none → c.scope ≠ none → c.operands = x :: rest →
      c.current.result = some k → x.kind.agrees k = true →
      (∀ p ∈ c.selfCalls, p.1 < c.quads.size) →
      Acts .giveBack c
        (({ c with operands := rest }.updateCurrent
          fun f => { f with returnPlace := some x.place }).completeAll
            (c.selfCalls.map fun (p : Nat × Int) => (p.1, [x.place, .num p.2])))
  | beginCall {c : Compiler} {name : String} :
      (c.function? (some name)).isSome = true →
      Acts (.beginCall name) c { c with called := some name :: c.called }
  | callVoid {c : Compiler} {written : String} {name : Scope} {rest : List Scope} {f : Function} :
      c.called = name :: rest → c.function? name = some f →
      c.arguments.length = f.parameterKinds.length →
      (∀ p ∈ c.arguments.zip f.parameterKinds, p.1.kind.agrees p.2 = true) →
      f.result = none → Acts (.endCall written) c (c.enterFunction name rest)
  | callKnown {c : Compiler} {written : String} {name : Scope} {rest : List Scope} {f : Function}
      {k : Kind} {t : Ty} {place : Field} :
      c.called = name :: rest → c.function? name = some f →
      c.arguments.length = f.parameterKinds.length →
      (∀ p ∈ c.arguments.zip f.parameterKinds, p.1.kind.agrees p.2 = true) →
      f.result = some k → k.ty? = some t → f.returnPlace = some place →
      Acts (.endCall written) c
        ((((c.enterFunction name rest).reserve (variableSector (c.scope == none)) t 1).push
          ⟨k, .num (c.next (variableSector (c.scope == none)) t)⟩).emit
            [.word "=", place, .num (c.next (variableSector (c.scope == none)) t)])
  | callSelf {c : Compiler} {written : String} {name : Scope} {rest : List Scope} {f : Function}
      {k : Kind} {t : Ty} :
      c.called = name :: rest → c.function? name = some f →
      c.arguments.length = f.parameterKinds.length →
      (∀ p ∈ c.arguments.zip f.parameterKinds, p.1.kind.agrees p.2 = true) →
      f.result = some k → k.ty? = some t → f.returnPlace = none →
      Acts (.endCall written) c
        ({ ((c.enterFunction name rest).reserve (variableSector (c.scope == none)) t 1).push
            ⟨k, .num (c.next (variableSector (c.scope == none)) t)⟩ with
          selfCalls := c.selfCalls ++ [((c.enterFunction name rest).quads.size,
            c.next (variableSector (c.scope == none)) t)] }.emit [.word "="])
  | beginSpecial {c : Compiler} {name : String} :
      Acts (.beginSpecial name) c { c with called := some name :: c.called }
  | specialVoid {c : Compiler} {written : String} {name : String} {rest : List Scope}
      {s : Special.Signature} :
      c.called = some name :: rest → Special.signature? name = some s →
      c.arguments.length = s.parameters.length →
      (∀ p ∈ c.arguments.zip s.parameters, (p.2.any fun t => p.1.kind.agrees (.value t)) = true) →
      s.result = none →
      Acts (.endSpecial written) c
        { ({ c with called := rest }.emitAll (passing 1 c.arguments)).emit [.word name] with
          arguments := [] }
  | specialValue {c : Compiler} {written : String} {name : String} {rest : List Scope}
      {s : Special.Signature} {t : Ty} :
      c.called = some name :: rest → Special.signature? name = some s →
      c.arguments.length = s.parameters.length →
      (∀ p ∈ c.arguments.zip s.parameters, (p.2.any fun t => p.1.kind.agrees (.value t)) = true) →
      s.result = some t →
      Acts (.endSpecial written) c
        { ((({ c with called := rest }.emitAll (passing 1 c.arguments)).reserve .temporals t 1).emit
            [.word name, .num (c.next .temporals t)]).push
              ⟨.value t, .num (c.next .temporals t)⟩ with
          arguments := [] }
  | argument {c : Compiler} {x : Operand} {rest : List Operand} :
      c.operands = x :: rest →
      Acts .argument c { c with operands := rest, arguments := x :: c.arguments }
  | testIf {c : Compiler} {x : Operand} {rest : List Operand} :
      c.operands = x :: rest → x.kind.agrees (.value .bool) = true →
      Acts .testIf c
        ({ c with operands := rest, jumps := c.quads.size :: c.jumps }.emit
          [.word "GOTOF", x.place])
  | closeIf {c : Compiler} {i : Nat} {rest : List Nat} :
      c.jumps = i :: rest → i < c.quads.size →
      Acts .closeIf c ({ c with jumps := rest }.complete i [.num c.quads.size])
  | elseBranch {c : Compiler} {i : Nat} {rest : List Nat} :
      c.jumps = i :: rest → i < c.quads.size + 1 →
      Acts .elseBranch c
        (({ c with jumps := c.quads.size :: rest }.emit [.word "GOTO"]).complete i
          [.num (c.quads.size + 1 : Nat)])
  | markLoop {c : Compiler} : Acts .markLoop c { c with jumps := c.quads.size :: c.jumps }
  | testLoop {c : Compiler} {x : Operand} {rest : List Operand} :
      c.operands = x :: rest → x.kind.agrees (.value .bool) = true →
      Acts .testLoop c
        ({ c with
          operands := rest
          jumps := c.quads.size :: c.jumps
          openLoops := c.openLoops + 1 }.emit [.word "GOTOF", x.place])
  | closeLoop {c : Compiler} {test condition : Nat} {rest : List Nat} :
      c.jumps = test :: condition :: rest → test < c.quads.size + 1 →
      (∀ i ∈ c.breaks, i < c.quads.size + 1) →
      Acts .closeLoop c
        { ({ c with jumps := rest }.emit [.word "GOTO", .num condition]).completeAll
            ((test :: c.breaks).map (·, [.num (c.quads.size + 1 : Nat)])) with breaks := [] }
  | leaveLoop {c : Compiler} : Acts .leaveLoop c { c with openLoops := c.openLoops + -1 }

/-! ## Only one way -/

variable {c c₁ c₂ : Compiler}

theorem Operates.unique {r o₁ o₂ : Operand} (h₁ : Operates op l r c o₁ c₁)
    (h₂ : Operates op l r c o₂ c₂) : o₁ = o₂ ∧ c₁ = c₂ := by
  cases h₁
  cases h₂
  simp_all

theorem Folds.unique {o₁ o₂ : Operand} {rest : List (Operand × String)} (h₁ : Folds l rest c o₁ c₁)
    (h₂ : Folds l rest c o₂ c₂) : o₁ = o₂ ∧ c₁ = c₂ := by
  induction h₁ with
  | nil =>
    cases h₂
    exact ⟨rfl, rfl⟩
  | cons h _ ih =>
    cases h₂ with
    | cons h' hrest =>
      obtain ⟨rfl, rfl⟩ := h.unique h'
      exact ih hrest

/-- A fold changes only the counters and the code. -/
theorem Folds.rest_eq {o : Operand} {rest : List (Operand × String)} (h : Folds l rest c o c') :
    { c' with counters := c.counters, quads := c.quads } = c := by
  induction h with
  | nil => rfl
  | @cons _ _ _ _ _ _ c _ _ h _ ih =>
    cases h
    exact congrArg (fun d => { d with counters := c.counters, quads := c.quads }) ih

theorem Declares.unique {d : Declaration} (h₁ : Declares isGlobal d c c₁)
    (h₂ : Declares isGlobal d c c₂) : c₁ = c₂ := by
  cases h₁ <;> cases h₂ <;> simp_all

theorem DeclaresAll.unique (h₁ : DeclaresAll isGlobal ds c c₁) (h₂ : DeclaresAll isGlobal ds c c₂) :
    c₁ = c₂ := by
  induction h₁ with
  | nil =>
    cases h₂
    rfl
  | cons h _ ih =>
    cases h₂ with
    | cons h' hrest =>
      obtain rfl := h.unique h'
      exact ih hrest

theorem DeclaresParams.unique (h₁ : DeclaresParams isGlobal ds c c₁)
    (h₂ : DeclaresParams isGlobal ds c c₂) : c₁ = c₂ := by
  induction h₁ with
  | nil =>
    cases h₂
    rfl
  | cons h _ ih =>
    cases h₂ with
    | cons h' hrest =>
      obtain rfl := h.unique h'
      exact ih hrest

theorem Declares.ty? {d : Declaration} (hd : Declares isGlobal d c c') :
    ∃ t, d.kind.ty? = some t := by
  cases hd with
  | scalar _ _ hk => exact ⟨_, hk⟩
  | array _ _ _ hk => exact ⟨_, hk⟩

/-- What every step keeps is kept by declarations. -/
theorem DeclaresAll.keeps {I : Compiler → Prop} (h : DeclaresAll isGlobal ds c c')
    (hstep : ∀ d ∈ ds, ∀ ⦃c c'⦄, DeclaresStep isGlobal d c c' → I c → I c') (hc : I c) : I c' := by
  induction h with
  | nil => exact hc
  | cons hd _ ih =>
    exact ih (fun d hd => hstep d (List.mem_cons_of_mem _ hd))
      (hstep _ List.mem_cons_self (.one hd) hc)

theorem DeclaresParams.keeps {I : Compiler → Prop} (h : DeclaresParams isGlobal ds c c')
    (hstep : ∀ d ∈ ds, ∀ ⦃c c'⦄, DeclaresStep isGlobal d c c' → I c → I c') (hc : I c) : I c' := by
  induction h with
  | nil => exact hc
  | cons hd _ ih =>
    have hfirst := hstep _ List.mem_cons_self
    obtain ⟨t, ht⟩ := hd.ty?
    exact ih (fun d hd => hstep d (List.mem_cons_of_mem _ hd))
      (hfirst (.address _) (hfirst (.one hd) (hfirst (.kind _ ht) hc)))

/-- An event can be taken in one way at most. -/
theorem Acts.unique {e : Event} (h₁ : Acts e c c₁) (h₂ : Acts e c c₂) : c₁ = c₂ := by
  cases h₁ with
  | declareGlobals h =>
    cases h₂ with
    | declareGlobals h' => exact h.unique h'
  | declareLocals hp hv =>
    cases h₂ with
    | declareLocals hp' hv' =>
      obtain rfl := hp.unique hp'
      exact hv.unique hv'
  | power hx hop =>
    cases h₂ with
    | power hx' hop' =>
      rw [hx] at hx'
      cases hx'
      obtain ⟨rfl, rfl⟩ := hop.unique hop'
      rfl
  | fold hdrop hfold =>
    cases h₂ with
    | fold hdrop' hfold' =>
      rw [hdrop] at hdrop'
      cases hdrop'
      obtain ⟨rfl, rfl⟩ := hfold.unique hfold'
      rfl
  | _ => cases h₂ <;> simp_all

end Compiler

namespace Compile

open Attempt Compiler

variable {c c' : Compiler} {line : Nat}

/-! ## Primitives -/

theorem pop_ok (h : (pop line).runFrom c = (.ok o, c')) :
    ∃ rest, c.operands = o :: rest ∧ c' = { c with operands := rest } := by
  obtain ⟨_, _, hget, hmatch⟩ := bind_ok h
  cases hget
  split at hmatch
  case h_1 => cases hmatch
  case h_2 x rest hx =>
    cases hmatch
    exact ⟨rest, hx, rfl⟩

theorem runFrom_emit (f : Field) (fs : Quad) (c : Compiler) :
    (emit (f :: fs)).runFrom c =
      if (f :: fs).all Field.isWritable then (.ok (), c.emit (f :: fs))
        else (.error .overlongInteger, c) := by
  have hemit : emit (f :: fs) = if (f :: fs).all Field.isWritable
      then modify (·.emit (f :: fs)) else throw .overlongInteger := rfl
  rw [hemit]
  split <;> rfl

theorem emit_ok {f : Field} {fs : Quad} {u : Unit} (h : (emit (f :: fs)).runFrom c = (.ok u, c')) :
    c' = c.emit (f :: fs) := by
  rw [runFrom_emit] at h
  split at h <;> cases h
  rfl

theorem complete_ok {fs : List Field} (h : (complete i fs).runFrom c = (.ok (), c')) :
    i < c.quads.size ∧ c' = c.complete i fs := by
  obtain ⟨_, _, hget, hif⟩ := bind_ok h
  cases hget
  split at hif
  case isTrue hi =>
    split at hif
    case isTrue =>
      cases hif
      exact ⟨hi, rfl⟩
    case isFalse => cases hif
  case isFalse => cases hif

theorem allocate_ok {s : Sector} {k : Kind} {n a : Int}
    (h : (allocate s k n).runFrom c = (.ok a, c')) :
    ∃ t, k.ty? = some t ∧ a = c.next s t ∧ c' = c.reserve s t n := by
  unfold allocate at h
  split at h
  case h_1 => cases h
  case h_2 t ht =>
    cases h
    exact ⟨t, ht, rfl, rfl⟩

theorem pushConstant_ok {t : Ty} {v : Value}
    (h : (pushConstant (.value t) v).runFrom c = (.ok (), c')) : Acts (.constant t v) c c' := by
  unfold pushConstant at h
  rw [Kind.ty?_value] at h
  obtain ⟨_, _, hget, hpool⟩ := bind_ok h
  cases hget
  dsimp only at hpool
  split at hpool
  case h_1 w a hw =>
    cases hpool
    exact .oldConstant hw
  case h_2 hw =>
    obtain ⟨a, c₁, ha, hpush⟩ := bind_ok hpool
    obtain ⟨u, hu, rfl, rfl⟩ := allocate_ok ha
    obtain rfl : t = u := by simpa [Kind.ty?_value] using hu
    cases hpush
    exact .newConstant hw

/-! ## Operators -/

theorem binaryResult_ok {l r : Kind} {t : Ty}
    (h : (binaryResult op l r).runFrom c = (.ok (some t), c')) :
    c' = c ∧ ∃ lt rt o, l.row? = some lt ∧ r.row? = some rt ∧ BinOp.ofSymbol? op = some o ∧
      o.result? lt rt = some t := by
  unfold binaryResult at h
  split at h
  case h_1 lt rt hl hr =>
    split at h
    case h_1 o ho =>
      simp only [runFrom_pure, Prod.mk.injEq, Except.ok.injEq] at h
      exact ⟨h.2.symm, lt, rt, o, hl, hr, ho, h.1⟩
    case h_2 => cases h
  case h_2 => cases h

theorem binary_ok {r : Operand} (h : (binary op l r line).runFrom c = (.ok o, c')) :
    Operates op l r c o c' := by
  obtain ⟨t?, c₁, ht, hemit⟩ := bind_ok h
  cases t? with
  | none =>
    obtain ⟨_, _, _, hnamed⟩ := bind_ok hemit
    obtain ⟨_, _, _, hthrow⟩ := bind_ok hnamed
    cases hthrow
  | some t =>
    obtain ⟨rfl, lt, rt, b, hl, hr, hb, hres⟩ := binaryResult_ok ht
    obtain ⟨a, c₂, ha, hrest⟩ := bind_ok hemit
    obtain ⟨u, hu, rfl, rfl⟩ := allocate_ok ha
    obtain rfl : t = u := by simpa [Kind.ty?_value] using hu
    obtain ⟨_, _, hquad, hpure⟩ := bind_ok hrest
    obtain rfl := emit_ok hquad
    cases hpure
    exact .mk hl hr hb hres

theorem foldLeft_ok {rest : List (Operand × String)}
    (h : (foldLeft line l rest).runFrom c = (.ok o, c')) : Folds l rest c o c' := by
  induction rest generalizing l c with
  | nil =>
    cases h
    exact .nil _ _
  | cons p rest ih =>
    obtain ⟨m, c₁, hm, hrest⟩ := bind_ok h
    exact .cons (binary_ok hm) (ih hrest)

theorem operateRight_ok (h : (operateRight BinOp.pow.symbol line).runFrom c = (.ok (), c')) :
    Acts .power c c' := by
  obtain ⟨r, c₁, hr, hleft⟩ := bind_ok h
  obtain ⟨rest, hrest, rfl⟩ := pop_ok hr
  obtain ⟨l, c₂, hl, hbinary⟩ := bind_ok hleft
  obtain ⟨rest', hrest', rfl⟩ := pop_ok hl
  obtain ⟨o, c₃, ho, hpush⟩ := bind_ok hbinary
  cases hpush
  exact .power (by rw [hrest, show rest = _ from hrest']) (binary_ok ho)

theorem operateLeft_ok {o : BinOp} (h : (operateLeft o.symbol line).runFrom c = (.ok (), c')) :
    Acts (.fold o) c c' := by
  obtain ⟨_, c₁, hchain, hrest⟩ := bind_ok h
  cases hchain
  obtain ⟨_, _, hget, hdrop⟩ := bind_ok hrest
  cases hget
  dsimp only at hdrop
  split at hdrop
  case h_1 => cases hdrop
  case h_2 first below hd =>
    obtain ⟨result, c₂, hfold, hset⟩ := bind_ok hdrop
    cases hset
    exact .fold hd (foldLeft_ok hfold)

theorem unaryResult_ok {o : UnOp} {k : Kind} {p : UnOp × Ty}
    (h : (unaryResult o.symbol k).runFrom c = (.ok (some p), c')) :
    c' = c ∧ p.1 = o ∧ ∃ l, k.row? = some l ∧ o.result? l = some p.2 := by
  unfold unaryResult at h
  rw [UnOp.ofSymbol?_symbol] at h
  split at h
  case h_1 => cases h
  case h_2 l hl =>
    simp only [runFrom_pure, Prod.mk.injEq, Except.ok.injEq, Option.map_eq_some_iff] at h
    obtain ⟨⟨_, ht, rfl⟩, rfl⟩ := h
    exact ⟨rfl, rfl, l, hl, ht⟩

theorem operateUnary_ok {o : UnOp} (h : (operateUnary o.symbol line).runFrom c = (.ok (), c')) :
    Acts (.unary o) c c' := by
  obtain ⟨x, c₁, hx, hrest⟩ := bind_ok h
  obtain ⟨rest, hoperands, rfl⟩ := pop_ok hx
  obtain ⟨p?, c₂, hp, hplace⟩ := bind_ok hrest
  cases p? with
  | none =>
    obtain ⟨_, _, _, hthrow⟩ := bind_ok hplace
    cases hthrow
  | some p =>
    obtain ⟨rfl, rfl, l, hl, ht⟩ := unaryResult_ok hp
    dsimp only at hplace
    split at hplace
    case isTrue hu =>
      obtain ⟨_, _, hpure, hemit⟩ := bind_ok hplace
      cases hpure
      obtain ⟨_, _, hquad, hpush⟩ := bind_ok hemit
      obtain rfl := emit_ok hquad
      cases hpush
      exact .update hoperands hl ht hu
    case isFalse hu =>
      obtain ⟨place, c₃, halloc, hemit⟩ := bind_ok hplace
      rw [runFrom_map] at halloc
      split at halloc
      case h_1 a c₄ ha =>
        obtain ⟨t, ht', rfl, rfl⟩ := allocate_ok ha
        obtain rfl : p.2 = t := by simpa [Kind.ty?_bare] using ht'
        cases halloc
        obtain ⟨_, _, hquad, hpush⟩ := bind_ok hemit
        obtain rfl := emit_ok hquad
        cases hpush
        exact .unary hoperands hl ht (by simpa using hu)
      case h_2 => cases halloc

/-! ## Jumps -/

theorem popJump_ok (h : popJump.runFrom c = (.ok i, c')) :
    ∃ rest, c.jumps = i :: rest ∧ c' = { c with jumps := rest } := by
  obtain ⟨_, _, hget, hmatch⟩ := bind_ok h
  cases hget
  split at hmatch
  case h_1 => cases hmatch
  case h_2 x rest hx =>
    cases hmatch
    exact ⟨rest, hx, rfl⟩

theorem landHere_ok (h : (landHere i).runFrom c = (.ok (), c')) :
    i < c.quads.size ∧ c' = c.complete i [.num c.quads.size] := by
  obtain ⟨_, _, hget, hcomplete⟩ := bind_ok h
  cases hget
  exact complete_ok hcomplete

@[simp] theorem size_complete (c : Compiler) (i : Nat) (fs : List Field) :
    (c.complete i fs).quads.size = c.quads.size := by
  simp [Compiler.complete]

@[simp] theorem size_completeAll (c : Compiler) (ps : List (Nat × List Field)) :
    (c.completeAll ps).quads.size = c.quads.size := by
  induction ps generalizing c with
  | nil => rfl
  | cons p ps ih => exact (ih _).trans (size_complete c p.1 p.2)

theorem landAll_ok {is : List Nat} (h : (landAll is).runFrom c = (.ok (), c')) :
    (∀ i ∈ is, i < c.quads.size) ∧ c' = c.completeAll (is.map (·, [.num c.quads.size])) := by
  induction is generalizing c with
  | nil =>
    cases h
    exact ⟨by simp, rfl⟩
  | cons i is ih =>
    obtain ⟨_, c₁, hland, hrest⟩ := bind_ok h
    obtain ⟨hi, rfl⟩ := landHere_ok hland
    obtain ⟨his, rfl⟩ := ih hrest
    rw [size_complete] at his
    exact ⟨by simpa [hi] using his, by rw [size_complete]; rfl⟩

theorem testCondition_ok {statement : String}
    (h : (testCondition statement line).runFrom c = (.ok (), c')) :
    ∃ x rest, c.operands = x :: rest ∧ x.kind.agrees (.value .bool) = true ∧
      c' = { c with operands := rest, jumps := c.quads.size :: c.jumps }.emit
        [.word "GOTOF", x.place] := by
  obtain ⟨x, c₁, hx, hif⟩ := bind_ok h
  obtain ⟨rest, hoperands, rfl⟩ := pop_ok hx
  split at hif
  case isTrue hk =>
    obtain ⟨_, _, hjump, hquad⟩ := bind_ok hif
    cases hjump
    obtain ⟨_, _, hpush, hquad⟩ := bind_ok hquad
    cases hpush
    exact ⟨x, rest, hoperands, hk, emit_ok hquad⟩
  case isFalse =>
    obtain ⟨_, _, _, hthrow⟩ := bind_ok hif
    cases hthrow

theorem closeIf_ok (h : closeIf.runFrom c = (.ok (), c')) : Acts .closeIf c c' := by
  obtain ⟨i, c₁, hi, hland⟩ := bind_ok h
  obtain ⟨rest, hjumps, rfl⟩ := popJump_ok hi
  obtain ⟨hlt, rfl⟩ := landHere_ok hland
  exact .closeIf hjumps hlt

theorem elseBranch_ok (h : elseBranch.runFrom c = (.ok (), c')) : Acts .elseBranch c c' := by
  obtain ⟨i, c₁, hi, hpush⟩ := bind_ok h
  obtain ⟨rest, hjumps, rfl⟩ := popJump_ok hi
  obtain ⟨_, _, hget, hrest⟩ := bind_ok hpush
  cases hget
  obtain ⟨_, _, hset, hemit⟩ := bind_ok hrest
  cases hset
  obtain ⟨_, _, hquad, hland⟩ := bind_ok hemit
  cases hquad
  obtain ⟨hlt, rfl⟩ := landHere_ok hland
  simp only [Array.size_push] at hlt ⊢
  exact .elseBranch hjumps hlt

theorem closeLoop_ok (h : closeLoop.runFrom c = (.ok (), c')) : Acts .closeLoop c c' := by
  obtain ⟨test, c₁, htest, hrest⟩ := bind_ok h
  obtain ⟨rest, hjumps, rfl⟩ := popJump_ok htest
  obtain ⟨condition, c₂, hcondition, hemit⟩ := bind_ok hrest
  obtain ⟨rest', hjumps', rfl⟩ := popJump_ok hcondition
  obtain ⟨_, _, hquad, hland⟩ := bind_ok hemit
  obtain rfl := emit_ok hquad
  obtain ⟨_, c₃, hland, hall⟩ := bind_ok hland
  obtain ⟨hlt, rfl⟩ := landHere_ok hland
  obtain ⟨_, _, hget, hbreaks⟩ := bind_ok hall
  cases hget
  obtain ⟨_, c₄, hland, hset⟩ := bind_ok hbreaks
  obtain ⟨hbs, rfl⟩ := landAll_ok hland
  cases hset
  simp only [Compiler.emit, Array.size_push, size_complete] at hlt hbs ⊢
  exact .closeLoop (by rw [hjumps, show rest = _ from hjumps']) hlt hbs

theorem breakLoop_ok (h : (breakLoop line).runFrom c = (.ok (), c')) : Acts .breakLoop c c' := by
  obtain ⟨_, _, hget, hif⟩ := bind_ok h
  cases hget
  split at hif
  case isTrue =>
    cases hif
  case isFalse hne =>
    cases hif
    exact .breakLoop hne

/-! ## Declarations and names -/

theorem defineFunction_ok {result : Option Ty}
    (h : (defineFunction (result.map Kind.value) (some name) line).runFrom c = (.ok (), c')) :
    Acts (.defineFunction result name) c c' := by
  obtain ⟨_, _, hget, hif⟩ := bind_ok h
  cases hget
  split at hif
  case isTrue => cases hif
  case isFalse hf =>
    cases hif
    exact .defineFunction (by simpa using hf)

theorem declare_ok {d : Declaration} (h : (declare d isGlobal line).runFrom c = (.ok (), c')) :
    Declares isGlobal d c c' := by
  obtain ⟨_, _, hget, hmatch⟩ := bind_ok h
  cases hget
  dsimp only at hmatch
  split at hmatch
  case h_1 he =>
    split at hmatch
    case isTrue => cases hmatch
    case isFalse hd =>
      obtain ⟨a, c₁, ha, hadd⟩ := bind_ok hmatch
      obtain ⟨t, ht, rfl, rfl⟩ := allocate_ok ha
      cases hadd
      exact .scalar he (by simpa using hd) ht
  case h_2 k n he =>
    split at hmatch
    case isTrue => cases hmatch
    case isFalse hd =>
      split at hmatch
      case isTrue =>
        obtain ⟨_, _, _, hthrow⟩ := bind_ok hmatch
        obtain ⟨_, _, hthrow, _⟩ := bind_ok hthrow
        cases hthrow
      case isFalse hk =>
        obtain ⟨a, c₁, ha, hadd⟩ := bind_ok hmatch
        obtain ⟨t, ht, rfl, rfl⟩ := allocate_ok ha
        cases hadd
        exact .array he (by simpa using hd) (by simpa using hk) ht

theorem declareAll_ok (h : (declareAll isGlobal line ds).runFrom c = (.ok (), c')) :
    DeclaresAll isGlobal ds c c' := by
  induction ds generalizing c with
  | nil =>
    cases h
    exact .nil _
  | cons d ds ih =>
    obtain ⟨_, c₁, hd, hrest⟩ := bind_ok h
    exact .cons (declare_ok hd) (ih hrest)

theorem declareParameters_ok (h : (declareParameters isGlobal line ds).runFrom c = (.ok (), c')) :
    DeclaresParams isGlobal ds c c' := by
  induction ds generalizing c with
  | nil =>
    cases h
    exact .nil _
  | cons d ds ih =>
    obtain ⟨_, c₁, hkinds, hrest⟩ := bind_ok h
    cases hkinds
    obtain ⟨_, c₂, hd, hrest⟩ := bind_ok hrest
    obtain ⟨_, c₃, haddresses, hrest⟩ := bind_ok hrest
    cases haddresses
    exact .cons (declare_ok hd) (ih hrest)

theorem endFunction_ok (h : (endFunction line).runFrom c = (.ok (), c')) :
    Acts .endFunction c c' := by
  obtain ⟨_, _, hget, hmatch⟩ := bind_ok h
  cases hget
  dsimp only at hmatch
  split at hmatch
  case h_1 =>
    obtain ⟨_, _, _, hthrow⟩ := bind_ok hmatch
    cases hthrow
  case h_2 hne =>
    cases hmatch
    refine .endFunction ?_
    cases hresult : c.current.result with
    | none => exact .inl rfl
    | some k => exact .inr fun hplace => hne k hresult hplace

theorem lookup_ok {v : Variable} (h : (lookup name line).runFrom c = (.ok v, c')) :
    c.denoted? name = some v ∧ c' = c := by
  obtain ⟨_, _, hget, hmatch⟩ := bind_ok h
  cases hget
  split at hmatch
  case h_1 w hw =>
    cases hmatch
    exact ⟨hw, rfl⟩
  case h_2 => cases hmatch

theorem element_ok {base : Int} {elements : Kind × Int} {index : Field}
    (h : (element base elements index).runFrom c = (.ok o, c')) :
    ∃ t, elements.1.ty? = some t ∧ o = ⟨elements.1, .pointer (c.next .temporals t)⟩ ∧
      c' = c.point base elements.2 t index := by
  obtain ⟨_, _, hver, hrest⟩ := bind_ok h
  obtain rfl := emit_ok hver
  obtain ⟨a, c₁, ha, haccess⟩ := bind_ok hrest
  obtain ⟨t, ht, rfl, rfl⟩ := allocate_ok ha
  obtain ⟨_, _, hquad, hpure⟩ := bind_ok haccess
  obtain rfl := emit_ok hquad
  cases hpure
  exact ⟨t, ht, rfl, rfl⟩

theorem access_ok (h : (access name line).runFrom c = (.ok o, c')) :
    Acts (.useElement name) c (c'.push o) := by
  obtain ⟨index, c₁, hindex, hrest⟩ := bind_ok h
  obtain ⟨rest, hoperands, rfl⟩ := pop_ok hindex
  split at hrest
  case isTrue =>
    obtain ⟨_, _, _, hthrow⟩ := bind_ok hrest
    obtain ⟨_, _, hthrow, _⟩ := bind_ok hthrow
    cases hthrow
  case isFalse hk =>
    obtain ⟨v, c₂, hlookup, hmatch⟩ := bind_ok hrest
    obtain ⟨hv, rfl⟩ := lookup_ok hlookup
    split at hmatch
    case h_1 => cases hmatch
    case h_2 elements he =>
      obtain ⟨t, ht, rfl, rfl⟩ := element_ok hmatch
      exact .useElement hoperands (by simpa using hk) hv he ht

theorem assign_ok (h : (assign name line).runFrom c = (.ok (), c')) : Acts (.assign name) c c' := by
  obtain ⟨v, c₁, hlookup, hrest⟩ := bind_ok h
  obtain ⟨hv, rfl⟩ := lookup_ok hlookup
  obtain ⟨left, c₂, hleft, hpop⟩ := bind_ok hrest
  obtain ⟨right, c₃, hright, hif⟩ := bind_ok hpop
  obtain ⟨rest, hoperands, rfl⟩ := pop_ok hright
  split at hif
  case isFalse =>
    obtain ⟨_, _, _, hnamed⟩ := bind_ok hif
    obtain ⟨_, _, _, hthrow⟩ := bind_ok hnamed
    cases hthrow
  case isTrue hagrees =>
    obtain rfl := emit_ok hif
    obtain ⟨_, _, hget, hmatch⟩ := bind_ok hleft
    cases hget
    split at hmatch
    case h_1 ho =>
      dsimp only at hmatch
      split at hmatch
      case isTrue => cases hmatch
      case isFalse hk =>
        cases hmatch
        exact .assignVariable hv ho (by simpa using hk) hoperands hagrees
    case h_2 index ho =>
      obtain ⟨_, _, hset, hif⟩ := bind_ok hmatch
      cases hset
      dsimp only at hif
      split at hif
      case isTrue =>
        obtain ⟨_, _, _, hthrow⟩ := bind_ok hif
        obtain ⟨_, _, hthrow, _⟩ := bind_ok hthrow
        cases hthrow
      case isFalse hk =>
        split at hif
        case h_1 => cases hif
        case h_2 elements he =>
          obtain ⟨t, ht, rfl, rfl⟩ := element_ok hif
          exact .assignElement hv ho (by simpa using hk) he ht hoperands hagrees

/-! ## Calls -/

theorem popCalled_ok (h : popCalled.runFrom c = (.ok f, c')) :
    ∃ rest, c.called = f :: rest ∧ c' = { c with called := rest } := by
  obtain ⟨_, _, hget, hmatch⟩ := bind_ok h
  cases hget
  split at hmatch
  case h_1 => cases hmatch
  case h_2 x rest hx =>
    cases hmatch
    exact ⟨rest, hx, rfl⟩

theorem checkCount_ok {needed : Nat} (h : (checkCount f needed line).runFrom c = (.ok (), c')) :
    c.arguments.length = needed ∧ c' = c := by
  obtain ⟨_, _, hget, hif⟩ := bind_ok h
  cases hget
  dsimp only at hif
  split at hif
  case isTrue => cases hif
  case isFalse hn =>
    cases hif
    exact ⟨by simpa using hn, rfl⟩

theorem emitAll_cons (c : Compiler) (q : Quad) (qs : List Quad) :
    c.emitAll (q :: qs) = (c.emit q).emitAll qs := by
  simp [emitAll, Compiler.emit]

theorem passArguments_ok {ps : List (Operand × Kind)}
    (h : (passArguments f line i ps).runFrom c = (.ok (), c')) :
    (∀ p ∈ ps, p.1.kind.agrees p.2 = true) ∧ c' = c.emitAll (passing i (ps.map Prod.fst)) := by
  induction ps generalizing i c with
  | nil =>
    cases h
    exact ⟨by simp, by simp [passing, emitAll]⟩
  | cons p ps ih =>
    unfold passArguments at h
    dsimp only at h
    split at h
    case isTrue =>
      obtain ⟨_, _, _, hnamed⟩ := bind_ok h
      obtain ⟨_, _, _, hthrow⟩ := bind_ok hnamed
      obtain ⟨_, _, hthrow, _⟩ := bind_ok hthrow
      cases hthrow
    case isFalse hk =>
      obtain ⟨_, _, hemit, hrest⟩ := bind_ok h
      obtain rfl := emit_ok hemit
      obtain ⟨hps, rfl⟩ := ih hrest
      refine ⟨?_, (emitAll_cons _ _ _).symm⟩
      intro q hq
      rcases List.mem_cons.1 hq with rfl | hq
      · simpa using hk
      · exact hps q hq

theorem passSpecial_ok {ps : List (Operand × List Ty)}
    (h : (passSpecial f line i ps).runFrom c = (.ok (), c')) :
    (∀ p ∈ ps, (p.2.any fun t => p.1.kind.agrees (.value t)) = true) ∧
      c' = c.emitAll (passing i (ps.map Prod.fst)) := by
  induction ps generalizing i c with
  | nil =>
    cases h
    exact ⟨by simp, by simp [passing, emitAll]⟩
  | cons p ps ih =>
    unfold passSpecial at h
    dsimp only at h
    split at h
    case isTrue =>
      obtain ⟨_, _, _, hthrow⟩ := bind_ok h
      obtain ⟨_, _, hthrow, _⟩ := bind_ok hthrow
      cases hthrow
    case isFalse hk =>
      obtain ⟨_, _, hemit, hrest⟩ := bind_ok h
      obtain rfl := emit_ok hemit
      obtain ⟨hps, rfl⟩ := ih hrest
      refine ⟨?_, (emitAll_cons _ _ _).symm⟩
      intro q hq
      rcases List.mem_cons.1 hq with rfl | hq
      · simpa using hk
      · exact hps q hq

/-- The arguments themselves, if there are as many parameters. -/
theorem map_fst_zip {α β : Type} {xs : List α} {ys : List β} (h : xs.length = ys.length) :
    (xs.zip ys).map Prod.fst = xs := by
  rw [List.map_fst_zip]
  exact Nat.le_of_eq h

theorem beginCall_ok (h : (beginCall (some name) line).runFrom c = (.ok (), c')) :
    Acts (.beginCall name) c c' := by
  obtain ⟨_, _, hget, hif⟩ := bind_ok h
  cases hget
  dsimp only at hif
  split at hif
  case isTrue => cases hif
  case isFalse hf =>
    cases hif
    refine .beginCall ?_
    cases hf' : c.function? (some name) with
    | none => simp [hf'] at hf
    | some f => rfl

theorem endCall_ok {written : String} (h : (endCall line).runFrom c = (.ok (), c')) :
    Acts (.endCall written) c c' := by
  obtain ⟨name, c₁, hname, hrest⟩ := bind_ok h
  obtain ⟨rest, hcalled, rfl⟩ := popCalled_ok hname
  obtain ⟨_, _, hget, hmatch⟩ := bind_ok hrest
  cases hget
  split at hmatch
  case h_1 => cases hmatch
  case h_2 f hf =>
    obtain ⟨_, c₂, hcheck, hrest⟩ := bind_ok hmatch
    obtain ⟨hcount, rfl⟩ := checkCount_ok hcheck
    obtain ⟨_, _, hget, hrest⟩ := bind_ok hrest
    cases hget
    obtain ⟨_, c₃, hpass, hrest⟩ := bind_ok hrest
    obtain ⟨hkinds, rfl⟩ := passArguments_ok hpass
    rw [map_fst_zip hcount] at hrest
    obtain ⟨_, _, hgosub, hrest⟩ := bind_ok hrest
    cases hgosub
    obtain ⟨_, _, hclear, hrest⟩ := bind_ok hrest
    cases hclear
    split at hrest
    case h_1 hresult =>
      cases hrest
      exact .callVoid hcalled hf hcount hkinds hresult
    case h_2 k hresult =>
      obtain ⟨_, _, hget, hrest⟩ := bind_ok hrest
      cases hget
      obtain ⟨a, c₄, ha, hrest⟩ := bind_ok hrest
      obtain ⟨t, ht, rfl, rfl⟩ := allocate_ok ha
      obtain ⟨_, _, hpush, hrest⟩ := bind_ok hrest
      cases hpush
      split at hrest
      case h_1 place hplace =>
        obtain rfl := emit_ok hrest
        exact .callKnown hcalled hf hcount hkinds hresult ht hplace
      case h_2 hplace =>
        cases hrest
        exact .callSelf hcalled hf hcount hkinds hresult ht hplace

theorem endSpecial_ok {written : String} (h : (endSpecial line).runFrom c = (.ok (), c')) :
    Acts (.endSpecial written) c c' := by
  obtain ⟨name?, c₁, hname, hrest⟩ := bind_ok h
  obtain ⟨rest, hcalled, rfl⟩ := popCalled_ok hname
  split at hrest
  case h_1 => cases hrest
  case h_2 s hs =>
    obtain ⟨name, rfl, hsig⟩ := Option.bind_eq_some_iff.1 hs
    obtain ⟨_, c₂, hcheck, hrest⟩ := bind_ok hrest
    obtain ⟨hcount, rfl⟩ := checkCount_ok hcheck
    obtain ⟨_, _, hget, hrest⟩ := bind_ok hrest
    cases hget
    obtain ⟨_, c₃, hpass, hrest⟩ := bind_ok hrest
    obtain ⟨hkinds, rfl⟩ := passSpecial_ok hpass
    rw [map_fst_zip hcount] at hrest
    split at hrest
    case h_1 hresult =>
      cases hrest
      exact .specialVoid hcalled hsig hcount hkinds hresult
    case h_2 t hresult =>
      obtain ⟨a, c₄, ha, hrest⟩ := bind_ok hrest
      obtain ⟨u, hu, rfl, rfl⟩ := allocate_ok ha
      obtain rfl : t = u := by simpa [Kind.ty?_value] using hu
      obtain ⟨_, _, hquad, hrest⟩ := bind_ok hrest
      obtain rfl := emit_ok hquad
      cases hrest
      exact .specialValue hcalled hsig hcount hkinds hresult

theorem completeSelfCalls_ok {place : Field} {ps : List (Nat × Int)}
    (h : (completeSelfCalls place ps).runFrom c = (.ok (), c')) :
    (∀ p ∈ ps, p.1 < c.quads.size) ∧
      c' = c.completeAll (ps.map fun p => (p.1, [place, .num p.2])) := by
  induction ps generalizing c with
  | nil =>
    cases h
    exact ⟨by simp, rfl⟩
  | cons p ps ih =>
    obtain ⟨_, c₁, hcomplete, hrest⟩ := bind_ok h
    obtain ⟨hp, rfl⟩ := complete_ok hcomplete
    obtain ⟨hps, rfl⟩ := ih hrest
    rw [size_complete] at hps
    refine ⟨?_, rfl⟩
    intro q hq
    rcases List.mem_cons.1 hq with rfl | hq
    · exact hp
    · exact hps q hq

theorem giveBack_ok (h : (giveBack line).runFrom c = (.ok (), c')) : Acts .giveBack c c' := by
  obtain ⟨_, _, hget, hif⟩ := bind_ok h
  cases hget
  dsimp only at hif
  split at hif
  case isTrue => cases hif
  case isFalse hplace =>
    obtain ⟨_, _, hget, hif⟩ := bind_ok hif
    cases hget
    split at hif
    case isTrue => cases hif
    case isFalse hscope =>
      obtain ⟨x, c₁, hx, hmatch⟩ := bind_ok hif
      obtain ⟨rest, hoperands, rfl⟩ := pop_ok hx
      split at hmatch
      case h_1 => cases hmatch
      case h_2 k hk =>
        split at hmatch
        case isTrue =>
          obtain ⟨_, _, _, hnamed⟩ := bind_ok hmatch
          obtain ⟨_, _, _, hthrow⟩ := bind_ok hnamed
          obtain ⟨_, _, hthrow, _⟩ := bind_ok hthrow
          cases hthrow
        case isFalse hagrees =>
          obtain ⟨_, _, hset, hrest⟩ := bind_ok hmatch
          cases hset
          obtain ⟨_, _, hget, hcomplete⟩ := bind_ok hrest
          cases hget
          obtain ⟨hself, rfl⟩ := completeSelfCalls_ok hcomplete
          exact .giveBack (by simpa using hplace) (by simpa using hscope) hoperands hk
            (by simpa using hagrees) hself

/-! ## All events -/

/-- **What the compiler does.** An event that is performed without a rejection acts as described. -/
theorem acts_of_perform {s : Step} (h : (perform s).runFrom c = (.ok (), c')) :
    Acts s.event c c' := by
  obtain ⟨e, line⟩ := s
  cases e with
  | declareGlobals vars =>
    obtain ⟨_, _, hemit, hrest⟩ := bind_ok h
    cases hemit
    obtain ⟨_, _, hmark, hrest⟩ := bind_ok hrest
    cases hmark
    exact .declareGlobals (declareAll_ok hrest)
  | enterMain =>
    obtain ⟨hlt, rfl⟩ := landHere_ok h
    exact .enterMain hlt
  | finish =>
    cases h
    exact .finish
  | defineFunction result name => exact defineFunction_ok h
  | declareLocals params vars =>
    obtain ⟨_, _, hmark, hrest⟩ := bind_ok h
    cases hmark
    obtain ⟨_, c₁, hparams, hvars⟩ := bind_ok hrest
    exact .declareLocals (declareParameters_ok hparams) (declareAll_ok hvars)
  | endFunction => exact endFunction_ok h
  | constant t v => exact pushConstant_ok h
  | dropSize =>
    obtain ⟨o, c₁, hpop, hrest⟩ := bind_ok h
    obtain ⟨rest, hoperands, rfl⟩ := pop_ok hpop
    cases hrest
    exact .dropSize hoperands
  | useVariable name =>
    obtain ⟨v, c₁, hlookup, hpush⟩ := bind_ok h
    obtain ⟨hv, rfl⟩ := lookup_ok hlookup
    cases hpush
    exact .useVariable hv
  | useElement name =>
    obtain ⟨o, c₁, haccess, hpush⟩ := bind_ok h
    cases hpush
    exact access_ok haccess
  | selectElement =>
    obtain ⟨index, c₁, hpop, hset⟩ := bind_ok h
    obtain ⟨rest, hoperands, rfl⟩ := pop_ok hpop
    cases hset
    exact .selectElement hoperands
  | assign name => exact assign_ok h
  | power => exact operateRight_ok h
  | chain o =>
    cases h
    exact .chain
  | fold o => exact operateLeft_ok h
  | unary o => exact operateUnary_ok h
  | breakLoop => exact breakLoop_ok h
  | giveBack => exact giveBack_ok h
  | beginCall name => exact beginCall_ok h
  | endCall name => exact endCall_ok h
  | beginSpecial name =>
    cases h
    exact .beginSpecial
  | endSpecial name => exact endSpecial_ok h
  | argument =>
    obtain ⟨x, c₁, hpop, hset⟩ := bind_ok h
    obtain ⟨rest, hoperands, rfl⟩ := pop_ok hpop
    cases hset
    exact .argument hoperands
  | testIf =>
    obtain ⟨x, rest, hoperands, hk, rfl⟩ := testCondition_ok h
    exact .testIf hoperands hk
  | closeIf => exact closeIf_ok h
  | elseBranch => exact elseBranch_ok h
  | markLoop =>
    cases h
    exact .markLoop
  | testLoop =>
    obtain ⟨_, c₁, htest, hcount⟩ := bind_ok h
    obtain ⟨x, rest, hoperands, hk, rfl⟩ := testCondition_ok htest
    cases hcount
    exact .testLoop hoperands hk
  | closeLoop => exact closeLoop_ok h
  | leaveLoop =>
    cases h
    exact .leaveLoop

end Compile

end Symphony
