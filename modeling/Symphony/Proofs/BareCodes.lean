import Mathlib.Data.List.Forall2
import Symphony.Proofs.Rejections

/-!
# Results of unary operators without a type

After a unary operator the compiler keeps only the code of the result's type. Here is a compiler
that keeps the type itself (`Compile.performTyped`).

**Theorem (`Compiled.typed_alike`).** Both compilers take the same events of every source, and they
leave the same code, constants, functions and counters. If one rejects the source, the other does,
at the same event and for the same cause. There is one exception: where the first cannot name a
type, the second may complain about this type.

The states of the two differ in the types of operands only, and these types have the same code
(`Compiler.Resembles`). Each action of the compiler keeps this (`Compile.Mirrors`), since it looks
at nothing but the code, unless it has to write a message (`Compile.Fails`).
-/

namespace Symphony

variable {r : Rejection}

/-! ## The compiler with types -/

namespace Compile

/-- Compiles a unary operator as `operateUnary` does, but keeps the type of the result. -/
def operateUnaryTyped (operator : String) (line : Nat) : Compile Unit := do
  let x ← pop line
  match ← unaryResult operator x.kind with
  | some (o, t) =>
    let place ← if o.updatesOperand then pure x.place else Field.num <$> temporalAddress (.value t)
    emit [.word o.mnemonic, x.place, place]
    push ⟨.value t, place⟩
  | none => throw (.unaryType line operator (← named x.kind))

/-- Performs an event with types for the results of unary operators. -/
def performTyped (s : Step) : Compile Unit :=
  match s.event with
  | .unary o => operateUnaryTyped o.symbol s.line
  | _ => perform s

end Compile

/-- Performs steps in a given way until one is rejected; the number of those that are not comes
first. After all of them the trace ends as given. -/
def Compiled.ofStepsBy (perform : Step → Compile Unit) (ending : Ending) (last : Nat) :
    List Step → Compiler → Nat × Compiled
  | [], c => (0, ⟨c, ending.rejection?, last⟩)
  | s :: rest, c =>
    match (perform s).runFrom c with
    | (.ok _, c) =>
      let (n, compiled) := ofStepsBy perform ending last rest c
      (n + 1, compiled)
    | (.error r, c) => (0, ⟨c, some r, s.line⟩)

/-- Compiles a source in a given way. -/
def Compiled.ofSourceBy (perform : Step → Compile Unit) (line : Nat) (source : String) :
    Nat × Compiled :=
  ofStepsBy perform (Trace.ofSource line source).ending (Trace.ofSource line source).line
    (Trace.ofSource line source).steps {}

/-! ## Alike up to types -/

/-- The same code, and the same name if the first one has a name. -/
structure Kind.Resembles (k l : Kind) : Prop where
  code : l.code = k.code
  name : ∀ n, k.name? = some n → l.name? = some n

namespace Kind.Resembles

variable {k l k' l' : Kind}

theorem refl (k : Kind) : k.Resembles k := ⟨rfl, fun _ h => h⟩

theorem bare (t : Ty) : (Kind.bare t.code).Resembles (.value t) := ⟨rfl, by rintro n ⟨⟩⟩

theorem row? (h : k.Resembles l) : l.row? = k.row? := by
  rw [Kind.row?, Kind.row?, h.code]

theorem agrees (h : k.Resembles l) (h' : k'.Resembles l') : l.agrees l' = k.agrees k' := by
  rw [Kind.agrees, Kind.agrees, h.code, h'.code]

end Kind.Resembles

/-- The same place, and types that resemble each other. -/
structure Operand.Resembles (x y : Operand) : Prop where
  kind : x.kind.Resembles y.kind
  place : y.place = x.place

theorem Operand.Resembles.refl (x : Operand) : x.Resembles x := ⟨.refl _, rfl⟩

namespace Compiler

/-- The same state with other operands. -/
def withOperands (c : Compiler) (xs ys : List Operand) (offset : Option Operand) : Compiler :=
  { c with operands := xs, arguments := ys, offset := offset }

/-- States that differ in the types of operands only. -/
inductive Resembles (c : Compiler) : Compiler → Prop
  | mk {xs ys : List Operand} {offset : Option Operand} :
      List.Forall₂ Operand.Resembles c.operands xs → List.Forall₂ Operand.Resembles c.arguments ys →
      Option.Rel Operand.Resembles c.offset offset → Resembles c (c.withOperands xs ys offset)

end Compiler

/-- The same cause, or a complaint about a type where the first one cannot name a type. -/
def Rejection.Rewords (r r' : Rejection) : Prop :=
  r' = r ∨ r = .unnamedType ∧ r'.complaint? = some .type

namespace Compile

open Compiler

variable {α β γ δ : Type} {V : α → β → Prop} {W : γ → δ → Prop} {line : Nat}

/-- Two actions end in the same way, in states that resemble each other. -/
inductive Outcome (V : α → β → Prop) : Except Rejection α × Compiler →
    Except Rejection β × Compiler → Prop
  | ok {a : α} {b : β} {c c' : Compiler} : V a b → c.Resembles c' → Outcome V (.ok a, c) (.ok b, c')
  | error {r r' : Rejection} {c c' : Compiler} : r.Rewords r' → c.Resembles c' →
      Outcome V (.error r, c) (.error r', c')

/-- From states that resemble each other, two actions end in the same way. -/
def Mirrors (V : α → β → Prop) (x : Compile α) (y : Compile β) : Prop :=
  ∀ c c', c.Resembles c' → Outcome V (x.runFrom c) (y.runFrom c')

theorem mirrors_pure {a : α} {b : β} (h : V a b) : Mirrors V (pure a) (pure b) :=
  fun _ _ hc => .ok h hc

theorem mirrors_throw (r : Rejection) : Mirrors V (throw r) (throw r) :=
  fun _ _ hc => .error (.inl rfl) hc

theorem Mirrors.bind {x : Compile α} {y : Compile β} {f : α → Compile γ} {g : β → Compile δ}
    (h : Mirrors V x y) (hf : ∀ a b, V a b → Mirrors W (f a) (g b)) :
    Mirrors W (x >>= f) (y >>= g) := by
  intro c c' hc
  have hxy := h c c' hc
  rw [Attempt.runFrom_bind, Attempt.runFrom_bind]
  generalize x.runFrom c = u at hxy ⊢
  generalize y.runFrom c' = v at hxy ⊢
  cases hxy with
  | ok hab hd => exact hf _ _ hab _ _ hd
  | error hr hd => exact .error hr hd

/-- An action follows one that gives the same on both sides. -/
theorem Mirrors.andThen {x y : Compile α} {f : α → Compile γ} {g : α → Compile δ}
    (h : Mirrors Eq x y) (hf : ∀ a, Mirrors W (f a) (g a)) : Mirrors W (x >>= f) (y >>= g) :=
  h.bind fun a _ hab => hab ▸ hf a

theorem Mirrors.map {x y : Compile α} (h : Mirrors Eq x y) (f : α → γ) :
    Mirrors Eq (f <$> x) (f <$> y) := by
  rw [← bind_pure_comp, ← bind_pure_comp]
  exact h.andThen fun _ => mirrors_pure rfl

theorem mirrors_ite {p : Prop} [Decidable p] {x x' : Compile α} {y y' : Compile β}
    (h : Mirrors V x y) (h' : Mirrors V x' y') :
    Mirrors V (if p then x else x') (if p then y else y') := by
  split
  · exact h
  · exact h'

/-- A check, and what comes after it. -/
theorem mirrors_unless {p : Prop} [Decidable p] {x : Compile α} {y : Compile β}
    (h : Mirrors V x y) :
    Mirrors V (if p then (throw r : Compile Unit) >>= fun _ => x else x)
      (if p then (throw r : Compile Unit) >>= fun _ => y else y) :=
  mirrors_ite ((mirrors_throw (V := Eq) r).andThen fun _ => h) h

/-- Operands are read. -/
theorem mirrors_get {f : Compiler → Compile γ} {g : Compiler → Compile δ}
    (h : ∀ c xs ys offset, List.Forall₂ Operand.Resembles c.operands xs →
      List.Forall₂ Operand.Resembles c.arguments ys → Option.Rel Operand.Resembles c.offset offset →
      Mirrors W (f c) (g (c.withOperands xs ys offset))) : Mirrors W (get >>= f) (get >>= g) := by
  intro c c' hc
  have hmirrors : Mirrors W (f c) (g c') := by
    cases hc with
    | mk hxs hys ho => exact h c _ _ _ hxs hys ho
  exact hmirrors c c' hc

/-- Only what is no operand is read. -/
theorem mirrors_read {f : Compiler → Compile γ} {g : Compiler → Compile δ}
    (h : ∀ c, Mirrors W (f c) (g c))
    (hg : ∀ c xs ys offset, g (c.withOperands xs ys offset) = g c) :
    Mirrors W (get >>= f) (get >>= g) :=
  mirrors_get fun c xs ys offset _ _ _ => (hg c xs ys offset).symm ▸ h c

theorem mirrors_modify {f g : Compiler → Compiler}
    (h : ∀ c c', c.Resembles c' → (f c).Resembles (g c')) : Mirrors Eq (modify f) (modify g) :=
  fun c c' hc => .ok rfl (h c c' hc)

/-- Only what is no operand is changed. -/
theorem mirrors_change {f : Compiler → Compiler}
    (h : ∀ c xs ys offset,
    f (c.withOperands xs ys offset) = (f c).withOperands xs ys offset ∧
      (f c).operands = c.operands ∧ (f c).arguments = c.arguments ∧ (f c).offset = c.offset) :
    Mirrors Eq (modify f) (modify f) := by
  refine mirrors_modify fun c c' hc => ?_
  cases hc with
  | @mk xs ys offset hxs hys ho =>
    obtain ⟨heq, hoperands, harguments, hoffset⟩ := h c xs ys offset
    rw [heq]
    exact .mk (hoperands ▸ hxs) (harguments ▸ hys) (hoffset ▸ ho)

/-! ## Complaints about types -/

/-- Two actions fail with a complaint about a type, or because they cannot name a type. -/
def Fails (x : Compile α) (y : Compile β) : Prop :=
  ∀ c c', c.Resembles c' → ∃ r r', x.runFrom c = (.error r, c) ∧ y.runFrom c' = (.error r', c') ∧
    r.Rewords r' ∧ (r'.complaint? = some .type ∨ r' = .unnamedType)

theorem Fails.mirrors {x : Compile α} {y : Compile β} (h : Fails x y) : Mirrors V x y := by
  intro c c' hc
  obtain ⟨r, r', hx, hy, hr, -⟩ := h c c' hc
  rw [hx, hy]
  exact .error hr hc

theorem fails_throw (h : r.complaint? = some .type) :
    Fails (throw r : Compile α) (throw r : Compile β) :=
  fun _ _ _ => ⟨r, r, rfl, rfl, .inl rfl, .inl h⟩

theorem fails_throw_bind {f : α → Compile γ} {g : β → Compile δ} (h : r.complaint? = some .type) :
    Fails (throw r >>= f) (throw r >>= g) :=
  fun _ _ _ => ⟨r, r, rfl, rfl, .inl rfl, .inl h⟩

/-- Where a type without a name would have to be named, the other action may go on to its own
complaint. -/
theorem fails_named {k l : Kind} {f : String → Compile α} {g : String → Compile β}
    (hk : k.Resembles l) (h : ∀ n, Fails (f n) (g n)) : Fails (named k >>= f) (named l >>= g) := by
  intro c c' hc
  unfold named
  cases hname : k.name? with
  | some n =>
    rw [hk.name n hname]
    exact h n c c' hc
  | none =>
    cases l.name? with
    | none => exact ⟨.unnamedType, .unnamedType, rfl, rfl, .inl rfl, .inr rfl⟩
    | some n =>
      obtain ⟨-, r', -, hg, -, hr'⟩ := h n c c' hc
      refine ⟨.unnamedType, r', rfl, hg, ?_, hr'⟩
      exact hr'.symm.imp id fun htype => ⟨rfl, htype⟩

/-! ## Actions that use no operands -/

theorem emit_mirrors (q : Quad) : Mirrors Eq (emit q) (emit q) :=
  mirrors_ite (mirrors_change fun _ _ _ _ => ⟨rfl, rfl, rfl, rfl⟩) (mirrors_throw _)

theorem here_mirrors : Mirrors Eq here here :=
  mirrors_read (fun _ => mirrors_pure rfl) fun _ _ _ _ => rfl

theorem complete_mirrors (i : Nat) (fs : List Field) : Mirrors Eq (complete i fs) (complete i fs) :=
  mirrors_read (fun _ => mirrors_ite
    (mirrors_ite (mirrors_change fun _ _ _ _ => ⟨rfl, rfl, rfl, rfl⟩) (mirrors_throw _))
      (mirrors_throw _))
    fun _ _ _ _ => rfl

theorem allocate_mirrors (s : Sector) (k : Kind) (n : Int) :
    Mirrors Eq (allocate s k n) (allocate s k n) := by
  unfold allocate
  cases k.ty? with
  | none => exact mirrors_throw _
  | some t =>
    refine mirrors_read (fun _ => ?_) fun _ _ _ _ => rfl
    exact .andThen (mirrors_change fun _ _ _ _ => ⟨rfl, rfl, rfl, rfl⟩) fun _ => mirrors_pure rfl

theorem named_mirrors (k : Kind) : Mirrors Eq (named k) (named k) := by
  unfold named
  cases k.name? with
  | none => exact mirrors_throw _
  | some n => exact mirrors_pure rfl

theorem beginCall_mirrors (f : Scope) : Mirrors Eq (beginCall f line) (beginCall f line) :=
  mirrors_read (fun _ => mirrors_unless (mirrors_change fun _ _ _ _ => ⟨rfl, rfl, rfl, rfl⟩))
    fun _ _ _ _ => rfl

theorem popCalled_mirrors : Mirrors Eq popCalled popCalled := by
  refine mirrors_read (fun c => ?_) fun _ _ _ _ => rfl
  cases c.called with
  | nil => exact mirrors_throw _
  | cons f rest =>
    exact .andThen (mirrors_change fun _ _ _ _ => ⟨rfl, rfl, rfl, rfl⟩) fun _ => mirrors_pure rfl

theorem completeSelfCalls_mirrors (place : Field) (ps : List (Nat × Int)) :
    Mirrors Eq (completeSelfCalls place ps) (completeSelfCalls place ps) := by
  induction ps with
  | nil => exact mirrors_pure rfl
  | cons p ps ih => exact (complete_mirrors _ _).andThen fun _ => ih

theorem declare_mirrors (d : Declaration) (isGlobal : Bool) :
    Mirrors Eq (declare d isGlobal line) (declare d isGlobal line) := by
  have hadd : ∀ v, Mirrors Eq (addVariable v) (addVariable v) :=
    fun v => mirrors_change fun _ _ _ _ => ⟨rfl, rfl, rfl, rfl⟩
  refine mirrors_read (fun c => ?_) fun _ _ _ _ => rfl
  dsimp only
  cases d.extent with
  | none => exact mirrors_unless ((allocate_mirrors _ _ _).andThen fun _ => hadd _)
  | some e =>
    refine mirrors_unless (mirrors_ite ?_ ((allocate_mirrors _ _ _).andThen fun _ => hadd _))
    exact (named_mirrors _).andThen fun _ => (mirrors_throw (V := Eq) _).andThen fun _ =>
      (allocate_mirrors _ _ _).andThen fun _ => hadd _

theorem declareParameters_mirrors (isGlobal : Bool) (ds : List Declaration) :
    Mirrors Eq (declareParameters isGlobal line ds) (declareParameters isGlobal line ds) := by
  induction ds with
  | nil => exact mirrors_pure rfl
  | cons d ds ih =>
    exact .andThen (mirrors_change fun _ _ _ _ => ⟨rfl, rfl, rfl, rfl⟩) fun _ =>
      (declare_mirrors _ _).andThen fun _ =>
      .andThen (mirrors_change fun _ _ _ _ => ⟨rfl, rfl, rfl, rfl⟩) fun _ => ih

theorem declareAll_mirrors (isGlobal : Bool) (ds : List Declaration) :
    Mirrors Eq (declareAll isGlobal line ds) (declareAll isGlobal line ds) := by
  induction ds with
  | nil => exact mirrors_pure rfl
  | cons d ds ih => exact (declare_mirrors _ _).andThen fun _ => ih

theorem declareVariables_mirrors (params vars : List Declaration) (isGlobal : Bool) :
    Mirrors Eq (declareVariables params vars isGlobal line)
      (declareVariables params vars isGlobal line) :=
  .andThen (mirrors_change fun _ _ _ _ => ⟨rfl, rfl, rfl, rfl⟩) fun _ =>
    (declareParameters_mirrors _ _).andThen
    fun _ => declareAll_mirrors _ _

theorem defineFunction_mirrors (result : Option Kind) (f : Scope) :
    Mirrors Eq (defineFunction result f line) (defineFunction result f line) :=
  mirrors_read (fun _ => mirrors_unless (mirrors_change fun _ _ _ _ => ⟨rfl, rfl, rfl, rfl⟩))
    fun _ _ _ _ => rfl

theorem endFunction_mirrors : Mirrors Eq (endFunction line) (endFunction line) := by
  refine mirrors_read (fun c => ?_) fun _ _ _ _ => rfl
  have hclose : Mirrors Eq _ _ :=
    (mirrors_change
      (f := fun c => { c.updateCurrent (fun f => { f with declared := [] }) with scope := none })
      fun _ _ _ _ => ⟨rfl, rfl, rfl, rfl⟩).andThen fun _ =>
        emit_mirrors [.word "ENDPROC", .word c.current.name.text]
  dsimp only
  cases c.current.result with
  | none => exact hclose
  | some k =>
    cases c.current.returnPlace with
    | none => exact (named_mirrors k).andThen fun _ => mirrors_throw _
    | some place => exact hclose

theorem lookup_mirrors (name : String) : Mirrors Eq (lookup name line) (lookup name line) := by
  refine mirrors_read (fun c => ?_) fun _ _ _ _ => rfl
  cases c.denoted? name with
  | none => exact mirrors_throw _
  | some v => exact mirrors_pure rfl

theorem element_mirrors (base : Int) (elements : Kind × Int) (index : Field) :
    Mirrors Operand.Resembles (element base elements index) (element base elements index) :=
  (emit_mirrors _).andThen fun _ => (allocate_mirrors _ _ _).andThen fun _ =>
    (emit_mirrors _).andThen fun _ => mirrors_pure (.refl _)

theorem popJump_mirrors : Mirrors Eq popJump popJump := by
  refine mirrors_read (fun c => ?_) fun _ _ _ _ => rfl
  cases c.jumps with
  | nil => exact mirrors_throw _
  | cons i rest =>
    exact .andThen (mirrors_change fun _ _ _ _ => ⟨rfl, rfl, rfl, rfl⟩) fun _ => mirrors_pure rfl

theorem pushJump_mirrors (i : Nat) : Mirrors Eq (pushJump i) (pushJump i) :=
  mirrors_change fun _ _ _ _ => ⟨rfl, rfl, rfl, rfl⟩

theorem landHere_mirrors (i : Nat) : Mirrors Eq (landHere i) (landHere i) :=
  here_mirrors.andThen fun _ => complete_mirrors _ _

theorem landAll_mirrors (is : List Nat) : Mirrors Eq (landAll is) (landAll is) := by
  induction is with
  | nil => exact mirrors_pure rfl
  | cons i is ih => exact (landHere_mirrors i).andThen fun _ => ih

theorem elseBranch_mirrors : Mirrors Eq elseBranch elseBranch :=
  popJump_mirrors.andThen fun _ => here_mirrors.andThen fun _ =>
    (pushJump_mirrors _).andThen fun _ => (emit_mirrors _).andThen fun _ => landHere_mirrors _

theorem closeLoop_mirrors : Mirrors Eq closeLoop closeLoop := by
  refine popJump_mirrors.andThen fun _ => popJump_mirrors.andThen fun _ =>
    (emit_mirrors _).andThen fun _ =>
    (landHere_mirrors _).andThen fun _ => mirrors_read (fun _ => ?_) fun _ _ _ _ => rfl
  exact (landAll_mirrors _).andThen fun _ => mirrors_change fun _ _ _ _ => ⟨rfl, rfl, rfl, rfl⟩

theorem breakLoop_mirrors : Mirrors Eq (breakLoop line) (breakLoop line) := by
  refine mirrors_read (fun _ => mirrors_unless (here_mirrors.andThen fun _ => ?_)) fun _ _ _ _ =>
    rfl
  exact .andThen (mirrors_change fun _ _ _ _ => ⟨rfl, rfl, rfl, rfl⟩) fun _ => emit_mirrors _

/-! ## Actions on operands -/

variable {x y : Operand}

theorem push_mirrors (h : x.Resembles y) : Mirrors Eq (push x) (push y) := by
  refine mirrors_modify fun c c' hc => ?_
  cases hc with
  | mk hxs hys ho => exact .mk (c := c.push x) (.cons h hxs) hys ho

theorem setOperands_mirrors {xs ys : List Operand} (h : List.Forall₂ Operand.Resembles xs ys) :
    Mirrors Eq (modify fun c => { c with operands := xs } : Compile Unit)
      (modify fun c => { c with operands := ys } : Compile Unit) := by
  refine mirrors_modify fun c c' hc => ?_
  cases hc with
  | mk _ hys ho => exact .mk (c := { c with operands := xs }) h hys ho

theorem setArguments_mirrors {f g : List Operand → List Operand}
    (h : ∀ xs ys, List.Forall₂ Operand.Resembles xs ys →
      List.Forall₂ Operand.Resembles (f xs) (g ys)) :
    Mirrors Eq (modify fun c => { c with arguments := f c.arguments } : Compile Unit)
      (modify fun c => { c with arguments := g c.arguments } : Compile Unit) := by
  refine mirrors_modify fun c c' hc => ?_
  cases hc with
  | mk hxs hys ho => exact .mk (c := { c with arguments := f c.arguments }) hxs (h _ _ hys) ho

theorem setOffset_mirrors {o o' : Option Operand} (h : Option.Rel Operand.Resembles o o') :
    Mirrors Eq (modify fun c => { c with offset := o } : Compile Unit)
      (modify fun c => { c with offset := o' } : Compile Unit) := by
  refine mirrors_modify fun c c' hc => ?_
  cases hc with
  | mk hxs hys _ => exact .mk (c := { c with offset := o }) hxs hys h

theorem pop_mirrors : Mirrors Operand.Resembles (pop line) (pop line) := by
  refine mirrors_get fun c xs ys offset hxs _ _ => ?_
  dsimp only [Compiler.withOperands]
  generalize c.operands = os at hxs ⊢
  cases hxs with
  | nil => exact mirrors_throw _
  | cons hx hrest => exact (setOperands_mirrors hrest).andThen fun _ => mirrors_pure hx

theorem pushConstant_mirrors (k : Kind) (v : Value) :
    Mirrors Eq (pushConstant k v) (pushConstant k v) := by
  unfold pushConstant
  cases k.ty? with
  | none => exact mirrors_throw _
  | some t =>
    refine mirrors_read (fun c => ?_) fun _ _ _ _ => rfl
    dsimp only
    cases (c.constants.get t).find? (·.1.equal v) with
    | none =>
      exact (allocate_mirrors _ _ _).andThen fun _ =>
        .andThen (mirrors_change fun _ _ _ _ => ⟨rfl, rfl, rfl, rfl⟩) fun _ =>
          push_mirrors (.refl _)
    | some e => exact push_mirrors (.refl _)

/-! ### Operators -/

theorem binary_mirrors {l l' r r' : Operand} (o : String) (hl : l.Resembles l')
    (hr : r.Resembles r') :
    Mirrors Operand.Resembles (binary o l r line) (binary o l' r' line) := by
  have hresult : Mirrors Eq (binaryResult o l.kind r.kind) (binaryResult o l'.kind r'.kind) := by
    unfold binaryResult
    rw [hl.kind.row?, hr.kind.row?]
    cases l.kind.row? with
    | none => exact mirrors_pure rfl
    | some t =>
      cases r.kind.row? with
      | none => exact mirrors_pure rfl
      | some u =>
        cases BinOp.ofSymbol? o with
        | none => exact mirrors_throw _
        | some o => exact mirrors_pure rfl
  refine hresult.andThen fun t => ?_
  cases t with
  | none =>
    exact (fails_named hl.kind fun _ => fails_named hr.kind fun _ => fails_throw rfl).mirrors
  | some t =>
    refine (allocate_mirrors _ _ _).andThen fun a => ?_
    rw [hl.place, hr.place]
    exact (emit_mirrors _).andThen fun _ => mirrors_pure (.refl _)

theorem operateRight_mirrors (o : String) :
    Mirrors Eq (operateRight o line) (operateRight o line) :=
  pop_mirrors.bind fun _ _ hr => pop_mirrors.bind fun _ _ hl =>
    (binary_mirrors o hl hr).bind fun _ _ hx => push_mirrors hx

/-- Pairs whose first components resemble each other. -/
theorem forall₂_zip {xs ys : List Operand} (h : List.Forall₂ Operand.Resembles xs ys)
    (ps : List α) :
    List.Forall₂ (fun p q => p.1.Resembles q.1 ∧ p.2 = q.2) (xs.zip ps) (ys.zip ps) := by
  induction h generalizing ps with
  | nil => exact .nil
  | cons hx _ ih =>
    cases ps with
    | nil => exact .nil
    | cons p ps => exact .cons ⟨hx, rfl⟩ (ih ps)

theorem foldLeft_mirrors {l l' : Operand} (hl : l.Resembles l') {ps qs : List (Operand × String)}
    (h : List.Forall₂ (fun p q => p.1.Resembles q.1 ∧ p.2 = q.2) ps qs) :
    Mirrors Operand.Resembles (foldLeft line l ps) (foldLeft line l' qs) := by
  induction h generalizing l l' with
  | nil => exact mirrors_pure hl
  | @cons p q _ _ hp _ ih =>
    obtain ⟨x, o⟩ := p
    obtain ⟨y, o'⟩ := q
    obtain ⟨hx, rfl⟩ := hp
    exact (binary_mirrors o hl hx).bind fun _ _ hm => ih hm

theorem operateLeft_mirrors (o : String) :
    Mirrors Eq (operateLeft o line) (operateLeft o line) := by
  refine .andThen (mirrors_change fun _ _ _ _ => ⟨rfl, rfl, rfl, rfl⟩) fun _ => ?_
  refine mirrors_get fun c xs ys offset hxs _ _ => ?_
  have hdrop := List.forall₂_drop c.chained.length hxs
  have htake := List.rel_reverse (List.forall₂_take c.chained.length hxs)
  dsimp only [withOperands]
  generalize c.operands.drop c.chained.length = os at hdrop ⊢
  generalize xs.drop c.chained.length = os' at hdrop ⊢
  cases hdrop with
  | nil => exact mirrors_throw _
  | cons hfirst hbelow =>
    refine (foldLeft_mirrors hfirst (forall₂_zip htake _)).bind fun _ _ hresult =>
      mirrors_modify fun c c' hc => ?_
    cases hc with
    | mk _ hys ho =>
      exact .mk (c := { c with chained := [], operands := _ :: _ }) (.cons hresult hbelow) hys ho

/-- The one place where the two compilers differ. -/
theorem operateUnary_mirrors (o : String) :
    Mirrors Eq (operateUnary o line) (operateUnaryTyped o line) := by
  refine pop_mirrors.bind fun x y hx => ?_
  have hresult : Mirrors Eq (unaryResult o x.kind) (unaryResult o y.kind) := by
    unfold unaryResult
    rw [hx.kind.row?]
    cases x.kind.row? with
    | none => exact mirrors_pure rfl
    | some t =>
      cases UnOp.ofSymbol? o with
      | none => exact mirrors_throw _
      | some o => exact mirrors_pure rfl
  refine hresult.andThen fun r => ?_
  cases r with
  | none => exact (fails_named hx.kind fun _ => fails_throw rfl).mirrors
  | some r =>
    obtain ⟨o, t⟩ := r
    have hpush : ∀ place, Mirrors Eq (emit [.word o.mnemonic, x.place, place] >>= fun _ =>
        push ⟨.bare t.code, place⟩)
        (emit [.word o.mnemonic, y.place, place] >>= fun _ => push ⟨.value t, place⟩) := by
      intro place
      rw [hx.place]
      exact (emit_mirrors _).andThen fun _ => push_mirrors ⟨.bare t, rfl⟩
    have haddress : Mirrors Eq (temporalAddress (.bare t.code)) (temporalAddress (.value t)) := by
      have hcode : allocate .temporals (.bare t.code) 1 = allocate .temporals (.value t) 1 := by
        unfold allocate
        rw [Kind.ty?_value, Kind.ty?_bare t]
      rw [temporalAddress, temporalAddress, hcode]
      exact allocate_mirrors _ _ _
    dsimp only
    split
    · exact (mirrors_pure (V := Eq) hx.place.symm).andThen hpush
    · exact (haddress.map _).andThen hpush

/-! ### Calls -/

theorem readArgument_mirrors : Mirrors Eq (readArgument line) (readArgument line) :=
  pop_mirrors.bind fun _ _ hx => setArguments_mirrors fun _ _ h => .cons hx h

theorem clearArguments_mirrors :
    Mirrors Eq (modify fun c => { c with arguments := [] } : Compile Unit)
    (modify fun c => { c with arguments := [] } : Compile Unit) :=
  setArguments_mirrors (f := fun _ => []) (g := fun _ => []) fun _ _ _ => .nil

theorem checkCount_mirrors (f : Scope) (needed : Nat) :
    Mirrors Eq (checkCount f needed line) (checkCount f needed line) := by
  refine mirrors_get fun c xs ys offset _ hys _ => ?_
  dsimp only [withOperands]
  rw [hys.length_eq]
  exact mirrors_ite (mirrors_throw _) (mirrors_pure rfl)

theorem passArguments_mirrors (f : Scope) (i : Nat) {ps qs : List (Operand × Kind)}
    (h : List.Forall₂ (fun p q => p.1.Resembles q.1 ∧ p.2 = q.2) ps qs) :
    Mirrors Eq (passArguments f line i ps) (passArguments f line i qs) := by
  induction h generalizing i with
  | nil => exact mirrors_pure rfl
  | @cons p q _ _ hp _ ih =>
    obtain ⟨x, k⟩ := p
    obtain ⟨y, l⟩ := q
    obtain ⟨hx, rfl⟩ : x.Resembles y ∧ k = l := hp
    unfold passArguments
    dsimp only
    rw [hx.kind.agrees (.refl k), hx.place]
    refine mirrors_ite ?_ ((emit_mirrors _).andThen fun _ => ih (i + 1))
    exact (fails_named hx.kind fun _ => fails_named (.refl k) fun _ => fails_throw_bind rfl).mirrors

theorem passSpecial_mirrors (f : Scope) (i : Nat) {ps qs : List (Operand × List Ty)}
    (h : List.Forall₂ (fun p q => p.1.Resembles q.1 ∧ p.2 = q.2) ps qs) :
    Mirrors Eq (passSpecial f line i ps) (passSpecial f line i qs) := by
  induction h generalizing i with
  | nil => exact mirrors_pure rfl
  | @cons p q _ _ hp _ ih =>
    obtain ⟨x, ts⟩ := p
    obtain ⟨y, us⟩ := q
    obtain ⟨hx, rfl⟩ : x.Resembles y ∧ ts = us := hp
    have hagrees : (fun t : Ty => y.kind.agrees (.value t)) = fun t => x.kind.agrees (.value t) :=
      funext fun t => hx.kind.agrees (.refl _)
    unfold passSpecial
    dsimp only
    rw [hagrees, hx.place]
    refine mirrors_ite ?_ ((emit_mirrors _).andThen fun _ => ih (i + 1))
    exact (fails_named hx.kind fun _ => fails_throw_bind rfl).mirrors

theorem endCall_mirrors : Mirrors Eq (endCall line) (endCall line) := by
  refine popCalled_mirrors.andThen fun name => mirrors_read (fun c => ?_) fun _ _ _ _ => rfl
  cases c.function? name with
  | none => exact mirrors_throw _
  | some f =>
    refine (checkCount_mirrors _ _).andThen fun _ => mirrors_get fun c xs ys offset _ hys _ => ?_
    refine (passArguments_mirrors _ _ (forall₂_zip hys _)).andThen fun _ =>
      (emit_mirrors _).andThen fun _ => clearArguments_mirrors.andThen fun _ => ?_
    cases f.result with
    | none => exact mirrors_pure rfl
    | some k =>
      refine mirrors_read (fun _ => ?_) fun _ _ _ _ => rfl
      refine (allocate_mirrors _ _ _).andThen fun _ => (push_mirrors (.refl _)).andThen fun _ => ?_
      cases f.returnPlace with
      | none =>
        exact .andThen (mirrors_change fun _ _ _ _ => ⟨rfl, rfl, rfl, rfl⟩) fun _ => emit_mirrors _
      | some place => exact emit_mirrors _

theorem endSpecial_mirrors : Mirrors Eq (endSpecial line) (endSpecial line) := by
  refine popCalled_mirrors.andThen fun name => ?_
  cases name.bind Special.signature? with
  | none => exact mirrors_throw _
  | some s =>
    refine (checkCount_mirrors _ _).andThen fun _ => mirrors_get fun c xs ys offset _ hys _ => ?_
    refine (passSpecial_mirrors _ _ (forall₂_zip hys _)).andThen fun _ => ?_
    cases s.result with
    | none => exact (emit_mirrors _).andThen fun _ => clearArguments_mirrors
    | some t =>
      exact (allocate_mirrors _ _ _).andThen fun _ => (emit_mirrors _).andThen fun _ =>
        (push_mirrors (.refl _)).andThen fun _ => clearArguments_mirrors

theorem giveBack_mirrors : Mirrors Eq (giveBack line) (giveBack line) := by
  refine mirrors_read (fun c =>
    mirrors_unless (mirrors_read (fun _ => mirrors_unless ?_) fun _ _ _ _ => rfl))
    fun _ _ _ _ => rfl
  refine pop_mirrors.bind fun x y hx => ?_
  cases c.current.result with
  | none => exact mirrors_throw _
  | some k =>
    dsimp only
    rw [hx.kind.agrees (.refl k), hx.place]
    refine mirrors_ite ?_ ?_
    · exact (fails_named (.refl k) fun _ => fails_named hx.kind fun _ =>
        fails_throw_bind rfl).mirrors
    · refine .andThen (mirrors_change fun _ _ _ _ => ⟨rfl, rfl, rfl, rfl⟩) fun _ => ?_
      exact mirrors_read (fun _ => completeSelfCalls_mirrors _ _) fun _ _ _ _ => rfl

/-! ### Arrays, assignments and conditions -/

/-- The element of a variable, if it is an array. -/
theorem elements_mirrors (v : Variable) (name : String) (index : Field) :
    Mirrors Operand.Resembles (match v.elements with
      | none => throw (.notArray line name)
      | some elements => element v.address elements index)
    (match v.elements with
      | none => throw (.notArray line name)
      | some elements => element v.address elements index) := by
  cases v.elements with
  | none => exact mirrors_throw _
  | some e => exact element_mirrors _ _ _

theorem access_mirrors (name : String) :
    Mirrors Operand.Resembles (access name line) (access name line) := by
  refine pop_mirrors.bind fun x y hx => ?_
  rw [hx.kind.agrees (.refl _), hx.place]
  refine mirrors_ite ?_ ((lookup_mirrors name).andThen fun v => elements_mirrors v _ _)
  exact (fails_named hx.kind fun _ => fails_throw_bind rfl).mirrors

theorem target_mirrors (v : Variable) (name : String) :
    Mirrors Operand.Resembles (target v name line) (target v name line) := by
  refine mirrors_get fun c xs ys offset _ _ ho => ?_
  dsimp only [Compiler.withOperands]
  generalize c.offset = o at ho ⊢
  cases ho with
  | none => exact mirrors_unless (mirrors_pure (.refl _))
  | some hx =>
    refine (setOffset_mirrors .none).andThen fun _ => ?_
    rw [hx.kind.agrees (.refl _), hx.place]
    refine mirrors_ite ?_ (elements_mirrors v _ _)
    exact (fails_named hx.kind fun _ => fails_throw_bind rfl).mirrors

theorem assign_mirrors (name : String) : Mirrors Eq (assign name line) (assign name line) := by
  refine (lookup_mirrors name).andThen fun v => (target_mirrors v name).bind fun l l' hl =>
    pop_mirrors.bind fun r r' hr => ?_
  rw [hl.kind.agrees hr.kind, hl.place, hr.place]
  refine mirrors_ite (emit_mirrors _) ?_
  exact (fails_named hr.kind fun _ => fails_named hl.kind fun _ => fails_throw rfl).mirrors

theorem testCondition_mirrors (statement : String) :
    Mirrors Eq (testCondition statement line) (testCondition statement line) := by
  refine pop_mirrors.bind fun x y hx => ?_
  rw [hx.kind.agrees (.refl _), hx.place]
  refine mirrors_ite ?_ (fails_named hx.kind fun _ => fails_throw rfl).mirrors
  exact here_mirrors.andThen fun _ => (pushJump_mirrors _).andThen fun _ => emit_mirrors _

/-! ## Events and sources -/

/-- Every event is performed alike. -/
theorem perform_mirrors (s : Step) : Mirrors Eq (perform s) (performTyped s) := by
  obtain ⟨e, line⟩ := s
  cases e with
  | declareGlobals => exact (emit_mirrors _).andThen fun _ => declareVariables_mirrors _ _ _
  | enterMain => exact landHere_mirrors _
  | finish | chain | beginSpecial | leaveLoop =>
    exact mirrors_change fun _ _ _ _ => ⟨rfl, rfl, rfl, rfl⟩
  | defineFunction => exact defineFunction_mirrors _ _
  | declareLocals => exact declareVariables_mirrors _ _ _
  | endFunction => exact endFunction_mirrors
  | constant => exact pushConstant_mirrors _ _
  | dropSize => exact pop_mirrors.bind fun _ _ _ => mirrors_pure rfl
  | useVariable => exact (lookup_mirrors _).andThen fun _ => push_mirrors (.refl _)
  | useElement => exact (access_mirrors _).bind fun _ _ hx => push_mirrors hx
  | selectElement => exact pop_mirrors.bind fun _ _ hx => setOffset_mirrors (.some hx)
  | assign => exact assign_mirrors _
  | power => exact operateRight_mirrors _
  | fold => exact operateLeft_mirrors _
  | unary => exact operateUnary_mirrors _
  | breakLoop => exact breakLoop_mirrors
  | giveBack => exact giveBack_mirrors
  | beginCall => exact beginCall_mirrors _
  | endCall => exact endCall_mirrors
  | endSpecial => exact endSpecial_mirrors
  | argument => exact readArgument_mirrors
  | testIf => exact testCondition_mirrors _
  | closeIf => exact popJump_mirrors.andThen fun _ => landHere_mirrors _
  | elseBranch => exact elseBranch_mirrors
  | markLoop => exact here_mirrors.andThen fun _ => pushJump_mirrors _
  | testLoop =>
    exact (testCondition_mirrors _).andThen fun _ => mirrors_change fun _ _ _ _ =>
      ⟨rfl, rfl, rfl, rfl⟩
  | closeLoop => exact closeLoop_mirrors

end Compile

namespace Compiled

open Compiler

/-- What two compilers make of the same steps. -/
structure Mirrored (x y : Nat × Compiled) : Prop where
  count : y.1 = x.1
  state : x.2.state.Resembles y.2.state
  rejection : Option.Rel Rejection.Rewords x.2.rejection y.2.rejection
  line : y.2.line = x.2.line

/-- Steps that the compiler performs. -/
theorem ofStepsBy_perform (ending : Ending) (last : Nat) (steps : List Step) (c : Compiler) :
    (ofStepsBy Compile.perform ending last steps c).2 = ofSteps ending last steps c := by
  induction steps generalizing c with
  | nil => rfl
  | cons s steps ih =>
    rw [ofStepsBy, ofSteps]
    rcases (Compile.perform s).runFrom c with ⟨r | a, c'⟩
    · rfl
    · exact ih c'

theorem ofSourceBy_perform (line : Nat) (source : String) :
    (ofSourceBy Compile.perform line source).2 = ofSource line source :=
  ofStepsBy_perform _ _ _ _

theorem mirrored_ofStepsBy (ending : Ending) (last : Nat) (steps : List Step) {c c' : Compiler}
    (hc : c.Resembles c') :
    Mirrored (ofStepsBy Compile.perform ending last steps c)
      (ofStepsBy Compile.performTyped ending last steps c') := by
  induction steps generalizing c c' with
  | nil =>
    refine ⟨rfl, hc, ?_, rfl⟩
    show Option.Rel Rejection.Rewords ending.rejection? ending.rejection?
    cases ending.rejection? with
    | none => exact .none
    | some r => exact .some (.inl rfl)
  | cons s steps ih =>
    have hs := Compile.perform_mirrors s c c' hc
    rw [ofStepsBy, ofStepsBy]
    generalize (Compile.perform s).runFrom c = x at hs ⊢
    generalize (Compile.performTyped s).runFrom c' = y at hs ⊢
    cases hs with
    | ok _ hd =>
      obtain ⟨hcount, hstate, hrejection, hline⟩ := ih hd
      exact ⟨congrArg (· + 1) hcount, hstate, hrejection, hline⟩
    | error hr hd => exact ⟨rfl, hd, .some hr, rfl⟩

/-- Two ways to compile the same steps: as many steps are performed, both are accepted or both
rejected on the same line, and the code, the constants, the functions and the counters are the same.
The cause of a rejection is the same, or it is a complaint about a type where the first way cannot
name a type. -/
structure CompilesAlike (x y : Nat × Compiled) : Prop where
  count : y.1 = x.1
  accepts : x.2.rejection = none ↔ y.2.rejection = none
  quads : y.2.state.quads = x.2.state.quads
  constants : y.2.state.constants = x.2.state.constants
  functions : y.2.state.functions = x.2.state.functions
  counters : y.2.state.counters = x.2.state.counters
  rejects : ∀ r, x.2.rejection = some r → ∃ r', y.2.rejection = some r' ∧
    (r' = r ∨ r = .unnamedType ∧ r'.complaint? = some .type)
  line : y.2.line = x.2.line

theorem Mirrored.compilesAlike {x y : Nat × Compiled} (h : Mirrored x y) : CompilesAlike x y := by
  obtain ⟨n, c, r, line⟩ := x
  obtain ⟨m, c', r', line'⟩ := y
  have hstate : c.Resembles c' := h.state
  have hrejection : Option.Rel Rejection.Rewords r r' := h.rejection
  have hrejects : (r = none ↔ r' = none) ∧ ∀ q, r = some q → ∃ q', r' = some q' ∧ q.Rewords q' := by
    cases hrejection with
    | none => simp
    | @some q q' hq =>
      refine ⟨by simp, ?_⟩
      rintro _ ⟨⟩
      exact ⟨q', rfl, hq⟩
  cases hstate with
  | mk => exact ⟨h.count, hrejects.1, rfl, rfl, rfl, rfl, hrejects.2, h.line⟩

/-- With and without types for the results of unary operators, every source is compiled alike. -/
theorem typed_alike (line : Nat) (source : String) :
    (ofSourceBy Compile.perform line source).2 = ofSource line source ∧
      CompilesAlike (ofSourceBy Compile.perform line source)
        (ofSourceBy Compile.performTyped line source) := by
  have hempty : ({} : Compiler).Resembles {} := .mk (c := {}) .nil .nil .none
  exact ⟨ofSourceBy_perform line source, (mirrored_ofStepsBy _ _ _ hempty).compilesAlike⟩

-- The type of a negation cannot be named, but it is the wrong one.
example :
    (ofSourceBy Compile.perform 1 "program p; int b; b = not true;").2.rejection =
      some .unnamedType ∧
      (ofSourceBy Compile.performTyped 1 "program p; int b; b = not true;").2.rejection =
        some (.assignTypes 1 "BOOL" "INT") := by
  decide +kernel

end Compiled

end Symphony
