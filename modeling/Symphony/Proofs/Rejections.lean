import Symphony.Proofs.Beginnings
import Symphony.Proofs.Chains
import Symphony.Proofs.Provenance
import Symphony.Proofs.Readiness

/-!
# Why sources are rejected

A rejection is a complaint about the source (`Rejection.complaint?`), of one of eight kinds. Four
rejections are none: a type that has no name, an empty stack, a missing quad and a missing entry of
a table.

**Theorem (`Compiled.rejection_cases`).** A source is accepted, or rejected with a complaint, except
for four things that can be written in a program: an operand that a unary operator has made, where
its type must be named; a branch after a last branch; a call of one of the two special functions
without a signature; and arrays so large that the addresses after them have too many digits, where
such an address must be written.

Each action of the compiler is followed to where it can fail (`Attempt.FailsOnly`), from a state
that is ready for its event.
-/

namespace Symphony

variable {name : String} {f : Scope} {isGlobal : Bool} {r : Rejection} {D E L N : Prop}
  {c c' : Compiler} {i : Nat} {ds : List Declaration} {o : BinOp} {rest : List Scope} {v : Variable}

/-! ## Failures of actions -/

namespace Attempt

variable {ε σ α β : Type} {P : ε → Prop} {x : Attempt ε σ α} {f : α → Attempt ε σ β} {s s' : σ}

/-- If an action fails, then for a reason of the given kind. -/
def FailsOnly (P : ε → Prop) (x : Attempt ε σ α) (s : σ) : Prop :=
  ∀ e s', x.runFrom s = (.error e, s') → P e

theorem failsOnly_of_ok {a : α} (h : x.runFrom s = (.ok a, s')) : FailsOnly P x s := by
  intro e s'' he
  rw [h] at he
  cases he

theorem failsOnly_throw {e : ε} (he : P e) : FailsOnly P (throw e : Attempt ε σ α) s := by
  intro e' s' h
  cases h
  exact he

theorem FailsOnly.bind (hx : FailsOnly P x s)
    (hf : ∀ a s', x.runFrom s = (.ok a, s') → FailsOnly P (f a) s') : FailsOnly P (x >>= f) s := by
  intro e s'' he
  rw [runFrom_bind] at he
  split at he
  case h_1 a s' ha => exact hf a s' ha e s'' he
  case h_2 e' s' hx' =>
    cases he
    exact hx e _ hx'

/-- A first action that does not fail. -/
theorem failsOnly_bind {a : α} (hx : x.runFrom s = (.ok a, s')) (hf : FailsOnly P (f a) s') :
    FailsOnly P (x >>= f) s := by
  refine .bind (failsOnly_of_ok hx) fun a' s'' ha => ?_
  rw [hx] at ha
  cases ha
  exact hf

/-- A first action that always fails. -/
theorem FailsOnly.bind_throw {e : ε} (he : P e) : FailsOnly P ((throw e : Attempt ε σ α) >>= f) s :=
  .bind (failsOnly_throw he) fun _ _ h => by cases h

theorem FailsOnly.map {g : α → β} (hx : FailsOnly P x s) : FailsOnly P (g <$> x) s := by
  rw [← bind_pure_comp]
  exact hx.bind fun _ _ _ => failsOnly_of_ok rfl

end Attempt

/-! ## Complaints -/

/-- What a source can be rejected for. -/
inductive Complaint
  | character
  | overlong
  | grammar
  | redeclaration
  | misplaced
  | arity
  | name
  | type
deriving DecidableEq, Repr

namespace Rejection

/-- Of which kind a rejection is. It is of none if the compiler has met with something it did not
expect. -/
def complaint? : Rejection → Option Complaint
  | illegal _ => some .character
  | overlongInteger => some .overlong
  | unexpected _ => some .grammar
  | functionTwice .. | variableTwice .. | arrayTwice .. => some .redeclaration
  | breakOutside _ | returnOutside _ | returnInVoid _ | returnTwice | returnMissing .. =>
    some .misplaced
  | argumentCount .. => some .arity
  | unknownVariable .. | unknownFunction .. => some .name
  | sizeType .. | noOperand _ | binaryTypes .. | unaryType .. | conditionType .. | wholeArray _
  | targetIndexType .. | indexType .. | notArray .. | assignTypes .. | argumentType ..
  | specialArgumentType ..
  | returnType .. => some .type
  | noEntry _ | unnamedType | emptyStack | noQuad => none

/-- A rejection that is a complaint. -/
def IsComplaint (r : Rejection) : Prop :=
  ∃ k, r.complaint? = some k

/-- A complaint that is not about an integer, or one of the failures that are possible without a
condition. So is a complaint about a second declaration, and one about an integer is possible under
a condition. -/
inductive Tolerated (N E D L : Prop) : Rejection → Prop
  | complaint {r : Rejection} {k : Complaint} : r.complaint? = some k → k ≠ .overlong →
      (k = .redeclaration → ¬D) → Tolerated N E D L r
  | unnamed : ¬N → Tolerated N E D L .unnamedType
  | empty : ¬E → Tolerated N E D L .emptyStack
  | long : L → Tolerated N E D L .overlongInteger

theorem Tolerated.of_eq {k : Complaint} (h : r.complaint? = some k)
    (hk : (k == .redeclaration || k == .overlong) = false) : Tolerated N E D L r := by
  refine .complaint h ?_ ?_ <;> rintro rfl <;> cases hk

theorem Tolerated.twice (h : r.complaint? = some .redeclaration) (hD : ¬D) : Tolerated N E D L r :=
  .complaint h (by decide) fun _ => hD

end Rejection

namespace Compiler

variable {d : Declaration}

/-- Names that are different and none of which is taken. -/
structure Untaken (c : Compiler) (ds : List Declaration) : Prop where
  nodup : (ds.map Declaration.name).Nodup
  free : ∀ d ∈ ds, c.current.find? d.name = none

theorem Untaken.head (h : c.Untaken (d :: ds)) : c.current.find? d.name = none :=
  h.free d List.mem_cons_self

theorem Untaken.update {change : Function → Function} (h : c.Untaken ds)
    (hname : ∀ f, (change f).name = f.name) (hdeclared : ∀ f, (change f).declared = f.declared) :
    (c.updateCurrent change).Untaken ds where
  nodup := h.nodup
  free d hd := by
    have hsame : (c.updateCurrent change).current.find? d.name = c.current.find? d.name :=
      field_of_update (·.find? d.name) rfl hname
        (fun f => by simp only [Function.find?, hdeclared]) rfl
    rw [hsame, h.free d hd]

/-- A declaration takes only its own name. -/
theorem Declares.find?_of_ne {x : String} (h : Declares isGlobal d c c') (hne : d.name ≠ x)
    (hx : c.current.find? x = none) : c'.current.find? x = none := by
  have hadd : ∀ (s : Sector) (t : Ty) (n : Int) (v : Variable), v.name = d.name →
      ((c.reserve s t n).addVariable v).current.find? x = none := by
    intro s t n v hv
    rcases @current_of_update c ((c.reserve s t n).addVariable v)
      (fun f => { f with declared := f.declared ++ [v] }) rfl (fun _ => rfl) rfl with hc | hc
    · rw [hc, Function.find?, List.find?_append, show c.current.declared.find? _ = none from hx]
      simp [hv, hne]
    · rw [hc, hx]
  cases h with
  | scalar => exact hadd _ _ _ _ rfl
  | array => exact hadd _ _ _ _ rfl

theorem Untaken.tail (h : c.Untaken (d :: ds)) (hd : Declares isGlobal d c c') : c'.Untaken ds where
  nodup := (List.nodup_cons.1 h.nodup).2
  free e he := by
    have hne : d.name ≠ e.name := fun heq =>
      (List.nodup_cons.1 h.nodup).1 (List.mem_map.2 ⟨e, he, heq.symm⟩)
    exact hd.find?_of_ne hne (h.free e (List.mem_cons_of_mem _ he))

/-- What a compiler can write next: the places of what it holds, free addresses, and numbers of
quads and arguments. -/
inductive Holds (c : Compiler) : Field → Prop
  | operand {o : Operand} : o ∈ c.operands → Holds c o.place
  | argument {o : Operand} : o ∈ c.arguments → Holds c o.place
  | offset {o : Operand} : c.offset = some o → Holds c o.place
  | address {f : Function} {v : Variable} : f ∈ c.functions → v ∈ f.declared →
      Holds c (.num v.address)
  | size {f : Function} {v : Variable} {k : Kind} {n : Int} :
      f ∈ c.functions → v ∈ f.declared → v.elements = some (k, n) → Holds c (.num n)
  | result {f : Function} {place : Field} : f ∈ c.functions → f.returnPlace = some place →
      Holds c place
  | selfCall {x : Nat × Int} : x ∈ c.selfCalls → Holds c (.num x.2)
  | next (s : Sector) (t : Ty) {k : Nat} : k ≤ c.chained.length → Holds c (.num (c.next s t + k))
  | number {k : Nat} : k ≤ c.quads.size + 1 ∨ k ≤ c.arguments.length → Holds c (.num k)

/-- What cannot be written is held under a condition only. -/
def Holding (L : Prop) (c : Compiler) : Prop :=
  ∀ x, c.Holds x → x.isWritable = false → L

theorem Holding.fresh (h : Holding L c) (s : Sector) (t : Ty) :
    (Field.num (c.next s t)).isWritable = false → L := by
  have hnext := h _ (.next s t (Nat.zero_le _))
  rwa [Nat.cast_zero, Int.add_zero] at hnext

theorem Holding.denoted (h : Holding L c) (hv : c.denoted? name = some v) :
    ((Field.num v.address).isWritable = false → L) ∧
      ∀ k n, v.elements = some (k, n) → (Field.num n).isWritable = false → L := by
  obtain ⟨s, f, hf, hmem⟩ := function_of_denoted? hv
  have hf := List.mem_of_find?_eq_some hf
  exact ⟨h _ (.address hf hmem), fun k n hel => h _ (.size hf hmem hel)⟩

/-- What an event declares can be declared. -/
def Declarable (c : Compiler) : Event → Prop
  | .declareGlobals vars => c.Untaken vars
  | .declareLocals params vars => c.Untaken (params ++ vars)
  | .defineFunction _ name => c.function? (some name) = none
  | _ => True

end Compiler

namespace Compile

open Attempt Compiler Rejection

variable {line : Nat}

/-! ## Primitives -/

theorem pop_fails : FailsOnly (Tolerated N E D L) (pop line) c := by
  refine failsOnly_bind (runFrom_get c) ?_
  split
  · exact failsOnly_throw (.of_eq rfl rfl)
  · exact failsOnly_of_ok rfl

theorem named_fails {k : Kind} (hk : N → k.IsNamed) :
    FailsOnly (Tolerated N E D L) (named k) c := by
  unfold named
  split
  case h_1 => exact failsOnly_of_ok rfl
  case h_2 hnone =>
    refine failsOnly_throw (.unnamed fun hN => ?_)
    have hsome := hk hN
    rw [Kind.IsNamed, hnone] at hsome
    cases hsome

theorem allocate_fails {P : Rejection → Prop} {s : Sector} {k : Kind} {n : Int} {t : Ty}
    (hk : k.ty? = some t) : FailsOnly P (allocate s k n) c := by
  unfold allocate
  rw [hk]
  exact failsOnly_of_ok rfl

/-- Words can be written. -/
theorem emit_fails {w : String} {fs : List Field} (hfs : ∀ x ∈ fs, x.isWritable = false → L) :
    FailsOnly (Tolerated N E D L) (emit (.word w :: fs)) c := by
  intro r c' hr
  rw [runFrom_emit] at hr
  split at hr
  case isTrue => cases hr
  case isFalse hall =>
    cases hr
    obtain ⟨x, hx, hlong⟩ : ∃ x ∈ fs, x.isWritable = false := by simpa [Field.isWritable] using hall
    exact .long (hfs x hx hlong)

theorem complete_fails {fs : List Field} (hi : i < c.quads.size)
    (hfs : ∀ x ∈ fs, x.isWritable = false → L) :
    FailsOnly (Tolerated N E D L) (complete i fs) c := by
  refine failsOnly_bind (runFrom_get c) ?_
  rw [if_pos hi]
  split
  case isTrue => exact failsOnly_of_ok rfl
  case isFalse hall =>
    obtain ⟨x, hx, hlong⟩ : ∃ x ∈ fs, x.isWritable = false := by simpa using hall
    exact failsOnly_throw (.long (hfs x hx hlong))

theorem landHere_fails (hi : i < c.quads.size)
    (hsize : (Field.num c.quads.size).isWritable = false → L) :
    FailsOnly (Tolerated N E D L) (landHere i) c :=
  failsOnly_bind rfl (complete_fails hi (List.forall_mem_singleton.2 hsize))

theorem pushConstant_fails {P : Rejection → Prop} {t : Ty} {v : Value} :
    FailsOnly P (pushConstant (.value t) v) c := by
  unfold pushConstant
  rw [Kind.ty?_value]
  refine failsOnly_bind (runFrom_get c) ?_
  dsimp only
  split
  · exact failsOnly_of_ok rfl
  · exact .bind (allocate_fails (Kind.ty?_value t)) fun _ _ _ => failsOnly_of_ok rfl

/-! ## Operators -/

/-- An operand has a type with a name, and can be written, each under its condition. -/
structure IsFit (N L : Prop) (o : Operand) : Prop where
  named : N → o.kind.IsNamed
  writable : o.place.isWritable = false → L

theorem binary_fails {l r : Operand} (hl : IsFit N L l) (hr : IsFit N L r)
    (hnext : ∀ t, (Field.num (c.next .temporals t)).isWritable = false → L) :
    FailsOnly (Tolerated N E D L) (binary o.symbol l r line) c := by
  refine failsOnly_bind (binaryResult_symbol o l.kind r.kind) ?_
  cases o.ty? l.kind r.kind with
  | some t =>
    refine .bind (allocate_fails (Kind.ty?_value t)) fun a _ ha =>
      .bind (emit_fails ?_) fun _ _ _ => failsOnly_of_ok rfl
    obtain ⟨u, -, rfl, -⟩ := allocate_ok ha
    simpa using ⟨hl.writable, hr.writable, hnext u⟩
  | none =>
    exact .bind (named_fails hl.named) fun _ _ _ => .bind (named_fails hr.named) fun _ _ _ =>
      failsOnly_throw (.of_eq rfl rfl)

/-- Each operator takes a free address at most. -/
theorem foldLeft_fails {l : Operand} {rest : List (Operand × String)} (hl : IsFit N L l)
    (hrest : ∀ p ∈ rest, IsFit N L p.1 ∧ ∃ o : BinOp, p.2 = o.symbol)
    (hnext : ∀ t, ∀ k < rest.length, (Field.num (c.next .temporals t + k)).isWritable = false → L) :
    FailsOnly (Tolerated N E D L) (foldLeft line l rest) c := by
  induction rest generalizing l c with
  | nil => exact failsOnly_of_ok rfl
  | cons p rest ih =>
    obtain ⟨⟨hp, o, ho⟩, hrest⟩ := List.forall_mem_cons.1 hrest
    unfold foldLeft
    rw [ho]
    have hfirst : ∀ t, (Field.num (c.next .temporals t)).isWritable = false → L := by
      simpa using fun t => hnext t 0 (Nat.succ_pos _)
    refine .bind (binary_fails hl hp hfirst) fun m _ hm => ?_
    -- the result of an operation has a type of its own
    cases binary_ok hm with
    | @mk _ _ _ t =>
      refine ih ⟨fun _ => rfl, hfirst _⟩ hrest fun u k hk => ?_
      change (Field.num (Compiler.next (c.reserve .temporals t 1) .temporals u + k)).isWritable =
        false → L
      rw [next_reserve]
      split_ifs
      · rw [Int.add_assoc, Int.add_comm 1]
        exact hnext u (k + 1) (Nat.succ_lt_succ hk)
      · rw [Int.add_zero]
        exact hnext u k (Nat.lt_succ_of_lt hk)

theorem isFit (h : Kinded N c) (hL : Holding L c) {o : Operand} (ho : o ∈ c.operands) :
    IsFit N L o :=
  ⟨fun hN => h.operands hN o ho, hL _ (.operand ho)⟩

theorem operateRight_fails (h : Kinded N c) (hL : Holding L c) :
    FailsOnly (Tolerated N E D L) (operateRight o.symbol line) c := by
  refine .bind pop_fails fun r _ hr => ?_
  obtain ⟨rest, hoperands, rfl⟩ := pop_ok hr
  refine .bind pop_fails fun l _ hl => ?_
  obtain ⟨rest', hoperands', rfl⟩ := pop_ok hl
  refine .bind ?_ fun _ _ _ => failsOnly_of_ok rfl
  obtain rfl : rest = l :: rest' := hoperands'
  exact binary_fails (isFit h hL (by simp [hoperands])) (isFit h hL (by simp [hoperands]))
    (hL.fresh .temporals)

theorem operateLeft_fails (h : Kinded N c) (hL : Holding L c) :
    FailsOnly (Tolerated N E D L) (operateLeft o.symbol line) c := by
  refine failsOnly_bind rfl (failsOnly_bind (runFrom_get _) ?_)
  dsimp only
  split
  case h_1 => exact failsOnly_throw (.of_eq rfl rfl)
  case h_2 first below hdrop =>
    have hfirst : first ∈ c.operands := List.mem_of_mem_drop (hdrop ▸ List.mem_cons_self)
    refine .bind (foldLeft_fails (isFit h hL hfirst) ?_ fun t k hk => ?_) fun _ _ _ =>
      failsOnly_of_ok rfl
    · rintro ⟨x, w⟩ hp
      obtain ⟨hx, hw⟩ := List.of_mem_zip hp
      refine ⟨isFit h hL (List.mem_of_mem_take (List.mem_reverse.1 hx)), ?_⟩
      exact List.forall_mem_cons.2 ⟨⟨o, rfl⟩, h.chained⟩ w hw
    · rw [List.length_zip, List.length_cons] at hk
      exact hL _ (.next .temporals t (by omega))

/-- The type of a unary operation is looked up without a change. -/
theorem unaryResult_symbol (o : UnOp) (k : Kind) :
    ∃ p?, (unaryResult o.symbol k).runFrom c = (.ok p?, c) := by
  unfold unaryResult
  split
  · exact ⟨_, rfl⟩
  · rw [UnOp.ofSymbol?_symbol]
    exact ⟨_, rfl⟩

theorem operateUnary_fails {o : UnOp} (h : Kinded N c) (hL : Holding L c) :
    FailsOnly (Tolerated N E D L) (operateUnary o.symbol line) c := by
  refine .bind pop_fails fun x _ hx => ?_
  obtain ⟨rest, hoperands, rfl⟩ := pop_ok hx
  obtain ⟨p?, hp⟩ := unaryResult_symbol (c := { c with operands := rest }) o x.kind
  refine failsOnly_bind hp ?_
  cases p? with
  | none =>
    exact .bind (named_fails (h.top hoperands)) fun _ _ _ => failsOnly_throw (.of_eq rfl rfl)
  | some p =>
    have hplace := hL x.place (.operand (by simp [hoperands]))
    dsimp only
    split
    · exact failsOnly_bind rfl (.bind (emit_fails (by simpa using hplace)) fun _ _ _ =>
        failsOnly_of_ok rfl)
    · refine .bind (.map (allocate_fails (Kind.ty?_bare p.2))) fun place _ ha =>
        .bind (emit_fails ?_) fun _ _ _ => failsOnly_of_ok rfl
      rw [runFrom_map] at ha
      split at ha
      case h_1 a c₁ hallocate =>
        cases ha
        obtain ⟨t, -, rfl, -⟩ := allocate_ok hallocate
        simpa using ⟨hplace, hL.fresh .temporals t⟩
      case h_2 => cases ha

/-! ## Declarations and names -/

theorem declare_fails {d : Declaration} (hd : d.IsUsual)
    (hnew : D → c.current.find? d.name = none) :
    FailsOnly (Tolerated N E D L) (declare d isGlobal line) c := by
  obtain ⟨⟨t, ht⟩, hsize⟩ := hd
  have hty : d.kind.ty? = some t := ht ▸ Kind.ty?_value t
  refine failsOnly_bind (runFrom_get c) ?_
  dsimp only
  split
  case h_1 =>
    split
    case isTrue htwice => exact .bind_throw (.twice rfl fun hD => by simp [hnew hD] at htwice)
    case isFalse => exact .bind (allocate_fails hty) fun _ _ _ => failsOnly_of_ok rfl
  case h_2 k n hextent =>
    split
    case isTrue htwice => exact .bind_throw (.twice rfl fun hD => by simp [hnew hD] at htwice)
    case isFalse =>
      split
      · exact .bind (named_fails fun _ => (hsize k n hextent).isNamed) fun _ _ _ =>
          .bind_throw (.of_eq rfl rfl)
      · exact .bind (allocate_fails hty) fun _ _ _ => failsOnly_of_ok rfl

theorem declareAll_fails (hds : ∀ d ∈ ds, d.IsUsual) (hnew : D → c.Untaken ds) :
    FailsOnly (Tolerated N E D L) (declareAll isGlobal line ds) c := by
  induction ds generalizing c with
  | nil => exact failsOnly_of_ok rfl
  | cons d ds ih =>
    obtain ⟨hd, hds⟩ := List.forall_mem_cons.1 hds
    exact .bind (declare_fails hd fun hD => (hnew hD).head) fun _ _ hok =>
      ih hds fun hD => (hnew hD).tail (declare_ok hok)

/-- The parameters come before the variables. -/
theorem declareParameters_fails {vars : List Declaration} (hds : ∀ d ∈ ds, d.IsUsual)
    (hvars : ∀ d ∈ vars, d.IsUsual) (hnew : D → c.Untaken (ds ++ vars)) :
    FailsOnly (Tolerated N E D L)
      (declareParameters isGlobal line ds >>= fun _ => declareAll isGlobal line vars) c := by
  induction ds generalizing c with
  | nil => exact failsOnly_bind rfl (declareAll_fails hvars hnew)
  | cons d ds ih =>
    obtain ⟨hd, hds⟩ := List.forall_mem_cons.1 hds
    have hkinds : D → (c.updateCurrent fun f =>
        { f with parameterKinds := d.kind :: f.parameterKinds }).Untaken
        (d :: (ds ++ vars)) := fun hD => (hnew hD).update (fun _ => rfl) fun _ => rfl
    simp only [declareParameters, bind_assoc]
    refine failsOnly_bind rfl (.bind (declare_fails hd fun hD =>
      (hkinds hD).head) fun _ _ hok => ?_)
    refine failsOnly_bind rfl (ih hds fun hD => ?_)
    exact ((hkinds hD).tail (declare_ok hok)).update (fun _ => rfl) fun _ => rfl

theorem declareVariables_fails {params vars : List Declaration} (hparams : ∀ d ∈ params, d.IsUsual)
    (hvars : ∀ d ∈ vars, d.IsUsual) (hnew : D → c.Untaken (params ++ vars)) :
    FailsOnly (Tolerated N E D L) (declareVariables params vars isGlobal line) c :=
  failsOnly_bind rfl (declareParameters_fails hparams hvars fun hD =>
    (hnew hD).update (fun _ => rfl) fun _ => rfl)

theorem defineFunction_fails {result : Option Kind} (hnew : D → c.function? f = none) :
    FailsOnly (Tolerated N E D L) (defineFunction result f line) c := by
  refine failsOnly_bind (runFrom_get c) ?_
  split
  case isTrue htwice => exact .bind_throw (.twice rfl fun hD => by simp [hnew hD] at htwice)
  case isFalse => exact failsOnly_of_ok rfl

theorem endFunction_fails (h : Kinded N c) :
    FailsOnly (Tolerated N E D L) (endFunction line) c := by
  refine failsOnly_bind (runFrom_get c) ?_
  dsimp only
  split
  case h_1 k hk _ =>
    exact .bind (named_fails fun _ => (h.current.result k hk).isNamed) fun _ _ _ =>
      failsOnly_throw (.of_eq rfl rfl)
  case h_2 => exact failsOnly_of_ok rfl

theorem lookup_fails : FailsOnly (Tolerated N E D L) (lookup name line) c := by
  refine failsOnly_bind (runFrom_get c) ?_
  split
  · exact failsOnly_of_ok rfl
  · exact failsOnly_throw (.of_eq rfl rfl)

theorem element_fails {base : Int} {elements : Kind × Int} {index : Field} (h : elements.1.IsValue)
    (hbase : (Field.num base).isWritable = false → L)
    (hsize : (Field.num elements.2).isWritable = false → L) (hindex : index.isWritable = false → L)
    (hnext : ∀ t, (Field.num (c.next .temporals t)).isWritable = false → L) :
    FailsOnly (Tolerated N E D L) (element base elements index) c := by
  obtain ⟨t, ht⟩ := h
  have hzero : (Field.num 0).isWritable = true := by decide +kernel
  refine .bind (emit_fails ?_) fun _ _ hver => ?_
  · simpa [hzero] using ⟨hindex, hsize⟩
  · obtain rfl := emit_ok hver
    refine .bind (allocate_fails (ht ▸ Kind.ty?_value t)) fun a _ ha =>
      .bind (emit_fails ?_) fun _ _ _ => failsOnly_of_ok rfl
    obtain ⟨u, -, rfl, -⟩ := allocate_ok ha
    simpa using ⟨hbase, hindex, hnext u⟩

theorem access_fails (h : Kinded N c) (hL : Holding L c) :
    FailsOnly (Tolerated N E D L) (access name line) c := by
  refine .bind pop_fails fun index _ hindex => ?_
  obtain ⟨rest, hoperands, rfl⟩ := pop_ok hindex
  dsimp only
  split
  · exact .bind (named_fails (h.top hoperands)) fun _ _ _ => .bind_throw (.of_eq rfl rfl)
  · refine .bind lookup_fails fun v _ hlookup => ?_
    obtain ⟨hv, rfl⟩ := lookup_ok hlookup
    split
    case h_1 => exact failsOnly_throw (.of_eq rfl rfl)
    case h_2 elements hel =>
      obtain ⟨haddress, hsize⟩ := hL.denoted hv
      exact element_fails (((h.pop hoperands).denoted hv).2 _ _ hel) haddress (hsize _ _ hel)
        (hL _ (.operand (by simp [hoperands]))) (hL.fresh .temporals)

theorem target_fails (h : Kinded N c) (hL : Holding L c) (hv : v.IsUsual)
    (hdenoted : c.denoted? name = some v) :
    FailsOnly (Tolerated N E D L) (target v name line) c := by
  refine failsOnly_bind (runFrom_get c) ?_
  split
  case h_1 =>
    dsimp only
    split
    · exact .bind_throw (.of_eq rfl rfl)
    · exact failsOnly_of_ok rfl
  case h_2 index hoffset =>
    refine failsOnly_bind rfl ?_
    dsimp only
    split
    · exact .bind (named_fails fun hN => h.offset hN index hoffset) fun _ _ _ =>
        .bind_throw (.of_eq rfl rfl)
    · split
      case h_1 => exact failsOnly_throw (.of_eq rfl rfl)
      case h_2 elements hel =>
        obtain ⟨haddress, hsize⟩ := hL.denoted hdenoted
        exact element_fails (hv.2 _ _ hel) haddress (hsize _ _ hel) (hL _ (.offset hoffset))
          (hL.fresh .temporals)

/-- The target of an assignment has a type with a name, and the operands stay. -/
theorem target_isFit {o : Operand} (hv : v.IsUsual)
    (haddress : (Field.num v.address).isWritable = false → L)
    (h : (target v name line).runFrom c = (.ok o, c')) :
    IsFit N L o ∧ c'.operands = c.operands := by
  obtain ⟨_, _, hget, hmatch⟩ := bind_ok h
  cases hget
  split at hmatch
  case h_1 =>
    dsimp only at hmatch
    split at hmatch
    · cases hmatch
    · cases hmatch
      exact ⟨⟨fun _ => hv.1, haddress⟩, rfl⟩
  case h_2 index ho =>
    obtain ⟨_, _, hset, hif⟩ := bind_ok hmatch
    cases hset
    dsimp only at hif
    split at hif
    · obtain ⟨_, _, _, hthrow⟩ := bind_ok hif
      obtain ⟨_, _, hthrow, _⟩ := bind_ok hthrow
      cases hthrow
    · split at hif
      case h_1 => cases hif
      case h_2 elements hel =>
        obtain ⟨t, ht, rfl, rfl⟩ := element_ok hif
        exact ⟨⟨fun _ => (hv.2 _ _ hel).isNamed, fun hpointer => by cases hpointer⟩, rfl⟩

theorem assign_fails (h : Kinded N c) (hL : Holding L c) :
    FailsOnly (Tolerated N E D L) (assign name line) c := by
  refine .bind lookup_fails fun v _ hlookup => ?_
  obtain ⟨hv, rfl⟩ := lookup_ok hlookup
  have hvar := h.denoted hv
  refine .bind (target_fails h hL hvar hv) fun left _ hleft => ?_
  obtain ⟨hfit, hsame⟩ := target_isFit (N := N) hvar (hL.denoted hv).1 hleft
  refine .bind pop_fails fun right _ hright => ?_
  obtain ⟨rest, hoperands, rfl⟩ := pop_ok hright
  have hfit' : IsFit N L right := isFit h hL (by simp [← hsame, hoperands])
  split
  · exact emit_fails (by simpa using ⟨hfit'.writable, hfit.writable⟩)
  · refine .bind (named_fails hfit'.named) fun _ _ _ => ?_
    exact .bind (named_fails hfit.named) fun _ _ _ => failsOnly_throw (.of_eq rfl rfl)

/-! ## Jumps -/

theorem popJump_fails (h : E → 1 ≤ c.jumps.length) : FailsOnly (Tolerated N E D L) popJump c := by
  refine failsOnly_bind (runFrom_get c) ?_
  split
  case h_1 hempty =>
    refine failsOnly_throw (.empty fun hE => ?_)
    have hlength := h hE
    rw [hempty] at hlength
    cases hlength
  case h_2 => exact failsOnly_of_ok rfl

theorem testCondition_fails {statement : String} (h : Kinded N c) (hL : Holding L c) :
    FailsOnly (Tolerated N E D L) (testCondition statement line) c := by
  refine .bind pop_fails fun x _ hx => ?_
  obtain ⟨rest, hoperands, rfl⟩ := pop_ok hx
  split
  · have hplace := hL x.place (.operand (by simp [hoperands]))
    exact failsOnly_bind rfl (failsOnly_bind rfl (emit_fails (by simpa using hplace)))
  · exact .bind (named_fails (h.top hoperands)) fun _ _ _ => failsOnly_throw (.of_eq rfl rfl)

theorem closeIf_fails (hjumps : E → 1 ≤ c.jumps.length) (h : Bounded false c) (hL : Holding L c) :
    FailsOnly (Tolerated N E D L) closeIf c := by
  refine .bind (popJump_fails hjumps) fun i _ hpop => ?_
  obtain ⟨rest, hi, rfl⟩ := popJump_ok hpop
  exact landHere_fails (h.jumps i (hi ▸ List.mem_cons_self)) (hL _ (.number (.inl (Nat.le_succ _))))

theorem elseBranch_fails (hjumps : E → 1 ≤ c.jumps.length) (h : Bounded true c) (hL : Holding L c) :
    FailsOnly (Tolerated N E D L) elseBranch c := by
  refine .bind (popJump_fails hjumps) fun i _ hpop => ?_
  obtain ⟨rest, hi, rfl⟩ := popJump_ok hpop
  refine failsOnly_bind rfl (failsOnly_bind rfl (failsOnly_bind rfl (landHere_fails ?_ ?_)))
  · have hlt := h.jumps i (hi ▸ List.mem_cons_self)
    simpa using hlt
  · exact hL _ (.number (.inl (Nat.le_of_eq (by simp))))

theorem landAll_fails {is : List Nat} (his : ∀ i ∈ is, i < c.quads.size)
    (hsize : (Field.num c.quads.size).isWritable = false → L) :
    FailsOnly (Tolerated N E D L) (landAll is) c := by
  induction is generalizing c with
  | nil => exact failsOnly_of_ok rfl
  | cons i is ih =>
    obtain ⟨hi, his⟩ := List.forall_mem_cons.1 his
    refine .bind (landHere_fails hi hsize) fun _ _ hland => ?_
    obtain ⟨-, rfl⟩ := landHere_ok hland
    exact ih (by rwa [size_complete]) (by rwa [size_complete])

theorem closeLoop_fails (hjumps : E → 2 ≤ c.jumps.length) (h : Bounded true c) (hL : Holding L c) :
    FailsOnly (Tolerated N E D L) closeLoop c := by
  refine .bind (popJump_fails fun hE => Nat.le_of_succ_le (hjumps hE)) fun test _ hpop => ?_
  obtain ⟨rest, htest, rfl⟩ := popJump_ok hpop
  refine .bind (popJump_fails fun hE => ?_) fun condition _ hcondition => ?_
  · have hlength := hjumps hE
    rw [htest, List.length_cons] at hlength
    exact Nat.le_of_succ_le_succ hlength
  · obtain ⟨rest', hrest, rfl⟩ := popJump_ok hcondition
    -- a loop is closed by one quad, and all its exits land after it
    have hsize : (Field.num ((c.quads.size + 1 : Nat))).isWritable = false → L :=
      hL _ (.number (.inl (Nat.le_refl _)))
    refine .bind (emit_fails (List.forall_mem_singleton.2 ?_)) fun _ _ hgoto => ?_
    · obtain rfl : rest = condition :: rest' := hrest
      have hlt := h.jumps condition (htest ▸ List.mem_cons_of_mem _ List.mem_cons_self)
      exact hL _ (.number (.inl (Nat.le_of_lt hlt)))
    · obtain rfl := emit_ok hgoto
      refine .bind (landHere_fails ?_ (by simpa [Compiler.emit] using hsize)) fun _ _ hland => ?_
      · have hlt := h.jumps test (htest ▸ List.mem_cons_self)
        simpa [Compiler.emit] using hlt
      · obtain ⟨-, rfl⟩ := landHere_ok hland
        refine failsOnly_bind (runFrom_get _) (.bind (landAll_fails (fun i hi => ?_) ?_)
          fun _ _ _ => failsOnly_of_ok rfl)
        · have hlt := h.breaks i hi
          rw [size_complete, Compiler.emit, Array.size_push]
          exact Nat.lt_succ_of_lt hlt
        · rwa [size_complete, Compiler.emit, Array.size_push]

theorem breakLoop_fails : FailsOnly (Tolerated N E D L) (breakLoop line) c := by
  refine failsOnly_bind (runFrom_get c) ?_
  split
  · exact .bind_throw (.of_eq rfl rfl)
  · exact failsOnly_of_ok rfl

/-! ## Calls -/

theorem beginCall_fails : FailsOnly (Tolerated N E D L) (beginCall f line) c := by
  refine failsOnly_bind (runFrom_get c) ?_
  split
  · exact .bind_throw (.of_eq rfl rfl)
  · exact failsOnly_of_ok rfl

theorem popCalled_run (h : c.called = f :: rest) :
    popCalled.runFrom c = (.ok f, { c with called := rest }) := by
  simp [popCalled, h]

theorem checkCount_fails {needed : Nat} :
    FailsOnly (Tolerated N E D L) (checkCount f needed line) c := by
  refine failsOnly_bind (runFrom_get c) ?_
  dsimp only
  split
  · exact failsOnly_throw (.of_eq rfl rfl)
  · exact failsOnly_of_ok rfl

theorem argument_isFit (h : Kinded N c) (hL : Holding L c) {o : Operand} (ho : o ∈ c.arguments) :
    IsFit N L o :=
  ⟨fun hN => h.arguments hN o ho, hL _ (.argument ho)⟩

/-- Arguments are numbered from one. -/
theorem numbers_lt (hL : Holding L c) {n : Nat} (hn : n ≤ c.arguments.length) :
    ∀ k < 1 + n, (Field.num k).isWritable = false → L :=
  fun k hk => hL _ (.number (k := k) (.inr (by omega)))

theorem passArguments_fails {ps : List (Operand × Kind)}
    (hps : ∀ p ∈ ps, IsFit N L p.1 ∧ p.2.IsValue)
    (hnumber : ∀ k < i + ps.length, (Field.num k).isWritable = false → L) :
    FailsOnly (Tolerated N E D L) (passArguments f line i ps) c := by
  induction ps generalizing i c with
  | nil => exact failsOnly_of_ok rfl
  | cons p ps ih =>
    obtain ⟨⟨hx, hk⟩, hps⟩ := List.forall_mem_cons.1 hps
    unfold passArguments
    dsimp only
    split
    · refine .bind (named_fails hx.named) fun _ _ _ => ?_
      exact .bind (named_fails fun _ => hk.isNamed) fun _ _ _ => .bind_throw (.of_eq rfl rfl)
    · rw [List.length_cons, Nat.add_comm ps.length, ← Nat.add_assoc] at hnumber
      exact .bind (emit_fails (by simpa using ⟨hx.writable, hnumber i (by omega)⟩)) fun _ _ _ =>
        ih hps hnumber

theorem endCall_fails {name : Scope} (h : Kinded N c) (hL : Holding L c)
    (hcalled : c.called = name :: rest) (hknown : (c.function? name).isSome = true) :
    FailsOnly (Tolerated N E D L) (endCall line) c := by
  obtain ⟨f, hf⟩ := Option.isSome_iff_exists.1 hknown
  have husual := h.function hf
  refine failsOnly_bind (popCalled_run hcalled) (failsOnly_bind (runFrom_get _) ?_)
  rw [show Compiler.function? { c with called := rest } name = some f from hf]
  refine .bind checkCount_fails fun _ _ hcount => ?_
  obtain ⟨-, rfl⟩ := checkCount_ok hcount
  refine failsOnly_bind (runFrom_get _) (.bind (passArguments_fails ?_ ?_) fun _ _ hpass => ?_)
  · rintro ⟨x, k⟩ hp
    obtain ⟨hx, hk⟩ := List.of_mem_zip hp
    exact ⟨argument_isFit h hL hx, husual.parameterKinds k hk⟩
  · exact numbers_lt hL (List.length_zip ▸ Nat.min_le_left _ _)
  · obtain ⟨-, rfl⟩ := passArguments_ok hpass
    refine failsOnly_bind rfl (failsOnly_bind rfl ?_)
    split
    case h_1 => exact failsOnly_of_ok rfl
    case h_2 k hk =>
      obtain ⟨t, ht⟩ := husual.result k hk
      refine failsOnly_bind (runFrom_get _) (.bind (allocate_fails (ht ▸ Kind.ty?_value t))
        fun a _ ha => ?_)
      obtain ⟨u, -, rfl, -⟩ := allocate_ok ha
      refine failsOnly_bind rfl ?_
      split
      case h_1 place hplace =>
        exact emit_fails (by simpa using ⟨hL _ (.result (List.mem_of_find?_eq_some hf) hplace),
          hL.fresh _ u⟩)
      case h_2 => exact failsOnly_of_ok rfl

theorem passSpecial_fails {ps : List (Operand × List Ty)} (hps : ∀ p ∈ ps, IsFit N L p.1)
    (hnumber : ∀ k < i + ps.length, (Field.num k).isWritable = false → L) :
    FailsOnly (Tolerated N E D L) (passSpecial f line i ps) c := by
  induction ps generalizing i c with
  | nil => exact failsOnly_of_ok rfl
  | cons p ps ih =>
    obtain ⟨hx, hps⟩ := List.forall_mem_cons.1 hps
    unfold passSpecial
    dsimp only
    split
    · exact .bind (named_fails hx.named) fun _ _ _ => .bind_throw (.of_eq rfl rfl)
    · rw [List.length_cons, Nat.add_comm ps.length, ← Nat.add_assoc] at hnumber
      exact .bind (emit_fails (by simpa using ⟨hx.writable, hnumber i (by omega)⟩)) fun _ _ _ =>
        ih hps hnumber

/-- A special function without a signature has no entry in the table of signatures. -/
theorem endSpecial_fails (h : Kinded N c) (hL : Holding L c)
    (hcalled : c.called = some name :: rest) :
    FailsOnly (fun r => Tolerated N E D L r ∨ Special.signature? name = none ∧ r = .noEntry name)
      (endSpecial line) c := by
  refine failsOnly_bind (popCalled_run hcalled) ?_
  rw [Option.bind_some]
  split
  case h_1 hnone => exact failsOnly_throw (.inr ⟨hnone, rfl⟩)
  case h_2 s hs =>
    intro r c' hr
    refine .inl ((?_ : FailsOnly (Tolerated N E D L) _ _) r c' hr)
    refine .bind checkCount_fails fun _ _ hcount => ?_
    obtain ⟨-, rfl⟩ := checkCount_ok hcount
    refine failsOnly_bind (runFrom_get _) (.bind (passSpecial_fails ?_ ?_) fun _ _ hpass => ?_)
    · intro p hp
      exact argument_isFit h hL (List.of_mem_zip hp).1
    · exact numbers_lt hL (List.length_zip ▸ Nat.min_le_left _ _)
    · obtain ⟨-, rfl⟩ := passSpecial_ok hpass
      split
      case h_1 => exact failsOnly_of_ok rfl
      case h_2 t ht =>
        refine .bind (allocate_fails (Kind.ty?_value t)) fun a _ ha => ?_
        obtain ⟨u, -, rfl, -⟩ := allocate_ok ha
        exact .bind (emit_fails (List.forall_mem_singleton.2 (hL.fresh _ u))) fun _ _ _ =>
          failsOnly_of_ok rfl

theorem completeSelfCalls_fails {place : Field} {ps : List (Nat × Int)}
    (hplace : place.isWritable = false → L)
    (hps : ∀ p ∈ ps, p.1 < c.quads.size ∧ ((Field.num p.2).isWritable = false → L)) :
    FailsOnly (Tolerated N E D L) (completeSelfCalls place ps) c := by
  induction ps generalizing c with
  | nil => exact failsOnly_of_ok rfl
  | cons p ps ih =>
    obtain ⟨⟨hp, hresult⟩, hps⟩ := List.forall_mem_cons.1 hps
    refine .bind (complete_fails hp (by simpa using ⟨hplace, hresult⟩)) fun _ _ hcomplete => ?_
    obtain ⟨-, rfl⟩ := complete_ok hcomplete
    exact ih (by rwa [size_complete])

theorem giveBack_fails (h : Kinded N c) (hb : Bounded true c) (hL : Holding L c) :
    FailsOnly (Tolerated N E D L) (giveBack line) c := by
  refine failsOnly_bind (runFrom_get c) ?_
  dsimp only
  split
  · exact .bind_throw (.of_eq rfl rfl)
  · refine failsOnly_bind (runFrom_get c) ?_
    split
    · exact .bind_throw (.of_eq rfl rfl)
    · refine .bind pop_fails fun x _ hx => ?_
      obtain ⟨rest, hoperands, rfl⟩ := pop_ok hx
      split
      case h_1 => exact failsOnly_throw (.of_eq rfl rfl)
      case h_2 k hk =>
        split
        · refine .bind (named_fails fun _ => (h.current.result k hk).isNamed) fun _ _ _ => ?_
          exact .bind (named_fails (h.top hoperands)) fun _ _ _ => .bind_throw (.of_eq rfl rfl)
        · refine failsOnly_bind rfl (failsOnly_bind (runFrom_get _)
            (completeSelfCalls_fails ?_ fun p hp => ?_))
          · exact hL _ (.operand (by simp [hoperands]))
          · exact ⟨hb.selfCalls p hp, hL _ (.selfCall hp)⟩

/-! ## Events -/

/-- Every event that is no end of a special call. -/
theorem perform_fails {e : Event} (h : Ready N E e c) (hL : Holding L c) (hnew : D → c.Declarable e)
    (he : ∀ name, e ≠ .endSpecial name) : FailsOnly (Tolerated N E D L) (perform ⟨e, line⟩) c := by
  have hkinded := h.kinded
  cases e with
  | declareGlobals vars =>
    refine failsOnly_bind rfl (declareVariables_fails (List.forall_mem_nil _) h.usual fun hD => ?_)
    exact ⟨(hnew hD).nodup, (hnew hD).free⟩
  | enterMain => exact landHere_fails (h.started rfl) (hL _ (.number (.inl (Nat.le_succ _))))
  | finish | chain | beginSpecial | markLoop | leaveLoop => exact failsOnly_of_ok rfl
  | defineFunction => exact defineFunction_fails hnew
  | declareLocals params vars =>
    obtain ⟨hparams, hvars⟩ := List.forall_mem_append.1 h.usual
    exact declareVariables_fails hparams hvars hnew
  | endFunction => exact endFunction_fails hkinded
  | constant => exact pushConstant_fails
  | dropSize | selectElement | argument => exact .bind pop_fails fun _ _ _ => failsOnly_of_ok rfl
  | useVariable => exact .bind lookup_fails fun _ _ _ => failsOnly_of_ok rfl
  | useElement => exact .bind (access_fails hkinded hL) fun _ _ _ => failsOnly_of_ok rfl
  | assign => exact assign_fails hkinded hL
  | power => exact operateRight_fails hkinded hL
  | fold => exact operateLeft_fails hkinded hL
  | unary => exact operateUnary_fails hkinded hL
  | breakLoop => exact breakLoop_fails
  | giveBack => exact giveBack_fails hkinded h.bounded hL
  | beginCall => exact beginCall_fails
  | endCall name =>
    obtain ⟨rest, hcalled, hknown⟩ := h.called name rfl
    exact endCall_fails hkinded hL hcalled hknown
  | endSpecial name => exact absurd rfl (he name)
  | testIf => exact testCondition_fails hkinded hL
  | testLoop => exact .bind (testCondition_fails hkinded hL) fun _ _ _ => failsOnly_of_ok rfl
  | closeIf => exact closeIf_fails h.jumps (h.closing rfl) hL
  | elseBranch => exact elseBranch_fails h.jumps h.bounded hL
  | closeLoop => exact closeLoop_fails h.jumps h.bounded hL

/-- Why an event is rejected for which the compiler is ready. -/
theorem rejects_or_special {s : Step} (h : Ready N E s.event c) (hL : Holding L c)
    (hnew : D → c.Declarable s.event) (hr : (perform s).runFrom c = (.error r, c')) :
    Tolerated N E D L r ∨ ∃ name, s.event = .endSpecial name ∧ Special.signature? name = none ∧
      r = .noEntry name := by
  obtain ⟨e, line⟩ := s
  by_cases he : ∃ name, e = .endSpecial name
  · obtain ⟨name, rfl⟩ := he
    obtain ⟨rest, hcalled⟩ := h.special name rfl
    rcases endSpecial_fails h.kinded hL hcalled r c' hr with htolerated | ⟨hnone, hr⟩
    · exact .inl htolerated
    · exact .inr ⟨name, rfl, hnone, hr⟩
  · exact .inl (perform_fails h hL hnew (fun name hname => he ⟨name, hname⟩) r c' hr)

theorem rejects_of_perform {s : Step} (h : Ready N E s.event c) (hL : Holding L c)
    (hr : (perform s).runFrom c = (.error r, c')) :
    Tolerated N E False L r ∨ ∃ name, s.event = .endSpecial name ∧ Special.signature? name = none ∧
      r = .noEntry name :=
  rejects_or_special h hL False.elim hr

end Compile

/-! ## Sources -/

theorem Ending.isComplaint {e : Ending} (h : e.rejection? = some r) : r.IsComplaint := by
  cases e with
  | accepted => cases h
  | unexpected | illegal | overlong =>
    cases h
    exact ⟨_, rfl⟩

theorem Ending.eq_overlong {e : Ending} {k : Complaint} (h : e.rejection? = some r)
    (hk : r.complaint? = some k) (hlong : k = .overlong) : e = .overlong := by
  subst hlong
  cases e with
  | overlong => rfl
  | accepted => cases h
  | unexpected | illegal =>
    cases h
    cases hk

/-- Special functions without a signature. -/
theorem Special.eq_of_signature?_eq_none (hname : name ∈ specialNames)
    (h : signature? name = none) :
    name = "read" ∨ name = "concat" := by
  have hall : ∀ name ∈ specialNames, signature? name = none → name = "read" ∨ name = "concat" := by
    decide
  exact hall name hname h

namespace Trace

/-- A special function is called where its name stands. -/
theorem exists_special {line : Nat} {source : String}
    (h : .endSpecial name ∈ (ofSource line source).events) :
    ∃ l ∈ (Lexemes.scan line source).list, l.token = .special name := by
  have hall : ∀ e ∈ (ofSource line source).events, e = .endSpecial name →
      ∃ l ∈ (Lexemes.scan line source).list, l.token = .special name := by
    apply forall_events
    · rintro _ hfree rfl
      cases hfree
    · rintro l hl _ hbrings rfl
      exact ⟨l, hl, hbrings⟩
  exact hall _ h rfl

/-- Of the trees that a source begins, one without branches after a last branch if there is one. -/
theorem exists_tree_least (line : Nat) (source : String) :
    ∃ p : Tree, (ofSource line source).events <+: p.events ∧
      (p.extras ≠ 0 → ∀ p' : Tree, (ofSource line source).events <+: p'.events →
        0 < p'.extras) := by
  by_cases h : ∃ p : Tree, (ofSource line source).events <+: p.events ∧ p.extras = 0
  · obtain ⟨p, hp, hzero⟩ := h
    exact ⟨p, hp, fun hne => absurd hzero hne⟩
  · obtain ⟨p, hp⟩ := exists_tree_prefix line source
    exact ⟨p, hp, fun _ p' hp' => Nat.pos_of_ne_zero fun hzero => h ⟨p', hp', hzero⟩⟩

end Trace

namespace Compiled

open Compiler

/-- A source is rejected at one of its events, which the compiler cannot take after those before, or
for the way in which recognition ends. -/
theorem rejection_or_exists_step {ending : Ending} {last : Nat} {steps : List Step} :
    (ofSteps ending last steps c).rejection = ending.rejection? ∨
      ∃ xs s ys r c' c'', steps = xs ++ s :: ys ∧ Runs (xs.map Step.event) c c' ∧
        (Compile.perform s).runFrom c' = (.error r, c'') ∧
          (ofSteps ending last steps c).rejection = some r := by
  induction steps generalizing c with
  | nil => exact .inl rfl
  | cons s steps ih =>
    simp only [ofSteps]
    split
    case h_1 c₁ hs =>
      rcases ih (c := c₁) with h | ⟨xs, s', ys, r, c', c'', rfl, hruns, hperform, hrejection⟩
      · exact .inl h
      · exact .inr ⟨s :: xs, s', ys, r, c', c'', rfl, .cons (Compile.acts_of_perform hs) hruns,
          hperform, hrejection⟩
    case h_2 r c₁ hs => exact .inr ⟨[], s, steps, r, c, c₁, rfl, .nil _, hs, rfl⟩

/-- The events of a source begin those of a tree. The source is accepted, or rejected with a
complaint, or has one of three constructs: an application of a unary operator, a branch after a last
branch, or a call of a special function without a signature; or the compiler comes to hold a number
that it cannot write. A complaint about an integer is one about an integer in the source. -/
theorem rejection_cases (line : Nat) (source : String) :
    (∃ p : Tree, (Trace.ofSource line source).events <+: p.events) ∧
      ((ofSource line source).rejection = none ∨
        (∃ r k, (ofSource line source).rejection = some r ∧ r.complaint? = some k ∧
          (k = .overlong → (Trace.ofSource line source).ending = .overlong)) ∨
        ((ofSource line source).rejection = some .unnamedType ∧
          ∃ o, .unary o ∈ (Trace.ofSource line source).events) ∨
        ((ofSource line source).rejection = some .emptyStack ∧
          ∀ p : Tree, (Trace.ofSource line source).events <+: p.events → 0 < p.extras) ∨
        ((ofSource line source).rejection = some .overlongInteger ∧
          ∃ xs c x, xs <+: (Trace.ofSource line source).events ∧ Runs xs {} c ∧ c.Holds x ∧
            x.isWritable = false) ∨
        ∃ name, (ofSource line source).rejection = some (.noEntry name) ∧
          (name = "read" ∨ name = "concat") ∧
          ∃ l ∈ (Lexemes.scan line source).list, l.token = .special name) := by
  refine ⟨Trace.exists_tree_prefix line source, ?_⟩
  have hsteps : (ofSource line source).rejection = (Trace.ofSource line source).ending.rejection? ∨
      _ :=
    rejection_or_exists_step
  rcases hsteps with hend | ⟨xs, s, ys, r, c, c', hsteps, hruns, hperform, hrejection⟩
  · rw [hend]
    cases hr : (Trace.ofSource line source).ending.rejection? with
    | none => exact .inl rfl
    | some r =>
      obtain ⟨k, hk⟩ := Ending.isComplaint hr
      exact .inr (.inl ⟨r, k, rfl, hk, Ending.eq_overlong hr hk⟩)
  · right
    have hevents : (Trace.ofSource line source).events = xs.map Step.event ++ s.event ::
        ys.map Step.event := by
      rw [Trace.events, hsteps, List.map_append, List.map_cons]
    obtain ⟨p, ⟨zs, hp⟩, hextras⟩ := Trace.exists_tree_least line source
    rw [hevents, List.append_assoc, List.cons_append] at hp
    -- The condition for a number is that the compiler holds it, so there is nothing to show for it.
    have hholding : Holding (∃ x, c.Holds x ∧ x.isWritable = false) c := fun x hx hlong =>
        ⟨x, hx, hlong⟩
    rcases Compile.rejects_of_perform (ready hruns hp.symm) hholding
      hperform with htolerated | ⟨name, he, hnone, rfl⟩
    · cases htolerated with
      | complaint hk hne => exact .inl ⟨r, _, hrejection, hk, fun hlong => absurd hlong hne⟩
      | unnamed hunary =>
        obtain ⟨o, ho⟩ := not_forall.1 hunary
        exact .inr (.inl ⟨hrejection, o, hevents ▸ List.mem_append_left _ (not_not.1 ho)⟩)
      | empty hne => exact .inr (.inr (.inl ⟨hrejection, hextras hne⟩))
      | long hlong =>
        obtain ⟨x, hx, hlong⟩ := hlong
        exact .inr (.inr (.inr (.inl ⟨hrejection, _, c, x, hevents ▸ List.prefix_append _ _, hruns,
          hx, hlong⟩)))
    · have hmem : .endSpecial name ∈ (Trace.ofSource line source).events :=
        hevents ▸ he ▸ List.mem_append_right _ List.mem_cons_self
      obtain ⟨l, hl, htoken⟩ := Trace.exists_special hmem
      have hspelled : l.token.IsSpelled := isSpelled_of_mem_scan l hl
      rw [htoken] at hspelled
      exact .inr (.inr (.inr (.inr
        ⟨name, hrejection, Special.eq_of_signature?_eq_none hspelled hnone, l, hl, htoken⟩)))

-- Three of the exceptions, each in a short program.
example :
    (ofSource 1 "program p; int b; b = not true;").rejection = some .unnamedType ∧
      (ofSource 1 "program p; if (true) { } else { } else { }").rejection = some .emptyStack ∧
      (ofSource 1 "program p; read();").rejection = some (.noEntry "read") := by
  decide +kernel

-- The fourth: the variable is declared after an array with the largest size that can be read.
example :
    let a : Declaration := ⟨.value .int, "a", some (.value .int, Text.tooLong - 1)⟩
    let x : Declaration := ⟨.value .int, "x", none⟩
    let events : List Event := [.declareGlobals [a, x], .enterMain, .constant .int (.int 1),
      .assign "x"]
    (ofSteps .accepted 1 (events.map (⟨·, 1⟩)) {}).rejection = some .overlongInteger := by
  decide +kernel

end Compiled

end Symphony
