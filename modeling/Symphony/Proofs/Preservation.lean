import Symphony.Proofs.Handover
import Symphony.Proofs.Isolation
import Symphony.Proofs.Literals
import Symphony.Proofs.Writes

/-!
# Types are kept

The compiler checks types and the machine does not. The code of an accepted source is typed, so it
need not.

**Theorem (`Compiled.cells_typed`).** If a source has no powers and room for its cells, every cell
holds a value of its type, in every state of every run. Pointers apart: their cells have the type of
what they point to, and hold addresses.

A step of typed code changes the memory in a typed way, whether it goes on or fails, and leaves the
operands handed over that the next quad expects (`Program.step_effect`). Between two steps (`Live`)
there is one more thing to know: an index that is about to be used has been checked.
-/

namespace Symphony

open Exec

variable {q : Quad} {rs : List Reservation} {bs : List Int} {i : Int} {j k : Nat} {m m' : Machine}
  {K : String → List Kind → Prop} {T : Int → Prop} {c : Compiler} {p : Program} {qs : Array Quad}
  {N : Scope → Prop} {args fs : List Field} {fields : List String} {name : String} {x : Field}

/-! ## Quads -/

namespace Quad

/-- The fields of a quad that stand for cells. The cell that an access to an array fills is not
among them, and a copy that was completed more than once has none, because it fails. -/
def operands : Quad → List Field
  | .word w :: fs =>
    if w = "VER" ∨ w = "PARAM" ∨ w = "GOTOF" then fs.take 1
    else if w = "ACCESS" then (fs.drop 1).take 1
    else if w = "GOTO" ∨ w = "GOSUB" ∨ w = "ENDPROC" ∨ (w = "=" ∧ fs.length ≠ 2) then []
    else fs
  | _ => []

theorem mem_of_mem_operands {w : String} {f : Field} (h : f ∈ operands (.word w :: fs)) :
    f ∈ fs := by
  rw [operands] at h
  split_ifs at h
  · exact List.mem_of_mem_take h
  · exact List.mem_of_mem_drop (List.mem_of_mem_take h)
  · exact absurd h List.not_mem_nil
  · exact h

theorem operands_binary (o : BinOp) (fs : List Field) : operands (.word o.symbol :: fs) = fs := by
  cases o <;> simp [operands, BinOp.symbol]

theorem operands_unary (o : UnOp) (fs : List Field) : operands (.word o.mnemonic :: fs) = fs := by
  cases o <;> simp [operands, UnOp.mnemonic]

theorem operands_special {s : Special.Signature} (h : Special.signature? name = some s)
    (fs : List Field) : operands (.word name :: fs) = fs := by
  unfold Special.signature? at h
  split at h <;> first | cases h; done | simp [operands]

/-- Operands are in cells that have been handed out. -/
theorem At.stored (h : q.At N rs bs qs k) : ∀ f ∈ q.operands, Stored rs f := by
  cases h with
  | plain h =>
    cases h with
    | binary o h₁ h₂ h₃ =>
      rw [operands_binary]
      simp [h₁, h₂, h₃]
    | unary o h₁ h₂ =>
      rw [operands_unary]
      simp [h₁, h₂]
    | copy h | special _ h => exact fun f hf => h f (mem_of_mem_operands hf)
    | verify n h | param h | gotof h => exact List.forall_mem_singleton.2 h
    | endproc | goto => exact List.forall_mem_nil _
  | gosub => exact List.forall_mem_nil _
  | access _ _ hx => exact List.forall_mem_singleton.2 hx

/-- A quad has the address of a cell for an operand, or for the pointer that it computes. -/
def Names (q : Quad) (a : Int) : Prop :=
  .num a ∈ q.operands ∨ ∃ base x, q = [.word "ACCESS", base, x, .num a]

theorem Shape.of_jumpsTo {P : Field → Prop} (h : q.Shape P N T) (hj : q.JumpsTo j) : T j := by
  rcases hj with rfl | ⟨x, rfl⟩
  · obtain ⟨ts, hts, heq⟩ := h.tells.goto rfl
    exact hts _ (mem_of_map_num heq)
  · obtain ⟨_, -, ts, hts, heq⟩ := h.tells.gotof rfl
    exact hts _ (mem_of_map_num (List.cons.inj heq).2)

theorem Typed.of_jumpsTo (h : q.Typed K T args) (hj : q.JumpsTo j) : T j := by
  rcases hj with rfl | ⟨x, rfl⟩
  · obtain ⟨-, ts, hts, heq⟩ := h.tells.goto rfl
    exact hts _ (mem_of_map_num heq)
  · obtain ⟨-, _, -, ts, hts, heq⟩ := h.tells.gotof rfl
    exact hts _ (mem_of_map_num (List.cons.inj heq).2)

/-- Where operands fit, there are as many as are taken. -/
theorem Typed.fed (h : q.Typed K T args) : q.Fed args := by
  cases h with
  | binary o => exact .apart _ (isApart_symbol o)
  | unary o => exact .apart _ (isApart_mnemonic o)
  | copy | verify | access | endproc | goto | gotof => exact .apart _ (by decide)
  | param => exact .param _ _ _
  | gosub => exact .gosub _ _
  | special hs hres hargs | specialValue hs hres hargs =>
    exact .special hs (by simpa using hargs.length_eq) (by simp [hres])

theorem CodeTyped.fed {es : List Int} (h : CodeTyped K args qs es) : CodeFed args qs es where
  quads i q hq := ⟨(h.quads i q hq).fed, fun _ hj => (h.quads i q hq).of_jumpsTo hj⟩
  last := h.last
  entries := h.entries

theorem eq_of_passes? (h : q.passes? = some x) : ∃ n, q = [.word "PARAM", x, n] := by
  unfold passes? at h
  split at h
  case h_1 w y n =>
    split at h
    case isTrue hw =>
      cases h
      exact ⟨n, by rw [hw]⟩
    case isFalse => cases h
  case h_2 => cases h

theorem mem_operands_of_passes? (h : q.passes? = some x) : x ∈ q.operands := by
  obtain ⟨n, rfl⟩ := eq_of_passes? h
  exact List.mem_singleton_self x

/-- What holds of the operands of all quads holds of those that have been handed over. -/
theorem forall_mem_passed {P : Field → Prop}
    (h : ∀ (i : Nat) (q : Quad), qs[i]? = some q → ∀ f ∈ q.operands, P f) (k : Nat) :
    ∀ x ∈ passed qs k, P x := by
  induction k with
  | zero => exact List.forall_mem_nil _
  | succ k ih =>
    rw [passed]
    split
    case h_1 x hx =>
      obtain ⟨q, hq, hpasses⟩ := Option.bind_eq_some_iff.1 hx
      exact List.forall_mem_cons.2 ⟨h k q hq x (mem_operands_of_passes? hpasses), ih⟩
    case h_2 => exact List.forall_mem_nil _

end Quad

section

variable {A W : Int → Prop}

theorem forall₂_given {β : Type} {S : β → Ty → Prop} (hr : Roomy rs) {xs : List Field} {ys : List β}
    (h : List.Forall₂ (fun x y => ∃ t, S y t ∧ Field.IsOf t x) xs ys)
    (hxs : ∀ x ∈ xs, Stored rs x) :
    List.Forall₂ (fun x y => ∃ t, S y t ∧ Given rs t x) xs ys := by
  induction h with
  | nil => exact .nil
  | cons hx _ ih =>
    obtain ⟨hstored, hrest⟩ := List.forall_mem_cons.1 hxs
    exact .cons (hx.imp fun t ht => ⟨ht.1, .of_isOf hstored hr ht.2⟩) (ih hrest)

namespace Program

theorem does_operation (hr : Roomy rs) (o : Operation)
    (h : Does A W rs args (o.perform fields) (fun _ => True) []) :
    Does A W rs args (p.execute i o.name fields) (fun _ => True) [] := by
  rw [execute, o.ofName?_name]
  exact Routine.does_done hr h

theorem does_routine {r : Routine} {args' : List Field} (ho : Operation.ofName? name = none)
    (hname : Routine.ofName? name = some r)
    (h : Does A W rs args (r.perform p i name fields) (fun _ => True) args') :
    Does A W rs args (p.execute i name fields) (fun _ => True) args' := by
  rw [execute, ho]
  dsimp only
  rw [hname]
  exact h

theorem does_check (r : Routine) (ho : Operation.ofName? name = none)
    (hname : Routine.ofName? name = some r) (h : r = .goto ∨ r = .gotof ∨ r = .ver) :
    Does A W rs args (p.execute i name fields) (fun _ => True) args :=
  does_routine ho hname (does_of_keeps (Routine.keeps_perform_of_check h name fields))

/-- A quad whose operands fit its operation changes a machine as code may. -/
theorem does_execute (hr : Roomy rs) {w : String} (hat : Quad.At N rs bs qs k (.word w :: fs))
    (htyped : Quad.Typed K T args (.word w :: fs)) (hargs : ∀ x ∈ args, Stored rs x)
    (hW : ∀ x ∈ Quad.operands (.word w :: fs) ++ args, x.Allows W)
    (hK : ∀ name ks, K name ks → ∃ f, p.function? name = some f ∧ f.parameterKinds = ks)
    (hpow : w ≠ BinOp.pow.symbol) (haccess : w ≠ "ACCESS") :
    Does A W rs args (p.execute i w (fs.map Field.text)) (fun _ => True)
      ((Quad.passes? (.word w :: fs)).elim [] (· :: args)) := by
  have hstored := hat.stored
  obtain ⟨hW, hWargs⟩ := List.forall_mem_append.1 hW
  have hreversed : ∀ x ∈ args.reverse, Stored rs x := fun x hx => hargs x (List.mem_reverse.1 hx)
  -- All but `PARAM` leave nothing handed over.
  have hother : w ≠ "PARAM" → Does A W rs args (p.execute i w (fs.map Field.text))
      (fun _ => True) [] → Does A W rs args (p.execute i w (fs.map Field.text)) (fun _ => True)
        ((Quad.passes? (.word w :: fs)).elim [] (· :: args)) := by
    intro hw h
    rwa [Quad.passes?_eq_none hw]
  generalize hq : Field.word w :: fs = q at htyped
  cases htyped with
  | @binary o l r d lt rt t hl hr' ht hd =>
    cases hq
    rw [Quad.operands_binary] at hstored hW
    have hpow' : o ≠ .pow := by
      rintro rfl
      exact hpow rfl
    refine hother (by cases o <;> decide) (does_operation hr (.binary o) ?_)
    refine Operation.does_binary hr hpow' ?_ ?_ ht ?_ (hW _ (by simp))
    · exact .of_isOf (hstored l (by simp)) hr hl
    · exact .of_isOf (hstored r (by simp)) hr hr'
    · exact .of_isOf (hstored _ (by simp)) hr hd
  | @unary o x d t u hx ht hd =>
    cases hq
    rw [Quad.operands_unary] at hstored hW
    refine hother (by cases o <;> decide)
      (does_operation hr (.unary o) (Operation.does_unary hr ?_ ht ?_ (hW d (by simp))))
    · exact .of_isOf (hstored x (by simp)) hr hx
    · exact .of_isOf (hstored d (by simp)) hr hd
  | copy h =>
    cases hq
    refine hother (by decide) (does_operation hr .copy (Operation.does_copy hr fun x d hfs => ?_))
    subst hfs
    obtain ⟨t, hx, hd⟩ := h x d rfl
    exact ⟨t, .of_isOf (hstored x (by simp [Quad.operands])) hr hx,
      .of_isOf (hstored d (by simp [Quad.operands])) hr hd, hW d (by simp [Quad.operands])⟩
  | verify n hx =>
    cases hq
    exact hother (by decide) (does_check .ver (by decide) rfl (.inr (.inr rfl)))
  | access => exact absurd (Field.word.inj (List.cons.inj hq).1) haccess
  | @param _ x t n hx =>
    cases hq
    exact does_routine (by decide) rfl (Routine.does_param x n)
  | special hs hres h =>
    cases hq
    obtain ⟨r, ho, hname, hdoes⟩ :=
      Routine.does_special hr hs hres (forall₂_given hr h hreversed) hWargs
    exact hother (Special.ne_param hs) (does_routine ho hname hdoes)
  | specialValue hs hres h ha =>
    cases hq
    rw [Quad.operands_special hs] at hstored hW
    obtain ⟨r, ho, hname, hdoes⟩ :=
      Routine.does_specialValue hr hs hres (forall₂_given hr h hreversed)
      (.of_isOf (hstored _ (by simp)) hr ha) (hW _ (by simp))
    exact hother (Special.ne_param hs) (does_routine ho hname hdoes)
  | gosub hk h =>
    cases hq
    obtain ⟨f, hf, rfl⟩ := hK _ _ hk
    have henter := Routine.does_enter (A := A) (W := W) (i := i) hr hf
        (forall₂_given hr h hreversed)
    exact hother (by decide) (does_routine (r := .gosub) (by decide) rfl
      (Routine.does_perform_one rfl (henter.map hr some)))
  | endproc =>
    cases hq
    obtain ⟨f, rfl⟩ := (hat.shape (by decide)).tells.endproc rfl
    have hleave : Does A W rs [] (Routine.leave p f.text) (fun _ => True) [] :=
      Routine.does_leave hr f.text
    exact hother (by decide) (does_routine (r := .endproc) (by decide) rfl
      (Routine.does_perform_one rfl (hleave.map hr some)))
  | goto =>
    cases hq
    exact hother (by decide) (does_check .goto (by decide) rfl (.inl rfl))
  | gotof =>
    cases hq
    exact hother (by decide) (does_check .gotof (by decide) rfl (.inr (.inl rfl)))

end Program

end

/-! ## Steps -/

/-- The machine after a step. -/
def StepResult.machine : StepResult → Machine
  | next _ m => m
  | halted m => m
  | failed _ m => m

theorem Exec.integer_ok {field : String} {n : Int} (h : (integer field).runFrom m = (.ok n, m')) :
    Text.readInteger? field = some n ∧ m = m' := by
  unfold integer at h
  split at h
  case h_1 l hl =>
    cases h
    exact ⟨hl, rfl⟩
  case h_2 => cases h

/-- The index of the access to an array that a run may be at has been checked. -/
def Checked (qs : Array Quad) (k : Nat) (m : Machine) : Prop :=
  ∀ {j : Nat} {x base d : Field} {n : Int}, k = j + 1 →
    qs[j]? = some [.word "VER", x, .num 0, .num n] → qs[k]? = some [.word "ACCESS", base, x, d] →
      ∃ z, m.memory.load (.ofField x.text) = .ok (.int z) ∧ 0 ≤ z ∧ z < n

namespace Program

variable {A W : Int → Prop} {j : Int}

theorem machine_step (hq : p.quad? i = some (name :: fields)) :
    (p.step i m).machine = ((p.execute i name fields).runFrom m).2 := by
  rw [step, hq]
  dsimp only
  rcases (p.execute i name fields).runFrom m with ⟨_ | _, _⟩ <;> rfl

/-- Where there is no quad a run stops. -/
theorem machine_step_of_none (hq : p.quad? i = none) : (p.step i m).machine = m := by
  have hfinish : Keeps (fun m => m) Exec.finish := by
    refine keeps_get.bind fun n => ?_
    split
    · exact keeps_throw _
    · exact keeps_pure _
  have hsame : (Exec.finish.runFrom m).2 = m := hfinish m
  rw [step, hq]
  dsimp only
  rcases hrun : Exec.finish.runFrom m with ⟨_ | _, m'⟩ <;> (rw [hrun] at hsame; exact hsame)

/-- The address of an array element is stored in the cell of its pointer. -/
theorem step_access_int {b z a : Int} (hb : b.natAbs < Text.tooLong) (ha : a.natAbs < Text.tooLong)
    (hq : p.quad? k = some ["ACCESS", (Field.num b).text, x.text, (Field.num a).text])
    (hload : m.memory.load (.ofField x.text) = .ok (.int z)) :
    p.step k m = m.next k (m.memory.write (.ofInt a) (.int (b + z))) := by
  have hnum : Text.readInteger? (Field.num b).text = some b := by
    rw [Field.text, Text.readInteger?_toString, if_pos hb]
  rw [step_access hq hnum, hload, ← Memory.store_num ha]
  rfl

theorem step_access_effect (hr : Roomy rs) (hat : Quad.At N rs bs qs k (.word "ACCESS" :: fs))
    (hqs : qs[k]? = some (.word "ACCESS" :: fs))
    (hA : ∀ base x a, fs = [base, x, .num a] → A a ∧ W a)
    (hq : p.quad? k = some ("ACCESS" :: fs.map Field.text)) (hchecked : Checked qs k m)
    (hm : m.IsTyped A rs) :
    m.Changes A W rs (p.step k m).machine ∧ (p.step k m).machine.parameters = m.parameters := by
  obtain ⟨l, x, t, n, b, before, later, hl, hver, hrs, hbase, -, rfl⟩ := hat.of_access
  obtain ⟨z, hload, hlo, hhi⟩ := hchecked hl hver hqs
  subst hrs
  obtain ⟨s, -, hplace⟩ := hbase.locate hr.of_append (Int.le_refl _) (by omega)
  have hloc : Sector.locate? ((Counters.after before).next .temporals t) = some (.temporals, t) :=
    hr.locate (Int.le_refl _) (Int.lt_succ _)
  rw [step_access_int (Sector.natAbs_lt_tooLong hplace) (Sector.natAbs_lt_tooLong hloc) hq hload]
  cases hw : m.memory.write (.ofInt ((Counters.after before).next .temporals t)) (.int (b + z)) with
  | error f => exact ⟨.refl hm, rfl⟩
  | ok memory =>
    obtain ⟨ha, hset⟩ := hA _ _ _ rfl
    exact ⟨⟨.point .refl rfl hbase (by omega) (by omega) ha hset hw, hm.records, rfl⟩, rfl⟩

/-- Every step of typed code changes the memory as code may, whether it goes on or fails, and leaves
the operands handed over that the next quad expects. -/
theorem step_effect (hr : Roomy rs) (hat : q.At N rs bs qs k)
    (htyped : q.Typed K T (Quad.passed qs k)) (hargs : ∀ x ∈ Quad.passed qs k, Stored rs x)
    (hK : ∀ name ks, K name ks → ∃ f, p.function? name = some f ∧ f.parameterKinds = ks)
    (hplain : ∃ w fs, q = .word w :: fs ∧ w ≠ BinOp.pow.symbol)
    (hA : ∀ base x a, q = [.word "ACCESS", base, x, .num a] → A a)
    (hW : ∀ a, q.Names a ∨ .num a ∈ Quad.passed qs k → W a) (hqs : qs[k]? = some q)
    (hq : p.quad? k = some (q.map Field.text)) (hchecked : Checked qs k m) (hm : m.IsTyped A rs)
    (hparams : m.parameters = (Quad.passed qs k).map Field.text) :
    m.Changes A W rs (p.step k m).machine ∧ ∀ j m', p.step k m = .next j m' →
      m'.parameters = (q.passes?.elim [] (· :: Quad.passed qs k)).map Field.text := by
  obtain ⟨w, fs, rfl, hpow⟩ := hplain
  by_cases haccess : w = "ACCESS"
  · subst haccess
    obtain ⟨hchanges, hsame⟩ := step_access_effect hr hat hqs
      (fun base x a ha => ⟨hA base x a (by rw [ha]), hW a (.inl (.inr ⟨base, x, by rw [ha]⟩))⟩) hq
        hchecked hm
    refine ⟨hchanges, fun j m' hstep => ?_⟩
    rw [hstep] at hsame
    rw [show m'.parameters = m.parameters from hsame, hparams, Quad.passes?_eq_none (by decide),
      htyped.fed.eq_nil (by decide)]
    rfl
  · have hallows : ∀ x ∈ Quad.operands (.word w :: fs) ++ Quad.passed qs k, x.Allows W := by
      rintro x hx a rfl
      rcases List.mem_append.1 hx with hx | hx
      · exact hW a (.inl (.inl hx))
      · exact hW a (.inr hx)
    have hdoes := does_execute (A := A) (p := p) (i := k) hr hat htyped hargs hallows hK hpow
        haccess m hm hparams
    rw [machine_step hq]
    refine ⟨hdoes.1, fun j m' hstep => ?_⟩
    obtain ⟨name, fields, next, hq', hexec, -⟩ := step_next hstep
    obtain ⟨rfl, rfl⟩ : w = name ∧ fs.map Field.text = fields := by simpa [hq, Field.text] using hq'
    rw [hexec] at hdoes
    exact (hdoes.2 next rfl).2

/-- A check that goes on has found the index in its bounds. -/
theorem step_verify_ok {x low high : String} (hq : p.quad? i = some ["VER", x, low, high])
    (h : p.step i m = .next j m') :
    m' = m ∧ ∃ v l u, m.memory.load (.ofField x) = .ok v ∧ Text.readInteger? low = some l ∧
      Text.readInteger? high = some u ∧ Routine.between l v u = .ok true := by
  obtain ⟨name, fields, next, hq', hexec, -⟩ := step_next h
  obtain ⟨rfl, rfl⟩ : "VER" = name ∧ [x, low, high] = fields := by simpa [hq] using hq'
  have hperform := execute_of_routine (r := .ver) (by decide) rfl hexec
  rw [Routine.runFrom_perform_three rfl rfl] at hperform
  obtain ⟨_, _, hverify, hpure⟩ := Attempt.bind_ok hperform
  cases hpure
  obtain ⟨v, _, hv, hrest⟩ := Attempt.bind_ok hverify
  rw [runFrom_value] at hv
  obtain ⟨hload, rfl⟩ := Prod.mk.inj hv
  obtain ⟨u, _, hu, hrest⟩ := Attempt.bind_ok hrest
  obtain ⟨hhigh, rfl⟩ := integer_ok hu
  obtain ⟨l, _, hl, hrest⟩ := Attempt.bind_ok hrest
  obtain ⟨hlow, rfl⟩ := integer_ok hl
  obtain ⟨inside, _, hinside, hrest⟩ := Attempt.bind_ok hrest
  rw [Attempt.runFrom_ofExcept] at hinside
  obtain ⟨hbetween, rfl⟩ := Prod.mk.inj hinside
  cases inside with
  | false =>
    obtain ⟨_, _, -, hthrow⟩ := Attempt.bind_ok hrest
    cases hthrow
  | true =>
    cases hrest
    exact ⟨rfl, v, l, u, hload, hlow, hhigh, hbetween⟩

end Program

/-! ## Runs -/

namespace Compiler

/-- A cell that an access to an array fills. -/
def Points (c : Compiler) (a : Int) : Prop :=
  ∃ (k : Nat) (base x : Field), c.quads[k]? = some [.word "ACCESS", base, x, .num a]

/-- The code of a program that has room for its cells. -/
structure IsSound (rs : List Reservation) (bs : List Int) (c : Compiler) : Prop where
  placed : Placed (fun _ => True) rs bs c
  roomy : Roomy rs
  typed : c.IsTyped .done

/-- The code of a program that has room for its cells and raises to no power. -/
structure IsSafe (rs : List Reservation) (bs : List Int) (c : Compiler) :
    Prop extends IsSound rs bs c where
  plain : c.IsPlain

end Compiler

open Compiler

/-- The cells of a machine are typed, at an index where it has been handed the operands that the
code expects, and an index that is about to be used has been checked. -/
structure Live (c : Compiler) (rs : List Reservation) (k : Nat) (m : Machine) : Prop where
  typed : m.IsTyped c.Points rs
  parameters : m.parameters = (Quad.passed c.quads k).map Field.text
  checked : Checked c.quads k m

namespace Compiler.IsSound

variable {regions : List Region} {main : Nat}

/-- Nothing is accessed where a run comes to by a jump, a call or a return. -/
theorem checked_of_mem (h : c.IsSound rs bs) (hk : (k : Int) ∈ bs) : Checked c.quads k m := by
  intro j x base d n hj hver haccess
  obtain ⟨_, _, _, _, _, _, _, -, -, -, -, hnot, -⟩ := (h.placed.quads k _ haccess).of_access
  exact absurd hk hnot

/-- The next quad finds its index checked. -/
theorem checked_succ (h : c.IsSound rs bs) (hp : p.IsOf c) (hm : m.IsTyped c.Points rs)
    (hstep : p.step k m = .next i m') : Checked c.quads (k + 1) m' := by
  intro j x base d n hj hver haccess
  obtain rfl : k = j := by omega
  obtain ⟨rfl, v, l, u, hload, hlow, hhigh, hbetween⟩ :=
    Program.step_verify_ok (hp.quad?_eq_some hver) hstep
  obtain rfl := Text.eq_of_readInteger?_toString hlow
  obtain rfl := Text.eq_of_readInteger?_toString hhigh
  have hx : Stored rs x := (h.placed.quads k _ hver).stored x (by simp [Quad.operands])
  have hgiven : Given rs .int x :=
    .of_isOf hx h.roomy ((h.typed.code.quads k _ hver).tells.verify rfl _ _ rfl)
  obtain ⟨z, rfl⟩ := Value.hasTy_int.1 (hm.memory.load h.roomy hgiven hload)
  exact ⟨z, hload, Routine.between_int hbetween⟩

theorem isFed (h : c.IsSound rs bs) : c.IsFed :=
  h.typed.code.fed

/-- A jump goes to an entry. -/
theorem jump (h : c.IsSound rs bs) (hq : c.quads[k]? = some q) (hjump : q.JumpsTo j) :
    (j : Int) ∈ bs := by
  have hat := h.placed.quads k q hq
  rcases hjump with rfl | ⟨x, rfl⟩
  · exact (hat.shape (by decide)).of_jumpsTo (.inl rfl)
  · exact (hat.shape (by decide)).of_jumpsTo (.inr ⟨x, rfl⟩)

/-- A function starts at an entry, where nothing has been handed over. -/
theorem start (h : c.IsSound rs bs) (hlaid : c.LaidOut regions main) {r : Region}
    (hmem : r ∈ regions) : (r.start : Int) ∈ bs ∧ Quad.passed c.quads r.start = [] := by
  have hhead : (some r.name, (r.start : Int)) ∈ c.heads := by
    rw [hlaid.heads, headsOf]
    exact List.mem_cons_of_mem _ (List.mem_map.2 ⟨r, hmem, rfl⟩)
  obtain ⟨f, hf, heq⟩ := List.mem_map.1 hhead
  refine ⟨?_, h.isFed.start hlaid hmem⟩
  rw [← (Prod.mk.inj heq).2]
  exact h.placed.starts f hf

/-- The operands that have been handed over after a step, which goes to the next quad or to an
entry. -/
theorem passed_move (h : c.IsSound rs bs) (hr : Routed regions main c p) {fs gs : List Region}
    (hstands : Stands regions main c fs k m) (hq : c.quads[k]? = some q)
    (hmoves : Moves regions main c p fs k m gs j m') :
    Quad.passed c.quads j = q.passes?.elim [] (· :: Quad.passed c.quads k) ∧
      (j = k + 1 ∨ (j : Int) ∈ bs) := by
  refine ⟨h.isFed.passed_move hr hstands hq hmoves, ?_⟩
  cases hmoves with
  | stay _ _ _ hgoes => exact hgoes.imp_right fun ⟨_, hq', hjump⟩ => h.jump hq' hjump
  | call hmem => exact .inr (h.start hr.laidOut hmem).1
  | @close r gs f saved records j returns hfs hend hf hrecords hreturns =>
    subst hfs
    have hreturned := hstands.returns
    rw [hreturns] at hreturned
    obtain ⟨⟨j', hj', hgosub, -⟩, -⟩ := hreturned
    obtain rfl := Int.ofNat.inj hj'
    obtain ⟨_, -, hmem, -⟩ := (h.placed.quads j _ hgosub).of_gosub
    exact .inr hmem

end Compiler.IsSound

/-- What a step does. It sets no temporal cells but those that its quad names or that have been
handed over. -/
theorem Compiler.IsSafe.step_effect (h : c.IsSafe rs bs) (hp : p.IsOf c) (hq : c.quads[k]? = some q)
    (hlive : Live c rs k m) :
    m.Changes c.Points (fun a => q.Names a ∨ .num a ∈ Quad.passed c.quads k) rs
      (p.step k m).machine ∧ ∀ j m', p.step k m = .next j m' →
        m'.parameters = (q.passes?.elim [] (· :: Quad.passed c.quads k)).map Field.text := by
  have hargs := Quad.forall_mem_passed (fun i q hq => (h.placed.quads i q hq).stored) k
  refine Program.step_effect h.roomy (h.placed.quads k q hq) (h.typed.code.quads k q hq) hargs
    (fun name ks hsig => ?_) (h.plain.quads k q hq) (fun base x a ha => ⟨k, base, x, ha ▸ hq⟩)
      (fun _ ha => ha) hq
    (hp.quad?_eq_some hq) hlive.checked hlive.typed hlive.parameters
  rw [Program.function?, hp.functions]
  exact hsig.2

namespace Live

variable {regions fs : List Region} {main : Nat}

/-- One step keeps a machine live. -/
theorem step (h : c.IsSafe rs bs) (hr : Routed regions main c p)
    (hstands : Stands regions main c fs k m) (hlive : Live c rs k m) {i : Int}
    (hstep : p.step k m = .next i m') :
    ∃ gs j, i = (j : Nat) ∧ Moves regions main c p fs k m gs j m' ∧ Live c rs j m' := by
  obtain ⟨gs, j, rfl, hmoves⟩ := hstands.moves hr hstep
  obtain ⟨q, hq⟩ := hr.program.step_next hstep
  obtain ⟨hchanges, hparameters⟩ := h.step_effect hr.program hq hlive
  rw [hstep] at hchanges
  obtain ⟨hpassed, hentry⟩ := h.passed_move hr hstands hq hmoves
  refine ⟨gs, j, rfl, hmoves, hchanges.isTyped h.roomy hlive.typed, ?_, ?_⟩
  · rw [hparameters _ _ hstep, hpassed]
  · rcases hentry with rfl | hmem
    · exact h.checked_succ hr.program hlive.typed hstep
    · exact h.checked_of_mem hmem

/-- A step keeps the cells typed, also if it fails. -/
theorem typed_step (h : c.IsSafe rs bs) (hp : p.IsOf c) (hlive : Live c rs k m) :
    (p.step k m).machine.IsTyped c.Points rs := by
  cases hq : c.quads[k]? with
  | none =>
    rw [Program.machine_step_of_none (by rw [hp.quad?, hq]; rfl)]
    exact hlive.typed
  | some q => exact (h.step_effect hp hq hlive).1.isTyped h.roomy hlive.typed

/-- A whole run keeps a machine live. -/
theorem steps (h : c.IsSafe rs bs) (hr : Routed regions main c p)
    (hstands : Stands regions main c fs k m) (hlive : Live c rs k m) {n : Nat}
    (hsteps : p.Steps n k m i m') :
    ∃ gs j, i = (j : Nat) ∧ Stands regions main c gs j m' ∧ Live c rs j m' := by
  have hstep : ∀ {i j m m'}, p.step i m = .next j m' →
      (∃ gs k, i = (k : Nat) ∧ Stands regions main c gs k m ∧ Live c rs k m) →
      ∃ gs k, j = (k : Nat) ∧ Stands regions main c gs k m' ∧ Live c rs k m' := by
    rintro _ j m m' hstep ⟨fs, k, rfl, hstands, hlive⟩
    obtain ⟨gs, j, rfl, hmoves, hlive'⟩ := hlive.step h hr hstands hstep
    exact ⟨gs, j, rfl, hstands.move hr hmoves, hlive'⟩
  exact hsteps.invariant hstep ⟨fs, k, rfl, hstands, hlive⟩

/-- However a run ends, the cells of its machine are typed. -/
theorem run (h : c.IsSafe rs bs) (hr : Routed regions main c p)
    (hstands : Stands regions main c fs k m) (hlive : Live c rs k m) (n : Nat) :
    (p.run n k m).2.IsTyped c.Points rs := by
  induction n generalizing fs k m with
  | zero => exact hlive.typed
  | succ n ih =>
    have htyped := hlive.typed_step h hr.program
    rw [Program.run]
    split
    case h_1 i m' hstep =>
      obtain ⟨gs, j, rfl, hmoves, hlive'⟩ := hlive.step h hr hstands hstep
      exact ih (hstands.move hr hmoves) hlive'
    case h_2 m' hstep | h_3 f m' hstep =>
      rw [hstep] at htyped
      exact htyped

end Live

/-! ## Sources -/

/-- The cells of the constants. -/
theorem Bank.isTyped_ofPools {pools : PerTy Pool} (h : ∀ t, ∀ x ∈ pools.get t, x.1.HasTy t) :
    Bank.IsTyped (Bank.ofPools pools) := by
  have hfold : ∀ (t : Ty) (pool : Pool) (cells : Cells), (∀ x ∈ pool, x.1.HasTy t) →
      (∀ (r : Slot) v, cells[r]? = some v → r.part = 0 ∧ v.HasTy t) →
      ∀ (r : Slot) v, (pool.foldl (fun cells x => cells.put (.ofInt x.2) x.1) cells)[r]? = some v →
        r.part = 0 ∧ v.HasTy t := by
    intro t pool
    induction pool with
    | nil => exact fun cells _ hcells => hcells
    | cons x pool ih =>
      intro cells hpool hcells
      obtain ⟨hx, hpool⟩ := List.forall_mem_cons.1 hpool
      refine ih _ hpool fun r v hv => ?_
      rw [Cells.getElem?_put] at hv
      split at hv
      case isTrue hsame =>
        cases hv
        exact ⟨(Slot.order_eq_iff.1 hsame).2.symm, hx⟩
      case isFalse => exact hcells r v hv
  intro t r v hv
  rw [Bank.ofPools, PerTy.get_ofFn] at hv
  exact hfold t (pools.get t) ∅ (h t) (by simp) r v hv

namespace Compiled

variable {line : Nat} {source : String}

/-- The code of an accepted source that has room for its cells. -/
theorem exists_isSound (h : (ofSource line source).rejection = none) (hroom : HasRoom line source) :
    ∃ rs bs, (ofSource line source).state.IsSound rs bs := by
  obtain ⟨tree, htree, hruns⟩ := exists_runs h
  have htidy := (tree.laidOut hruns).1
  have hpos : Event.Sized tree.events := htree ▸ hroom.sizes
  obtain ⟨rs, hreached⟩ := (Reached.empty (N := fun _ => True) trivial).runs htidy trivial
    (fun _ _ _ => trivial) hpos
  have hroomy := hreached.roomy hroom.fits
  obtain ⟨⟨bs, hplaced, -⟩, -⟩ := hreached
  exact ⟨_, bs, hplaced, hroomy, tree.typed htidy hpos hroom.fits⟩

theorem exists_isSafe (h : (ofSource line source).rejection = none) (hroom : HasRoom line source)
    (hpow : HasNoPower line source) : ∃ rs bs, (ofSource line source).state.IsSafe rs bs := by
  obtain ⟨rs, bs, hsound⟩ := exists_isSound h hroom
  exact ⟨rs, bs, hsound, isPlain h hpow⟩

end Compiled

/-- A machine as it is before the first quad. -/
theorem Live.start (hplain : c.IsPlain) {randoms : Nat → Value}
    (hrandoms : ∀ n, (randoms n).HasTy .dec) (inputs : Array String) :
    Live c rs 0 (({ randoms := randoms } : Machine).prepare (.ofPools c.constants) inputs) := by
  refine ⟨⟨fun s t r v hv => ?_, List.forall_mem_nil _, hrandoms⟩, rfl, ?_⟩
  · cases s with
    | constants =>
      obtain ⟨hpart, hty⟩ := Bank.isTyped_ofPools hplain.constants t r v hv
      exact ⟨hpart, .data (fun hs => by cases hs) hty⟩
    | _ =>
      cases t <;>
        simp [Machine.prepare, Memory.empty, Bank.empty, PerSector.ofFn, PerSector.get, PerTy.ofFn,
          PerTy.get] at hv
  · intro j x base d n hj
    cases hj

/-- Every cell has an integer address and a value of its type. Only the temporal cells that accesses
to arrays fill hold integers whatever their type. -/
def Machine.HoldsTypes (c : Compiler) (m : Machine) : Prop :=
  (∀ s t (r : Slot) (v : Value), ((m.memory.get s).get t)[r]? = some v → r.part = 0 ∧
    (s = .temporals ∧ c.Points r.base → ∃ n, v = .int n) ∧
    (¬(s = .temporals ∧ c.Points r.base) → v.HasTy t)) ∧
  ∀ b ∈ m.records, Bank.IsTyped b

/-- Cells that accesses to arrays fill hold nothing else. -/
theorem Machine.IsTyped.holdsTypes (hm : m.IsTyped c.Points rs) (h : c.IsSafe rs bs) :
    m.HoldsTypes c := by
  refine ⟨fun s t r v hv => ?_, hm.records⟩
  obtain ⟨hpart, hholds⟩ := hm.memory s t r v hv
  refine ⟨hpart, ?_⟩
  cases hholds with
  | data hdata hty =>
    refine ⟨?_, fun _ => hty⟩
    rintro ⟨rfl, k, base, x, hq⟩
    obtain ⟨_, _, _, _, _, _, _, -, -, hrs, -, -, hfs⟩ := (h.placed.quads k _ hq).of_access
    have ha := Field.num.inj (List.cons.inj (List.cons.inj (List.cons.inj hfs).2).2).1
    exact absurd ha ((hdata rfl).ne_pointer h.roomy hrs)
  | pointer hs hrs ha hbase hlo hhi hA =>
    exact ⟨fun _ => ⟨_, rfl⟩, fun hnot => absurd ⟨hs, hA⟩ hnot⟩

/-- In every state of every run of an accepted source without powers that has room for its cells,
every cell holds a value of its type. -/
theorem Compiled.cells_typed {line : Nat} {source : String}
    (h : (ofSource line source).rejection = none) (hroom : HasRoom line source)
    (hpow : HasNoPower line source) {randoms : Nat → Value} (hrandoms : ∀ n, (randoms n).HasTy .dec)
    (inputs : Array String) (limit : Nat) :
    ((ofSource line source).play randoms inputs limit).2.HoldsTypes
      (ofSource line source).state := by
  obtain ⟨rs, bs, hsafe⟩ := exists_isSafe h hroom hpow
  obtain ⟨regions, main, hr, -⟩ := exists_routed h
  have hlive : Live _ rs 0 _ := .start (isPlain h hpow) hrandoms inputs
  exact (hlive.run hsafe hr (Stands.start rfl rfl) limit).holdsTypes hsafe

theorem Compiled.cells_typed_array :
    let source := "program p; dec d[2]; fun int f(int n) { return n; } d[f(1)] = random();"
    (ofSource 1 source).rejection = none ∧ HasRoom 1 source ∧ HasNoPower 1 source ∧
      (∀ n : Nat, ((fun _ => .dec 0.5 : Nat → Value) n).HasTy .dec) ∧
      ∀ inputs limit, ((ofSource 1 source).play (fun _ => .dec 0.5) inputs limit).2.HoldsTypes
        (ofSource 1 source).state := by
  intro source
  refine ⟨?accepted, ?room, ?power, ?randoms, cells_typed ?accepted ?room ?power ?randoms⟩
  case randoms => exact fun _ => trivial
  all_goals decide +kernel

end Symphony
