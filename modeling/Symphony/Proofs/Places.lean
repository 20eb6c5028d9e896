import Mathlib.Data.List.Nodup
import Symphony.Proofs.Layout

/-!
# Where values stand

Addresses are handed out one reservation after the other. Whatever the compiler holds, be it an
operand, a variable, a result or a field of a quad, stands for a cell that was handed out before
(`Given`), and every quad has one of a few shapes (`Quad.Shape`).

**Theorem (`Acts.placed`).** Every event keeps this, with the reservations of the event added.

The history of reservations only grows, so what was given once stays given. So does the list of
entries: indices to which a run may come other than from the quad before. An element of an array is
only accessed right after its index has been checked, and such an access is no entry.
-/

namespace Symphony

variable {rs ss : List Reservation} {e : Event} {i : Nat} {t : Ty} {q : Quad} {isGlobal : Bool}
  {k : Kind} {o : Operand} {v : Variable} {N : Scope → Prop} {bs : List Int} {d : Declaration}
  {ds : List Declaration} {f : Function}

/-- Addresses that are handed out together. -/
structure Reservation where
  sector : Sector
  ty : Ty
  size : Int
  /-- Whether the cell will hold the address of an array element. -/
  isPointer : Bool

namespace Counters

/-- The next free address of a region. -/
def next (k : Counters) (s : Sector) (t : Ty) : Int :=
  (k.get s).get t

def reserve (k : Counters) (r : Reservation) : Counters :=
  k.set r.sector ((k.get r.sector).set r.ty (k.next r.sector r.ty + r.size))

/-- The counters after reservations. -/
def after (rs : List Reservation) : Counters :=
  rs.foldl reserve .initial

theorem after_append (rs : List Reservation) (r : Reservation) :
    after (rs ++ [r]) = (after rs).reserve r := by
  simp [after]

end Counters

/-- A reservation of one cell, as an operand of its type. -/
inductive Given (rs : List Reservation) : Ty → Field → Prop
  | num {before later : List Reservation} {s : Sector} {t : Ty} :
      rs = before ++ ⟨s, t, 1, false⟩ :: later →
        Given rs t (.num ((Counters.after before).next s t))
  | pointer {before later : List Reservation} {t : Ty} :
      rs = before ++ ⟨.temporals, t, 1, true⟩ :: later →
      Given rs t (.pointer ((Counters.after before).next .temporals t))

/-- A reservation of several cells, as an array. -/
inductive GivenArray (rs : List Reservation) : Ty → Int → Int → Prop
  | mk {before later : List Reservation} {s : Sector} {t : Ty} {n : Int} :
      s ≠ .temporals → rs = before ++ ⟨s, t, n, false⟩ :: later →
      GivenArray rs t n ((Counters.after before).next s t)

theorem Given.mono {f : Field} (h : Given rs t f) (ss : List Reservation) :
    Given (rs ++ ss) t f := by
  cases h with
  | num h => exact .num (by rw [h, List.append_assoc, List.cons_append])
  | pointer h => exact .pointer (by rw [h, List.append_assoc, List.cons_append])

theorem GivenArray.mono {n a : Int} (h : GivenArray rs t n a) (ss : List Reservation) :
    GivenArray (rs ++ ss) t n a := by
  cases h with
  | mk hs h => exact .mk hs (by rw [h, List.append_assoc, List.cons_append])

/-- An operand of some type. -/
def Stored (rs : List Reservation) (f : Field) : Prop :=
  ∃ t, Given rs t f

theorem Stored.mono {f : Field} (h : Stored rs f) (ss : List Reservation) : Stored (rs ++ ss) f :=
  h.imp fun _ h => h.mono ss

theorem Kind.ty?_eq_of_agrees {l : Kind} (h : k.agrees l = true) : k.ty? = l.ty? := by
  rw [agrees, beq_iff_eq] at h
  rw [ty?, ty?, h]

theorem Kind.row?_of_ty? (h : k.ty? = some t) : k.row? = some t := by
  unfold ty? at h
  unfold row?
  split at h
  case isTrue hk => rw [if_pos hk, h]
  case isFalse => cases h

/-- Increment and decrement keep the type. -/
theorem UnOp.eq_of_result?_of_updates {o : UnOp} {u : Ty} (ho : o.updatesOperand = true)
    (h : o.result? t = some u) : u = t := by
  cases o <;> cases t <;> simp_all [UnOp.updatesOperand, UnOp.result?, Ty.unaryRow, UnOp.column]

/-- An operand is in a cell of its type. What an operand that is an array stands for is never
used. -/
def Operand.IsGiven (rs : List Reservation) (o : Operand) : Prop :=
  o.kind = .array ∨ ∃ t, o.kind.ty? = some t ∧ Given rs t o.place

namespace Operand.IsGiven

theorem mono (h : o.IsGiven rs) (ss : List Reservation) : o.IsGiven (rs ++ ss) :=
  h.imp_right fun ⟨t, ht, hg⟩ => ⟨t, ht, hg.mono ss⟩

theorem of_row? (h : o.IsGiven rs) (ht : o.kind.row? = some t) : Given rs t o.place := by
  rcases h with h | ⟨u, hu, hg⟩
  · rw [h] at ht
    cases ht
  · rw [Kind.row?_of_ty? hu] at ht
    obtain rfl := Option.some.inj ht
    exact hg

theorem of_ty? (h : o.IsGiven rs) (ht : o.kind.ty? = some t) : Given rs t o.place :=
  h.of_row? (Kind.row?_of_ty? ht)

theorem of_agrees (h : o.IsGiven rs) (hk : o.kind.agrees k = true) (ht : k.ty? = some t) :
    Given rs t o.place :=
  h.of_ty? (by rw [Kind.ty?_eq_of_agrees hk, ht])

end Operand.IsGiven

/-- A variable is a cell of its type, or an array of cells. -/
def Variable.IsGiven (rs : List Reservation) (v : Variable) : Prop :=
  match v.elements with
  | none => ∃ t, v.kind.ty? = some t ∧ Given rs t (.num v.address)
  | some (k, n) => v.kind = .array ∧ ∃ t, k.ty? = some t ∧ GivenArray rs t n v.address

namespace Variable.IsGiven

theorem mono (h : v.IsGiven rs) (ss : List Reservation) : v.IsGiven (rs ++ ss) := by
  unfold Variable.IsGiven at h ⊢
  split at h
  · exact h.imp fun t ⟨ht, hg⟩ => ⟨ht, hg.mono ss⟩
  · exact ⟨h.1, h.2.imp fun t ⟨ht, hg⟩ => ⟨ht, hg.mono ss⟩⟩

/-- A variable as an operand. -/
theorem operand (h : v.IsGiven rs) : Operand.IsGiven rs ⟨v.kind, .num v.address⟩ := by
  unfold Variable.IsGiven at h
  split at h
  · exact .inr h
  · exact .inl h.1

theorem of_elements (h : v.IsGiven rs) {n : Int} (hv : v.elements = some (k, n))
    (hk : k.ty? = some t) : GivenArray rs t n v.address := by
  rw [Variable.IsGiven, hv] at h
  obtain ⟨-, u, hu, hg⟩ := h
  rw [hk] at hu
  obtain rfl := Option.some.inj hu
  exact hg

/-- What is no array is one cell. -/
theorem of_scalar (h : v.IsGiven rs) (hv : v.kind.agrees .array = false) :
    ∃ t, v.kind.ty? = some t ∧ Given rs t (.num v.address) := by
  unfold Variable.IsGiven at h
  split at h
  · exact h
  · rw [h.1] at hv
    cases hv

end Variable.IsGiven

/-! ## Quads -/

/-- What the quads of a program look like, in terms of their operands, of the names of functions and
of the targets of jumps. Calls and accesses to arrays are left to `Quad.At`. -/
inductive Quad.Shape (P : Field → Prop) (N : Scope → Prop) (T : Int → Prop) : Quad → Prop
  | binary (o : BinOp) {l r d : Field} : P l → P r → P d → Shape P N T [.word o.symbol, l, r, d]
  | unary (o : UnOp) {x d : Field} : P x → P d → Shape P N T [.word o.mnemonic, x, d]
  | copy {fs : List Field} : (∀ f ∈ fs, P f) → Shape P N T (.word "=" :: fs)
  | verify {x : Field} (n : Int) : P x → Shape P N T [.word "VER", x, .num 0, .num n]
  | param {x : Field} {i : Int} : P x → Shape P N T [.word "PARAM", x, .num i]
  | special {name : String} {s : Special.Signature} {fs : List Field} :
      Special.signature? name = some s → (∀ f ∈ fs, P f) → Shape P N T (.word name :: fs)
  | endproc {f : Scope} : N f → Shape P N T [.word "ENDPROC", .word f.text]
  | goto {ts : List Int} : (∀ t ∈ ts, T t) → Shape P N T (.word "GOTO" :: ts.map .num)
  | gotof {x : Field} {ts : List Int} :
      P x → (∀ t ∈ ts, T t) → Shape P N T (.word "GOTOF" :: x :: ts.map .num)

/-- What stands at an index of a program. -/
inductive Quad.At (N : Scope → Prop) (rs : List Reservation) (bs : List Int) (qs : Array Quad)
    (i : Nat) : Quad → Prop
  | plain {q : Quad} : q.Shape (Stored rs) N (· ∈ bs) → At N rs bs qs i q
  | gosub {name : String} :
      N (some name) → ((i + 1 : Nat) : Int) ∈ bs → At N rs bs qs i [.word "GOSUB", .word name]
  | access {j : Nat} {x : Field} {t : Ty} {n base : Int} {before later : List Reservation} :
      i = j + 1 → qs[j]? = some [.word "VER", x, .num 0, .num n] → Stored rs x →
      rs = before ++ ⟨.temporals, t, 1, true⟩ :: later → GivenArray before t n base →
        (i : Int) ∉ bs →
      At N rs bs qs i
        [.word "ACCESS", .num base, x, .num ((Counters.after before).next .temporals t)]

namespace Quad

variable {P P' : Field → Prop} {N' : Scope → Prop} {T T' : Int → Prop} {qs : Array Quad}
  {fs : List Field}

theorem Shape.mono (h : q.Shape P N T) (hP : ∀ f, P f → P' f) (hN : ∀ s, N s → N' s)
    (hT : ∀ t, T t → T' t) : q.Shape P' N' T' := by
  cases h with
  | binary o h₁ h₂ h₃ => exact .binary o (hP _ h₁) (hP _ h₂) (hP _ h₃)
  | unary o h₁ h₂ => exact .unary o (hP _ h₁) (hP _ h₂)
  | copy h => exact .copy fun f hf => hP f (h f hf)
  | verify n h => exact .verify n (hP _ h)
  | param h => exact .param (hP _ h)
  | special hs h => exact .special hs fun f hf => hP f (h f hf)
  | endproc h => exact .endproc (hN _ h)
  | goto h => exact .goto fun t ht => hT t (h t ht)
  | gotof h h' => exact .gotof (hP _ h) fun t ht => hT t (h' t ht)

theorem Shape.goto_nil : Shape P N T [.word "GOTO"] :=
  .goto (List.forall_mem_nil _)

theorem Shape.goto_singleton {t : Int} (ht : T t) : Shape P N T [.word "GOTO", .num t] :=
  .goto (List.forall_mem_singleton.2 ht)

theorem Shape.gotof_nil {x : Field} (hx : P x) : Shape P N T [.word "GOTOF", x] :=
  .gotof hx (List.forall_mem_nil _)

/-- What the first word of a quad tells about its other fields. -/
structure Tells (P : Field → Prop) (T : Int → Prop) (w : String) (fs : List Field) : Prop where
  goto : w = "GOTO" → ∃ ts : List Int, (∀ t ∈ ts, T t) ∧ fs = ts.map .num
  gotof : w = "GOTOF" → ∃ x, P x ∧ ∃ ts : List Int, (∀ t ∈ ts, T t) ∧ fs = x :: ts.map .num
  copy : w = "=" → ∀ f ∈ fs, P f
  endproc : w = "ENDPROC" → ∃ f : Scope, fs = [.word f.text]
  -- calls and accesses have no shape
  ne_gosub : w ≠ "GOSUB"
  ne_access : w ≠ "ACCESS"

theorem Shape.tells {w : String} (h : Shape P N T (.word w :: fs)) : Tells P T w fs := by
  generalize hq : Field.word w :: fs = q at h
  cases h with
  | binary o =>
    cases hq
    constructor <;> cases o <;> simp [BinOp.symbol]
  | unary o =>
    cases hq
    constructor <;> cases o <;> simp [UnOp.mnemonic]
  | special hs =>
    cases hq
    constructor <;> (rintro rfl; simp [Special.signature?] at hs)
  | copy hfs =>
    cases hq
    constructor <;> first | exact fun _ => hfs | simp
  | goto hts =>
    cases hq
    constructor <;> first | exact fun _ => ⟨_, hts, rfl⟩ | simp
  | gotof hx hts =>
    cases hq
    constructor <;> first | exact fun _ => ⟨_, hx, _, hts, rfl⟩ | simp
  | verify | param | endproc =>
    cases hq
    constructor <;> simp

/-- What stands at an index stays what it is as long as checks of array indices do. -/
theorem At.mono {rs' : List Reservation} {bs' : List Int} {qs' : Array Quad} (h : q.At N rs bs qs i)
    (hrs : ∃ ss, rs' = rs ++ ss) (hbs : ∀ b ∈ bs, b ∈ bs') (hi : (i : Int) ∈ bs' → (i : Int) ∈ bs)
    (hqs : ∀ (j : Nat) (x : Field) (n : Int), qs[j]? = some [.word "VER", x, .num 0, .num n] →
      qs'[j]? = some [.word "VER", x, .num 0, .num n]) : q.At N rs' bs' qs' i := by
  obtain ⟨ss, rfl⟩ := hrs
  cases h with
  | plain h => exact .plain (h.mono (fun _ hf => hf.mono ss) (fun _ hs => hs) hbs)
  | gosub hf hb => exact .gosub hf (hbs _ hb)
  | access hj hver hx hrs hbase hb =>
    exact .access hj (hqs _ _ _ hver) (hx.mono ss)
      (by rw [hrs, List.append_assoc, List.cons_append])
      hbase fun h => hb (hi h)

theorem At.weaken (h : q.At N rs bs qs i) (hN : ∀ s, N s → N' s) : q.At N' rs bs qs i := by
  cases h with
  | plain h => exact .plain (h.mono (fun _ hf => hf) hN fun _ ht => ht)
  | gosub hf hb => exact .gosub (hN _ hf) hb
  | access hj hver hx hrs hbase hb => exact .access hj hver hx hrs hbase hb

/-- All quads but calls and accesses are told by their shape. -/
theorem At.shape {w : String} (h : Quad.At N rs bs qs i (.word w :: fs))
    (hw : w ≠ "GOSUB" ∧ w ≠ "ACCESS") : Shape (Stored rs) N (· ∈ bs) (.word w :: fs) := by
  generalize hq : Field.word w :: fs = q at h
  cases h with
  | plain h => exact h
  | gosub => exact absurd (Field.word.inj (List.cons.inj hq).1) hw.1
  | access => exact absurd (Field.word.inj (List.cons.inj hq).1) hw.2

/-- An access to an array follows the check of its index, and fills the cell of a pointer. -/
theorem At.of_access {k : Nat} (h : Quad.At N rs bs qs k (.word "ACCESS" :: fs)) :
    ∃ j x t n base before later, k = j + 1 ∧ qs[j]? = some [.word "VER", x, .num 0, .num n] ∧
      rs = before ++ ⟨.temporals, t, 1, true⟩ :: later ∧ GivenArray before t n base ∧
        (k : Int) ∉ bs ∧
      fs = [.num base, x, .num ((Counters.after before).next .temporals t)] := by
  generalize hq : Field.word "ACCESS" :: fs = q at h
  cases h with
  | plain h =>
    rw [← hq] at h
    exact absurd rfl h.tells.ne_access
  | gosub => simp at hq
  | access hj hver _ hrs hbase hk =>
    exact ⟨_, _, _, _, _, _, _, hj, hver, hrs, hbase, hk, (List.cons.inj hq).2⟩

/-- Every quad starts with a word. -/
theorem At.exists_word (h : q.At N rs bs qs i) : ∃ w fs, q = .word w :: fs := by
  cases h with
  | plain h => cases h <;> exact ⟨_, _, rfl⟩
  | gosub | access => exact ⟨_, _, rfl⟩

/-- A jump, with or without targets. -/
def IsJump (P : Field → Prop) (T : Int → Prop) (q : Quad) : Prop :=
  (∃ ts : List Int, (∀ t ∈ ts, T t) ∧ q = .word "GOTO" :: ts.map .num) ∨
    ∃ x, ∃ ts : List Int, P x ∧ (∀ t ∈ ts, T t) ∧ q = .word "GOTOF" :: x :: ts.map .num

/-- A copy, complete or not. -/
def IsCopyOf (P : Field → Prop) (q : Quad) : Prop :=
  ∃ fs, (∀ f ∈ fs, P f) ∧ q = .word "=" :: fs

theorem IsJump.shape (h : q.IsJump P T) : q.Shape P N T := by
  rcases h with ⟨ts, hts, rfl⟩ | ⟨x, ts, hx, hts, rfl⟩
  · exact .goto hts
  · exact .gotof hx hts

theorem IsCopyOf.shape (h : q.IsCopyOf P) : q.Shape P N T := by
  obtain ⟨fs, hfs, rfl⟩ := h
  exact .copy hfs

theorem IsJump.append (h : q.IsJump P T) {t : Int} (ht : T t) : IsJump P T (q ++ [.num t]) := by
  have hall : ∀ ts : List Int, (∀ t ∈ ts, T t) → ∀ u ∈ ts ++ [t], T u := by
    intro ts hts u hu
    rcases List.mem_append.1 hu with hu | hu
    · exact hts u hu
    · rw [List.mem_singleton.1 hu]
      exact ht
  rcases h with ⟨ts, hts, rfl⟩ | ⟨x, ts, hx, hts, rfl⟩
  · exact .inl ⟨ts ++ [t], hall ts hts, by simp⟩
  · exact .inr ⟨x, ts ++ [t], hx, hall ts hts, by simp⟩

theorem IsJump.ne_verify (h : q.IsJump P T) (x : Field) (n : Int) :
    q ≠ [.word "VER", x, .num 0, .num n] := by
  rcases h with ⟨ts, -, rfl⟩ | ⟨y, ts, -, -, rfl⟩ <;> simp

theorem IsCopyOf.ne_verify (h : q.IsCopyOf P) (x : Field) (n : Int) :
    q ≠ [.word "VER", x, .num 0, .num n] := by
  obtain ⟨fs, -, rfl⟩ := h
  simp

end Quad

/-! ## States of the compiler -/

namespace Compiler

variable {c c' : Compiler}

/-- All that the compiler holds has been handed out, and all jumps go to entries. -/
structure Placed (N : Scope → Prop) (rs : List Reservation) (bs : List Int) (c : Compiler) :
    Prop where
  counters : c.counters = Counters.after rs
  operands : ∀ o ∈ c.operands, o.IsGiven rs
  arguments : ∀ o ∈ c.arguments, o.IsGiven rs
  called : ∀ s ∈ c.called, s ≠ none
  offset : ∀ o, c.offset = some o → o.IsGiven rs
  results : ∀ f ∈ c.functions, ∀ p, f.returnPlace = some p →
    ∃ k t, f.result = some k ∧ k.ty? = some t ∧ Given rs t p
  kinds : ∀ f ∈ c.functions, ∀ k, f.result = some k ∨ k ∈ f.parameterKinds → ∃ t, k.ty? = some t
  declared : ∀ f ∈ c.functions, ∀ v ∈ f.declared, v.IsGiven rs
  selfCalls : ∀ p ∈ c.selfCalls, Stored rs (.num p.2)
  constants : ∀ t, ∀ e ∈ c.constants.get t, Given rs t (.num e.2)
  quads : ∀ (i : Nat) (q : Quad), c.quads[i]? = some q → q.At N rs bs c.quads i
  bound : ∀ b ∈ bs, b ≤ c.quads.size
  jumps : ∀ i ∈ c.jumps, (i : Int) ∈ bs
  starts : ∀ f ∈ c.functions, f.start ∈ bs
  names : ∀ f ∈ c.functions, N f.name
  nodup : (c.functions.map Function.name).Nodup
  scope : N c.scope

namespace Placed

/-- More reservations are made. -/
theorem reserve (h : Placed N rs bs c) (s : Sector) (t : Ty) (n : Int) (isPointer : Bool) :
    Placed N (rs ++ [⟨s, t, n, isPointer⟩]) bs (c.reserve s t n) where
  counters := by
    rw [Counters.after_append, ← h.counters]
    rfl
  operands o ho := (h.operands o ho).mono _
  arguments o ho := (h.arguments o ho).mono _
  called := h.called
  offset o ho := (h.offset o ho).mono _
  results f hf p hp := by
    obtain ⟨k, t, hk, ht, hg⟩ := h.results f hf p hp
    exact ⟨k, t, hk, ht, hg.mono _⟩
  kinds := h.kinds
  declared f hf v hv := (h.declared f hf v hv).mono _
  selfCalls p hp := (h.selfCalls p hp).mono _
  constants t e he := (h.constants t e he).mono _
  quads i q hq := (h.quads i q hq).mono ⟨_, rfl⟩ (fun _ hb => hb) id fun _ _ _ h => h
  bound := h.bound
  jumps := h.jumps
  starts := h.starts
  names := h.names
  nodup := h.nodup
  scope := h.scope

/-- More names are known. -/
theorem weaken {N' : Scope → Prop} (h : Placed N rs bs c) (hN : ∀ s, N s → N' s) :
    Placed N' rs bs c :=
  { h with
    quads := fun i q hq => (h.quads i q hq).weaken hN
    names := fun f hf => hN _ (h.names f hf)
    scope := hN _ h.scope }

/-- The next index becomes an entry. -/
theorem mark (h : Placed N rs bs c) : Placed N rs ((c.quads.size : Int) :: bs) c where
  counters := h.counters
  operands := h.operands
  arguments := h.arguments
  called := h.called
  offset := h.offset
  results := h.results
  kinds := h.kinds
  declared := h.declared
  selfCalls := h.selfCalls
  constants := h.constants
  quads i q hq := by
    have hlt := (Array.getElem?_eq_some_iff.1 hq).1
    refine (h.quads i q hq).mono ⟨[], by rw [List.append_nil]⟩ (fun _ => List.mem_cons_of_mem _)
      (fun hi => ?_) fun _ _ _ h => h
    rcases List.mem_cons.1 hi with hi | hi
    · omega
    · exact hi
  bound b hb := by
    rcases List.mem_cons.1 hb with rfl | hb
    · exact Int.le_refl _
    · exact h.bound b hb
  jumps i hi := List.mem_cons_of_mem _ (h.jumps i hi)
  starts f hf := List.mem_cons_of_mem _ (h.starts f hf)
  names := h.names
  nodup := h.nodup
  scope := h.scope

theorem given_next (h : Placed N rs bs c) (s : Sector) (t : Ty) :
    Given (rs ++ [⟨s, t, 1, false⟩]) t (.num (c.next s t)) := by
  have hg : Given (rs ++ [⟨s, t, 1, false⟩]) t (.num ((Counters.after rs).next s t)) := .num rfl
  rwa [← h.counters] at hg

theorem given_pointer (h : Placed N rs bs c) (t : Ty) :
    Given (rs ++ [⟨.temporals, t, 1, true⟩]) t (.pointer (c.next .temporals t)) := by
  have hg : Given (rs ++ [⟨.temporals, t, 1, true⟩]) t
      (.pointer ((Counters.after rs).next .temporals t)) := .pointer rfl
  rwa [← h.counters] at hg

theorem given_array (h : Placed N rs bs c) {s : Sector} (hs : s ≠ .temporals) (t : Ty) (n : Int) :
    GivenArray (rs ++ [⟨s, t, n, false⟩]) t n (c.next s t) := by
  have hg : GivenArray (rs ++ [⟨s, t, n, false⟩]) t n ((Counters.after rs).next s t) := .mk hs rfl
  rwa [← h.counters] at hg

/-- A quad is emitted, and perhaps the index after it becomes an entry. -/
theorem emitAt (h : Placed N rs bs c) {bs' : List Int} (hbs : ∀ b ∈ bs, b ∈ bs')
    (hnew : ∀ b ∈ bs', b ∈ bs ∨ b = (c.quads.size + 1 : Nat))
    (hq : q.At N rs bs' (c.quads.push q) c.quads.size) : Placed N rs bs' (c.emit q) :=
  { h with
    quads := fun i q' hq' => by
      rw [Compiler.emit, Array.getElem?_push] at hq'
      split at hq'
      case isTrue hi =>
        cases hq'
        rw [hi]
        exact hq
      case isFalse hi =>
        have hlt := (Array.getElem?_eq_some_iff.1 hq').1
        refine (h.quads i q' hq').mono ⟨[], by rw [List.append_nil]⟩ hbs (fun hi => ?_)
          fun _ _ _ hver => getElem?_of_append Array.toList_push hver
        rcases hnew _ hi with hi | hi
        · exact hi
        · omega
    bound := fun b hb => by
      rw [Compiler.emit, Array.size_push]
      rcases hnew b hb with hb | rfl
      · have := h.bound b hb
        omega
      · exact Int.le_refl _
    jumps := fun i hi => hbs _ (h.jumps i hi)
    starts := fun f hf => hbs _ (h.starts f hf) }

theorem emit (h : Placed N rs bs c) (hq : q.Shape (Stored rs) N (· ∈ bs)) :
    Placed N rs bs (c.emit q) :=
  h.emitAt (fun _ hb => hb) (fun _ => .inl) (.plain hq)

theorem emitAll (h : Placed N rs bs c) {qs : List Quad}
    (hqs : ∀ q ∈ qs, q.Shape (Stored rs) N (· ∈ bs)) : Placed N rs bs (c.emitAll qs) := by
  induction qs generalizing c with
  | nil => simpa [Compiler.emitAll] using h
  | cons q qs ih =>
    have hcons : c.emitAll (q :: qs) = (c.emit q).emitAll qs := by
      simp [Compiler.emitAll, Compiler.emit]
    rw [hcons]
    exact ih (h.emit (hqs q (by simp))) fun q' hq' => hqs q' (by simp [hq'])

theorem push (h : Placed N rs bs c) (ho : o.IsGiven rs) : Placed N rs bs (c.push o) :=
  { h with
    operands := fun o' ho' => by
      rcases List.mem_cons.1 ho' with rfl | ho'
      exacts [ho, h.operands o' ho'] }

/-- Operands are taken from the stack. -/
theorem withOperands (h : Placed N rs bs c) {os : List Operand} (hos : ∀ o ∈ os, o ∈ c.operands) :
    Placed N rs bs { c with operands := os } :=
  { h with operands := fun o ho => h.operands o (hos o ho) }

theorem top (h : Placed N rs bs c) {x : Operand} {rest : List Operand}
    (hx : c.operands = x :: rest) :
    x.IsGiven rs :=
  h.operands x (by simp [hx])

theorem pop (h : Placed N rs bs c) {x : Operand} {rest : List Operand}
    (hx : c.operands = x :: rest) :
    Placed N rs bs { c with operands := rest } :=
  h.withOperands fun o ho => by simp [hx, ho]

theorem point (h : Placed N rs bs c) {base n : Int} {t : Ty} {index : Field}
    (hbase : GivenArray rs t n base) (hindex : Stored rs index) :
    Placed N (rs ++ [⟨.temporals, t, 1, true⟩]) bs (c.point base n t index) := by
  have h₁ := (h.emit (.verify n hindex)).reserve .temporals t 1 true
  have hnext : c.next .temporals t = (Counters.after rs).next .temporals t := by
    rw [← h.counters]
    rfl
  rw [Compiler.point, hnext]
  refine h₁.emitAt (fun _ hb => hb) (fun _ => .inl)
    (.access (j := c.quads.size) (n := n) ?_ ?_ (hindex.mono _) rfl hbase ?_)
  · simp [Compiler.emit, Compiler.reserve]
  · simp only [Compiler.emit, Compiler.reserve, Array.getElem?_push, Array.size_push]
    simp
  · intro hmem
    have := h.bound _ hmem
    simp only [Compiler.emit, Compiler.reserve, Array.size_push] at this
    omega

theorem passing (i : Nat) {xs : List Operand} (hxs : ∀ x ∈ xs, Stored rs x.place) :
    ∀ q ∈ Compiler.passing i xs, q.Shape (Stored rs) N (· ∈ bs) := by
  induction xs generalizing i with
  | nil => simp [Compiler.passing]
  | cons x xs ih =>
    intro q hq
    rcases List.mem_cons.1 hq with rfl | hq
    · exact .param (hxs x (by simp))
    · exact ih (i + 1) (fun y hy => hxs y (by simp [hy])) q hq

theorem popCalled (h : Placed N rs bs c) {name : Scope} {rest : List Scope}
    (hcalled : c.called = name :: rest) : Placed N rs bs { c with called := rest } :=
  { h with called := fun s hs => h.called s (by simp [hcalled, hs]) }

/-- A call is emitted; the index after it becomes an entry. -/
theorem enterFunction (h : Placed N rs bs c) {name : Scope} (hname : N name) {rest : List Scope}
    (hcalled : c.called = name :: rest) (hargs : ∀ x ∈ c.arguments, Stored rs x.place) :
    Placed N rs (((c.enterFunction name rest).quads.size : Int) :: bs)
      (c.enterFunction name rest) := by
  obtain ⟨name, rfl⟩ := Option.ne_none_iff_exists'.1 (h.called name (by simp [hcalled]))
  have h₁ := h.popCalled hcalled
  have h₂ := h₁.emitAll (passing 1 hargs)
  have hsize : (c.enterFunction (some name) rest).quads.size =
      ({ c with called := rest }.emitAll (Compiler.passing 1 c.arguments)).quads.size + 1 := by
    simp [Compiler.enterFunction, Compiler.emit]
  rw [hsize]
  have h₃ := h₂.emitAt (q := [.word "GOSUB", .word name]) (fun _ => List.mem_cons_of_mem _)
    (fun b hb => (List.mem_cons.1 hb).symm) (.gosub hname List.mem_cons_self)
  exact { h₃ with arguments := fun o ho => absurd ho List.not_mem_nil }

/-- The current function is changed. -/
theorem updateCurrent (h : Placed N rs bs c) {change : Function → Function}
    (hname : ∀ f, (change f).name = f.name) (hstart : ∀ f, (change f).start = f.start)
    (hresult : ∀ f ∈ c.functions, f.name = c.scope → ∀ p, (change f).returnPlace = some p →
      ∃ k t, (change f).result = some k ∧ k.ty? = some t ∧ Given rs t p)
    (hkinds : ∀ f ∈ c.functions, ∀ k, (change f).result = some k ∨ k ∈ (change f).parameterKinds →
      ∃ t, k.ty? = some t)
    (hdeclared : ∀ f ∈ c.functions, ∀ v ∈ (change f).declared, v.IsGiven rs) :
    Placed N rs bs (c.updateCurrent change) := by
  have hmem : ∀ g ∈ (c.updateCurrent change).functions, g ∈ c.functions ∨
      ∃ f ∈ c.functions, f.name = c.scope ∧ g = change f := by
    intro g hg
    obtain ⟨f, hf, rfl⟩ := List.mem_map.1 hg
    split
    case isTrue hscope => exact .inr ⟨f, hf, hscope, rfl⟩
    case isFalse => exact .inl hf
  refine { h with
    results := ?_, kinds := ?_, declared := ?_, starts := ?_, names := ?_, nodup := ?_ }
  · intro g hg p hp
    rcases hmem g hg with hg | ⟨f, hf, hscope, rfl⟩
    exacts [h.results g hg p hp, hresult f hf hscope p hp]
  · intro g hg k hk
    rcases hmem g hg with hg | ⟨f, hf, -, rfl⟩
    exacts [h.kinds g hg k hk, hkinds f hf k hk]
  · intro g hg v hv
    rcases hmem g hg with hg | ⟨f, hf, -, rfl⟩
    exacts [h.declared g hg v hv, hdeclared f hf v hv]
  · intro g hg
    rcases hmem g hg with hg | ⟨f, hf, -, rfl⟩
    · exact h.starts g hg
    · rw [hstart]
      exact h.starts f hf
  · intro g hg
    rcases hmem g hg with hg | ⟨f, hf, -, rfl⟩
    · exact h.names g hg
    · rw [hname]
      exact h.names f hf
  · have hmap : (c.updateCurrent change).functions.map Function.name =
        c.functions.map Function.name := by
      rw [Compiler.updateCurrent, List.map_map]
      refine List.map_congr_left fun f _ => ?_
      rw [Function.comp_apply]
      split
      · exact hname f
      · rfl
    rw [hmap]
    exact h.nodup

theorem markFirst (h : Placed N rs bs c) : Placed N rs bs c.markFirst :=
  h.updateCurrent (fun _ => rfl) (fun _ => rfl) (fun f hf _ => h.results f hf) h.kinds h.declared

theorem addVariable (h : Placed N rs bs c) (hv : v.IsGiven rs) :
    Placed N rs bs (c.addVariable v) := by
  refine h.updateCurrent (fun _ => rfl) (fun _ => rfl) (fun f hf _ => h.results f hf) h.kinds
    fun f hf w hw => ?_
  rcases List.mem_append.1 hw with hw | hw
  · exact h.declared f hf w hw
  · rw [List.mem_singleton.1 hw]
    exact hv

/-- Fields are added to a quad that may take them and that checks no index. -/
theorem complete (h : Placed N rs bs c) {fs : List Field}
    (hi : ∀ q, c.quads[i]? = some q → Quad.Shape (Stored rs) N (· ∈ bs) (q ++ fs) ∧
      ∀ x n, q ≠ [.word "VER", x, .num 0, .num n]) : Placed N rs bs (c.complete i fs) := by
  refine { h with quads := fun j q hq => ?_, bound := by simpa using h.bound }
  rw [Compiler.complete, Array.getElem?_modify] at hq
  split at hq
  case isTrue hij =>
    obtain ⟨q', hq', rfl⟩ := Option.map_eq_some_iff.1 hq
    exact .plain (hi q' (hij ▸ hq')).1
  case isFalse hij =>
    refine (h.quads j q hq).mono ⟨[], by rw [List.append_nil]⟩ (fun _ hb => hb) id
      fun k x n hver => ?_
    have hne : i ≠ k := by
      rintro rfl
      exact (hi _ hver).2 x n rfl
    rw [Compiler.complete, Array.getElem?_modify, if_neg hne, hver]

/-- Fields are added to quads of a sort that stays the same. -/
theorem completeAll {R : Quad → Prop} (hR : ∀ q, R q → q.Shape (Stored rs) N (· ∈ bs))
    (hver : ∀ q, R q → ∀ x n, q ≠ [.word "VER", x, .num 0, .num n]) (h : Placed N rs bs c)
    {ps : List (Nat × List Field)} (hps : ∀ p ∈ ps, ∀ q, c.quads[p.1]? = some q → R q)
    (hstep : ∀ p ∈ ps, ∀ q, R q → R (q ++ p.2)) : Placed N rs bs (c.completeAll ps) := by
  induction ps generalizing c with
  | nil => exact h
  | cons p ps ih =>
    have hp : ∀ q, c.quads[p.1]? = some q → R q := hps p (by simp)
    refine ih (c := c.complete p.1 p.2)
      (h.complete fun q hq => ⟨hR _ (hstep p (by simp) q (hp q hq)), hver q (hp q hq)⟩)
      (fun p' hp' q hq => ?_) fun p' hp' => hstep p' (by simp [hp'])
    rw [Compiler.complete, Array.getElem?_modify] at hq
    split at hq
    case isTrue hpp' =>
      obtain ⟨q', hq', rfl⟩ := Option.map_eq_some_iff.1 hq
      exact hstep p (by simp) q' (hp q' (hpp' ▸ hq'))
    case isFalse => exact hps p' (by simp [hp']) q hq

end Placed

/-! ## Actions -/

theorem Operates.placed {op : String} {l r : Operand} (ho : Operates op l r c o c')
    (h : Placed N rs bs c) (hl : l.IsGiven rs) (hr : r.IsGiven rs) :
    ∃ ss, Placed N (rs ++ ss) bs c' ∧ o.IsGiven (rs ++ ss) ∧ ∀ s ∈ ss, s.size = 1 := by
  cases ho with
  | @mk b _ _ t hlt hrt hop _ =>
    obtain rfl : b.symbol = op := by simpa using List.find?_some hop
    have hnew := h.given_next .temporals t
    exact ⟨[⟨.temporals, t, 1, false⟩], (h.reserve .temporals t 1 false).emit
      (.binary b ⟨_, (hl.of_row? hlt).mono _⟩ ⟨_, (hr.of_row? hrt).mono _⟩ ⟨t, hnew⟩),
      .inr ⟨t, Kind.ty?_value t, hnew⟩, by simp⟩

theorem Folds.placed {l : Operand} {rest : List (Operand × String)} (ho : Folds l rest c o c')
    (h : Placed N rs bs c) (hl : l.IsGiven rs) (hrest : ∀ p ∈ rest, p.1.IsGiven rs) :
    ∃ ss, Placed N (rs ++ ss) bs c' ∧ o.IsGiven (rs ++ ss) ∧ ∀ s ∈ ss, s.size = 1 := by
  induction ho generalizing rs with
  | nil => exact ⟨[], by rwa [List.append_nil], by rwa [List.append_nil], by simp⟩
  | cons hop _ ih =>
    obtain ⟨ss, hss, hm, hone⟩ := hop.placed h hl (hrest (_, _) (List.mem_cons_self ..))
    obtain ⟨ss', hss', ho, hone'⟩ := ih hss hm fun p hp => (hrest p (by simp [hp])).mono _
    rw [List.append_assoc] at hss' ho
    refine ⟨ss ++ ss', hss', ho, fun s hs => ?_⟩
    rcases List.mem_append.1 hs with hs | hs
    exacts [hone s hs, hone' s hs]

/-- The sizes of arrays that are declared. -/
def sizesIn (ds : List Declaration) : List Int :=
  ds.filterMap fun d => d.extent.map Prod.snd

theorem mem_sizesIn {n : Int} (hd : d ∈ ds) (hn : n ∈ sizesIn [d]) : n ∈ sizesIn ds := by
  rw [sizesIn, List.mem_filterMap] at hn ⊢
  obtain ⟨d', hd', hn⟩ := hn
  exact ⟨d, hd, List.mem_singleton.1 hd' ▸ hn⟩

theorem Declares.placed (hd : Declares isGlobal d c c') (h : Placed N rs bs c) :
    ∃ r, Placed N (rs ++ [r]) bs c' ∧ (r.size = 1 ∨ r.size ∈ sizesIn [d]) := by
  cases hd with
  | @scalar t _ _ hk =>
    have hv : Variable.IsGiven (rs ++ [⟨variableSector isGlobal, t, 1, false⟩])
        ⟨d.kind, c.next (variableSector isGlobal) t, d.name, none⟩ :=
      ⟨t, hk, h.given_next _ t⟩
    exact ⟨_, (h.reserve _ t 1 false).addVariable hv, .inl rfl⟩
  | @array t k n hext _ _ hk =>
    have hv : Variable.IsGiven (rs ++ [⟨variableSector isGlobal, t, n, false⟩])
        ⟨.array, c.next (variableSector isGlobal) t, d.name, some (d.kind, n)⟩ :=
      ⟨rfl, t, hk, h.given_array (by cases isGlobal <;> decide) t n⟩
    exact ⟨_, (h.reserve _ t n false).addVariable hv, .inr (by simp [sizesIn, hext])⟩

/-- What is held is placed, after further reservations for declarations. -/
def PlacedWith (N : Scope → Prop) (rs : List Reservation) (bs : List Int) (ds : List Declaration)
    (c : Compiler) : Prop :=
  ∃ ss, Placed N (rs ++ ss) bs c ∧ ∀ s ∈ ss, s.size = 1 ∨ s.size ∈ sizesIn ds

theorem DeclaresStep.placed (hs : DeclaresStep isGlobal d c c') (hd : d ∈ ds)
    (h : PlacedWith N rs bs ds c) : PlacedWith N rs bs ds c' := by
  obtain ⟨ss, h, hsizes⟩ := h
  cases hs with
  | one hs =>
    obtain ⟨r, hr, hsize⟩ := hs.placed h
    rw [List.append_assoc] at hr
    exact ⟨ss ++ [r], hr, List.forall_mem_append.2
      ⟨hsizes, List.forall_mem_singleton.2 (hsize.imp_right (mem_sizesIn hd))⟩⟩
  | kind _ ht =>
    refine ⟨ss, h.updateCurrent (fun _ => rfl) (fun _ => rfl) (fun f hf _ => h.results f hf)
      (fun f hf k hk => ?_) h.declared, hsizes⟩
    rcases hk with hk | hk
    · exact h.kinds f hf k (.inl hk)
    · rcases List.mem_cons.1 hk with rfl | hk
      exacts [⟨_, ht⟩, h.kinds f hf k (.inr hk)]
  | address =>
    exact ⟨ss, h.updateCurrent (fun _ => rfl) (fun _ => rfl) (fun f hf _ => h.results f hf) h.kinds
      h.declared, hsizes⟩

theorem Placed.placedWith (h : Placed N rs bs c) (ds : List Declaration) :
    PlacedWith N rs bs ds c :=
  ⟨[], by rwa [List.append_nil], nofun⟩

/-- The variable that a name denotes is in the table. -/
theorem function_of_denoted? {name : String} (h : c.denoted? name = some v) :
    ∃ s f, c.function? s = some f ∧ v ∈ f.declared := by
  rw [denoted?, Option.or_eq_some_iff] at h
  rcases h with h | ⟨-, h⟩
  · rw [current] at h
    cases hf : c.function? c.scope with
    | none => simp [hf, Function.opened, Function.find?] at h
    | some f =>
      rw [hf] at h
      exact ⟨c.scope, f, hf, List.mem_of_find?_eq_some h⟩
  · obtain ⟨f, hf, h⟩ := Option.bind_eq_some_iff.1 h
    exact ⟨none, f, hf, List.mem_of_find?_eq_some h⟩

theorem Placed.denoted (h : Placed N rs bs c) {name : String} (hv : c.denoted? name = some v) :
    v.IsGiven rs := by
  obtain ⟨s, f, hf, hmem⟩ := function_of_denoted? hv
  exact h.declared f (List.mem_of_find?_eq_some hf) v hmem

theorem Placed.name (h : Placed N rs bs c) {s : Scope} (hf : c.function? s = some f) : N s := by
  have hname : f.name = s := by simpa using List.find?_some hf
  rw [← hname]
  exact h.names f (List.mem_of_find?_eq_some hf)

end Compiler

/-- The sizes of the arrays that an event declares. -/
def Event.extents : Event → List Int
  | .declareGlobals vars => Compiler.sizesIn vars
  | .declareLocals params vars => Compiler.sizesIn (params ++ vars)
  | _ => []

/-- No array that events declare has a negative size. -/
def Event.Sized (es : List Event) : Prop :=
  ∀ e ∈ es, ∀ n ∈ e.extents, 0 ≤ n

namespace Compiler

variable {c c' : Compiler}

/-! ## Events -/

/-- What is placed after an event: it may have reserved cells and found entries, the next index
among them. -/
def PlacedAfter (N : Scope → Prop) (rs : List Reservation) (bs : List Int) (e : Event)
    (c : Compiler) : Prop :=
  ∃ ss bs', Placed N (rs ++ ss) (bs' ++ bs) c ∧ (c.quads.size : Int) ∈ bs' ++ bs ∧
    ∀ s ∈ ss, s.size = 1 ∨ s.size ∈ e.extents

theorem Placed.after (h : Placed N (rs ++ ss) bs c)
    (hss : ∀ s ∈ ss, s.size = 1 ∨ s.size ∈ e.extents) : PlacedAfter N rs bs e c :=
  ⟨ss, [(c.quads.size : Int)], h.mark, List.mem_cons_self, hss⟩

/-- Nothing is reserved. -/
theorem Placed.after_none (h : Placed N rs bs c) : PlacedAfter N rs bs e c := by
  rw [← List.append_nil rs] at h
  exact h.after (by simp)

/-- Single cells are reserved. -/
theorem Placed.after_ones (h : Placed N (rs ++ ss) bs c) (hss : ∀ s ∈ ss, s.size = 1) :
    PlacedAfter N rs bs e c :=
  h.after fun s hs => .inl (hss s hs)

/-- Entries are found on the way. -/
theorem PlacedAfter.entry {b : Int} (h : PlacedAfter N rs (b :: bs) e c) :
    PlacedAfter N rs bs e c := by
  obtain ⟨ss, bs', h, hsize, hss⟩ := h
  rw [show bs' ++ b :: bs = (bs' ++ [b]) ++ bs by simp] at h hsize
  exact ⟨ss, bs' ++ [b], h, hsize, hss⟩

theorem Placed.newConstant (h : Placed N rs bs c) (t : Ty) (v : Value) :
    Placed N (rs ++ [⟨.constants, t, 1, false⟩]) bs { c.reserve .constants t 1 with
      constants := c.constants.set t (c.constants.get t ++ [(v, c.next .constants t)]) } := by
  have h₁ := h.reserve .constants t 1 false
  refine { h₁ with constants := fun u e he => ?_ }
  by_cases hu : u = t
  · subst hu
    rw [PerTy.get_set_self] at he
    rcases List.mem_append.1 he with he | he
    · exact h₁.constants u e he
    · rw [List.mem_singleton.1 he]
      exact h.given_next .constants u
  · rw [PerTy.get_set_of_ne _ _ hu] at he
    exact h₁.constants u e he

/-- Arguments that agree with parameters are no arrays. -/
theorem Placed.stored_arguments (h : Placed N rs bs c) {s : Scope} (hf : c.function? s = some f)
    (hlen : c.arguments.length = f.parameterKinds.length)
    (hagree : ∀ p ∈ c.arguments.zip f.parameterKinds, p.1.kind.agrees p.2 = true) :
    ∀ x ∈ c.arguments, Stored rs x.place := by
  intro x hx
  obtain ⟨i, hi, rfl⟩ := List.getElem_of_mem hx
  have hzip : (c.arguments[i], f.parameterKinds[i]) ∈ c.arguments.zip f.parameterKinds := by
    rw [List.mem_iff_getElem]
    exact ⟨i, by simpa [← hlen] using hi, by simp⟩
  obtain ⟨t, ht⟩ := h.kinds f (List.mem_of_find?_eq_some hf) _ (.inr (List.getElem_mem (hlen ▸ hi)))
  exact ⟨t, (h.arguments _ hx).of_agrees (hagree _ hzip) ht⟩

theorem Placed.stored_specials (h : Placed N rs bs c) {ps : List (List Ty)}
    (hlen : c.arguments.length = ps.length)
    (hagree : ∀ p ∈ c.arguments.zip ps, (p.2.any fun t => p.1.kind.agrees (.value t)) = true) :
    ∀ x ∈ c.arguments, Stored rs x.place := by
  intro x hx
  obtain ⟨i, hi, rfl⟩ := List.getElem_of_mem hx
  have hzip : (c.arguments[i], ps[i]) ∈ c.arguments.zip ps := by
    rw [List.mem_iff_getElem]
    exact ⟨i, by simpa [← hlen] using hi, by simp⟩
  obtain ⟨t, -, ht⟩ := List.any_eq_true.1 (hagree _ hzip)
  exact ⟨t, (h.arguments _ hx).of_agrees ht (Kind.ty?_value t)⟩

theorem Acts.placed_quiet (ha : Acts e c c') (he : e.isQuiet = true) (h : Placed N rs bs c) :
    PlacedAfter N rs bs e c' := by
  cases ha with
  | @oldConstant _ t _ _ _ hfind =>
    refine (h.push (.inr ⟨t, Kind.ty?_value t, ?_⟩)).after_none
    exact h.constants t _ (List.mem_of_find?_eq_some hfind)
  | @newConstant _ t v =>
    exact ((h.newConstant t v).push
      (.inr ⟨t, Kind.ty?_value t, h.given_next .constants t⟩)).after_ones
      (by simp)
  | dropSize hx => exact (h.pop hx).after_none
  | useVariable hv => exact (h.push (h.denoted hv).operand).after_none
  | @useElement _ _ _ _ _ _ n t hx hint hv hel hk =>
    have hindex := (h.top hx).of_agrees hint (Kind.ty?_value _)
    have hp := (h.pop hx).point ((h.denoted hv).of_elements hel hk) ⟨_, hindex⟩
    exact (hp.push (.inr ⟨t, hk, h.given_pointer t⟩)).after_ones (by simp)
  | @selectElement _ index _ hx =>
    refine Placed.after_none { h.pop hx with offset := fun o ho => ?_ }
    obtain rfl : index = o := by simpa using ho
    exact h.top hx
  | assignVariable hv _ hscalar hx hagree =>
    obtain ⟨t, ht, hvar⟩ := (h.denoted hv).of_scalar hscalar
    have hright := (h.top hx).of_ty? ((Kind.ty?_eq_of_agrees hagree).symm.trans ht)
    refine ((h.pop hx).emit (.copy ?_)).after_none
    simpa using ⟨⟨t, hright⟩, ⟨t, hvar⟩⟩
  | @assignElement _ _ v _ _ rest _ n t hv ho hint hel hk hx hagree =>
    have h₁ : Placed N rs bs { c with operands := rest, offset := none } :=
      { h.pop hx with offset := nofun }
    have hindex := (h.offset _ ho).of_agrees hint (Kind.ty?_value _)
    have hright := (h.top hx).of_ty? ((Kind.ty?_eq_of_agrees hagree).symm.trans hk)
    have hp := h₁.point ((h.denoted hv).of_elements hel hk) ⟨_, hindex⟩
    refine Placed.after_ones (hp.emit (.copy ?_)) (by simp)
    simpa using ⟨⟨t, hright.mono _⟩, ⟨t, h.given_pointer t⟩⟩
  | @power _ _ l r _ rest hx hop =>
    have h₁ : Placed N rs bs { c with operands := rest } :=
      h.withOperands fun o ho => by simp [hx, ho]
    obtain ⟨ss, hss, ho, hone⟩ :=
      hop.placed h₁ (h.operands l (by simp [hx])) (h.operands r (by simp [hx]))
    exact (hss.push ho).after_ones hone
  | chain => exact Placed.after_none { h with }
  | @fold _ _ o first result below hdrop hfold =>
    have hmem : ∀ x ∈ first :: below, x ∈ c.operands := fun x hx =>
      List.mem_of_mem_drop (hdrop ▸ hx)
    have h₁ : Placed N rs bs { c with chained := o.symbol :: c.chained } := { h with }
    obtain ⟨ss, hss, ho, hone⟩ := hfold.placed h₁ (h.operands first (hmem first (by simp)))
      fun p hp => by
        have hp := (List.of_mem_zip hp).1
        exact h.operands p.1 (List.mem_of_mem_take (List.mem_reverse.1 hp))
    refine Placed.after_ones { hss with operands := fun x hx => ?_ } hone
    rcases List.mem_cons.1 hx with rfl | hx
    · exact ho
    · exact (h.operands x (hmem x (by simp [hx]))).mono _
  | @update _ o x _ t u hx ht hu hupd =>
    have hx' := (h.top hx).of_row? ht
    -- An update writes to its own operand, so it has to keep the type.
    obtain rfl := UnOp.eq_of_result?_of_updates hupd hu
    have h₁ := (h.pop hx).emit (.unary o ⟨_, hx'⟩ ⟨_, hx'⟩)
    exact (h₁.push (o := ⟨.bare u.code, x.place⟩) (.inr ⟨u, Kind.ty?_bare u, hx'⟩)).after_none
  | @unary _ o _ _ _ u hx ht =>
    have hnew := h.given_next .temporals u
    have hx' := (h.top hx).of_row? ht
    have h₁ := ((h.pop hx).reserve .temporals u 1 false).emit
      (.unary o ⟨_, hx'.mono _⟩ ⟨u, hnew⟩)
    exact (h₁.push (.inr ⟨u, Kind.ty?_bare u, hnew⟩)).after_ones (by simp)
  | beginCall =>
    exact Placed.after_none
      { h with called := List.forall_mem_cons.2 ⟨Option.some_ne_none _, h.called⟩ }
  | callVoid hcalled hf hlen hagree =>
    exact (h.enterFunction (h.name hf) hcalled (h.stored_arguments hf hlen hagree)).after_none.entry
  | @callKnown _ _ name rest f k t place hcalled hf hlen hagree hres hk hplace =>
    have hnew := h.given_next (variableSector (c.scope == none)) t
    have h₁ := ((h.enterFunction (h.name hf) hcalled (h.stored_arguments hf hlen hagree)).reserve
      (variableSector (c.scope == none)) t 1 false).push (o := ⟨k, .num _⟩) (.inr ⟨t, hk, hnew⟩)
    obtain ⟨k', t', -, -, hresult⟩ := h.results f (List.mem_of_find?_eq_some hf) _ hplace
    exact PlacedAfter.entry (Placed.after_ones (h₁.emit (.copy (List.forall_mem_cons.2
      ⟨⟨t', hresult.mono _⟩, List.forall_mem_singleton.2 ⟨t, hnew⟩⟩))) (by simp))
  | @callSelf _ _ name rest f k t hcalled hf hlen hagree hres hk =>
    have hnew := h.given_next (variableSector (c.scope == none)) t
    have h₁ := ((h.enterFunction (h.name hf) hcalled (h.stored_arguments hf hlen hagree)).reserve
      (variableSector (c.scope == none)) t 1 false).push (o := ⟨k, .num _⟩) (.inr ⟨t, hk, hnew⟩)
    have hone : ∀ s ∈ [(⟨variableSector (c.scope == none), t, 1, false⟩ : Reservation)],
        s.size = 1 := by simp
    refine PlacedAfter.entry (b := (c.enterFunction name rest).quads.size)
      (Placed.after_ones (Placed.emit ?_ (.copy nofun)) hone)
    -- The copy has no place to copy from yet; it is noted with its cell.
    refine { h₁ with selfCalls := fun p hp => ?_ }
    rcases List.mem_append.1 hp with hp | hp
    · exact h₁.selfCalls p hp
    · rw [List.mem_singleton.1 hp]
      exact ⟨t, hnew⟩
  | beginSpecial =>
    exact Placed.after_none
      { h with called := List.forall_mem_cons.2 ⟨Option.some_ne_none _, h.called⟩ }
  | specialVoid hcalled hsig hlen hagree =>
    have h₁ := h.popCalled hcalled
    have h₂ := (h₁.emitAll (Placed.passing 1 (h.stored_specials hlen hagree))).emit
      (.special hsig (List.forall_mem_nil _))
    exact Placed.after_none { h₂ with arguments := nofun }
  | @specialValue _ _ name rest _ t hcalled hsig hlen hagree =>
    have hnew := h.given_next .temporals t
    have h₁ := (h.popCalled hcalled).emitAll (Placed.passing 1 (h.stored_specials hlen hagree))
    have h₂ := (h₁.reserve .temporals t 1 false).emit
      (.special hsig (List.forall_mem_singleton.2 ⟨t, hnew⟩))
    exact Placed.after_ones
      { h₂.push (.inr ⟨t, Kind.ty?_value t, hnew⟩) with arguments := nofun } (by simp)
  | @argument _ x rest hx =>
    refine Placed.after_none { h.pop hx with arguments := fun o ho => ?_ }
    rcases List.mem_cons.1 ho with rfl | ho
    · exact h.top hx
    · exact h.arguments o ho
  | declareGlobals | enterMain | finish | defineFunction | declareLocals | endFunction | breakLoop
  | giveBack | testIf | closeIf | elseBranch | markLoop | testLoop | closeLoop | leaveLoop =>
    cases he

theorem Placed.define (h : Placed N rs bs c) (hsize : (c.quads.size : Int) ∈ bs)
    (result : Option Ty) {name : String} (hname : N (some name))
    (hnew : c.function? (some name) = none) : Placed N rs bs (c.define result name) := by
  have hmem : ∀ f ∈ (c.define result name).functions, f ∈ c.functions ∨
      f = .opened (result.map Kind.value) (some name) c.quads.size := by
    intro f hf
    exact (List.mem_append.1 hf).imp_right List.mem_singleton.1
  refine { h with
    results := ?_, kinds := ?_, declared := ?_, starts := ?_, names := ?_, nodup :=
      ?_, scope := hname }
  · intro f hf p hp
    rcases hmem f hf with hf | rfl
    · exact h.results f hf p hp
    · cases hp
  · intro f hf k hk
    rcases hmem f hf with hf | rfl
    · exact h.kinds f hf k hk
    · rcases hk with hk | hk
      · obtain ⟨t, -, rfl⟩ := Option.map_eq_some_iff.1 hk
        exact ⟨t, Kind.ty?_value t⟩
      · exact absurd hk List.not_mem_nil
  · intro f hf v hv
    rcases hmem f hf with hf | rfl
    · exact h.declared f hf v hv
    · exact absurd hv List.not_mem_nil
  · intro f hf
    rcases hmem f hf with hf | rfl
    · exact h.starts f hf
    · exact hsize
  · intro f hf
    rcases hmem f hf with hf | rfl
    · exact h.names f hf
    · exact hname
  · rw [Compiler.define, List.map_append, List.nodup_append]
    refine ⟨h.nodup, by simp, fun a ha b hb => ?_⟩
    obtain ⟨f, hf, rfl⟩ := List.mem_map.1 ha
    obtain rfl : some name = b := by simpa [Function.opened, eq_comm] using hb
    simpa using List.find?_eq_none.1 hnew f hf

theorem Placed.endFunction (h : Placed N rs bs c) (hnone : N none) : Placed N rs bs c.close := by
  have h₁ : Placed N rs bs (c.updateCurrent fun f => { f with declared := [] }) :=
    h.updateCurrent (fun _ => rfl) (fun _ => rfl) (fun f hf _ => h.results f hf) h.kinds
      fun _ _ _ hv => absurd hv List.not_mem_nil
  have hname : N c.current.name := by
    rw [name_current]
    exact h.scope
  have h₂ : Placed N rs bs
      { c.updateCurrent (fun f => { f with declared := [] }) with scope := none } :=
    { h₁ with scope := hnone }
  exact h₂.emit (.endproc hname)

/-- A jump that waits has been emitted as one. -/
theorem Placed.isJump (h : Placed N rs bs c) (hq : c.quads[i]? = some q) (hw : c.WaitsAt i) :
    q.IsJump (Stored rs) (· ∈ bs) := by
  obtain ⟨q', hq', hwait⟩ := hw
  obtain rfl := Option.some.inj (hq.symm.trans hq')
  rcases hwait with rfl | ⟨x, rfl⟩
  · exact .inl ⟨[], nofun, rfl⟩
  · obtain ⟨_, hx, _, -, heq⟩ := ((h.quads i _ hq).shape (by decide)).tells.gotof rfl
    obtain ⟨rfl, -⟩ := List.cons.inj heq
    exact .inr ⟨x, [], hx, nofun, rfl⟩

theorem Placed.jumpsTo (h : Placed N rs bs c) (is : List Nat) {t : Int} (ht : t ∈ bs)
    (hw : ∀ i ∈ is, c.WaitsAt i) : Placed N rs bs (c.completeAll (is.map (·, [.num t]))) := by
  refine Placed.completeAll (R := Quad.IsJump (Stored rs) (· ∈ bs)) (fun q hq => hq.shape)
    (fun q hq => hq.ne_verify) h ?_ ?_
  · intro p hp q hq
    obtain ⟨i, hi, rfl⟩ := List.mem_map.1 hp
    exact h.isJump hq (hw i hi)
  · intro p hp q hq
    obtain ⟨i, -, rfl⟩ := List.mem_map.1 hp
    exact hq.append ht

theorem Placed.jumpTo (h : Placed N rs bs c) {t : Int} (ht : t ∈ bs) (hw : c.WaitsAt i) :
    Placed N rs bs (c.complete i [.num t]) :=
  h.jumpsTo [i] ht (by simpa using hw)

/-- A copy that is to be completed has operands that were handed out. -/
theorem Placed.isCopyOf (h : Placed N rs bs c) (hq : c.quads[i]? = some q)
    (hcopy : IsCopy c.quads i) : q.IsCopyOf (Stored rs) := by
  obtain ⟨fs, hfs⟩ := hcopy
  obtain rfl := Option.some.inj (hq.symm.trans hfs)
  exact ⟨fs, ((h.quads i _ hq).shape (by decide)).tells.copy rfl, rfl⟩

/-- Names tell functions apart. -/
theorem Placed.current_eq (h : Placed N rs bs c) (hf : f ∈ c.functions)
    (hscope : f.name = c.scope) :
    c.current = f := by
  cases hg : c.function? c.scope with
  | none => exact absurd (List.find?_eq_none.1 hg f hf) (by simp [hscope])
  | some g =>
    have hname : g.name = c.scope := by simpa using List.find?_some hg
    rw [current, hg, Option.getD_some]
    exact List.inj_on_of_nodup_map h.nodup (List.mem_of_find?_eq_some hg) hf
      (hname.trans hscope.symm)

/-- The result of a function gets its place, also in the calls that wait for it. -/
theorem Placed.giveBack (h : Placed N rs bs c) {x : Operand} {rest : List Operand} {k : Kind}
    (hx : c.operands = x :: rest) (hk : c.current.result = some k) (hagree : x.kind.agrees k = true)
    (hcopies : ∀ p ∈ c.selfCalls, IsCopy c.quads p.1) :
    Placed N rs bs (({ c with operands := rest }.updateCurrent
      fun f => { f with returnPlace := some x.place }).completeAll
        (c.selfCalls.map fun (p : Nat × Int) => (p.1, [x.place, .num p.2]))) := by
  obtain ⟨t, ht⟩ : ∃ t, k.ty? = some t := by
    rw [current] at hk
    cases hf : c.function? c.scope with
    | none => simp [hf, Function.opened] at hk
    | some f =>
      rw [hf] at hk
      exact h.kinds f (List.mem_of_find?_eq_some hf) k (.inl hk)
  have hx' := (h.top hx).of_agrees hagree ht
  have h₁ : Placed N rs bs ({ c with operands := rest }.updateCurrent
      fun f => { f with returnPlace := some x.place }) := by
    refine (h.pop hx).updateCurrent (fun _ => rfl) (fun _ => rfl)
      (fun f hf hscope p hp => ?_) h.kinds
      h.declared
    obtain rfl : x.place = p := by simpa using hp
    rw [h.current_eq hf hscope] at hk
    exact ⟨k, t, hk, ht, hx'⟩
  refine Placed.completeAll (R := Quad.IsCopyOf (Stored rs)) (fun q hq => hq.shape)
    (fun q hq => hq.ne_verify) h₁ ?_ ?_
  · intro p hp q hq
    obtain ⟨p', hp', rfl⟩ := List.mem_map.1 hp
    exact h.isCopyOf hq (hcopies p' hp')
  · rintro p hp q ⟨fs, hfs, rfl⟩
    obtain ⟨p', hp', rfl⟩ := List.mem_map.1 hp
    refine ⟨fs ++ [x.place, .num p'.2], List.forall_mem_append.2 ⟨hfs, ?_⟩, rfl⟩
    exact List.forall_mem_cons.2 ⟨⟨t, hx'⟩, List.forall_mem_singleton.2 (h.selfCalls p' hp')⟩

theorem WaitsAt.emit (h : c.WaitsAt i) (q : Quad) : (c.emit q).WaitsAt i := by
  obtain ⟨q', hq', hw⟩ := h
  exact ⟨q', getElem?_of_append Array.toList_push hq', hw⟩

/-- Every event keeps what the compiler holds placed. -/
theorem Acts.placed (ha : Acts e c c') (h : Placed N rs bs c) (ht : c.Tidy e)
    (hsize : (c.quads.size : Int) ∈ bs) (hnone : N none)
    (hname : ∀ result name, e = .defineFunction result name → N (some name)) :
    PlacedAfter N rs bs e c' := by
  by_cases he : e.isQuiet = true
  · exact ha.placed_quiet he h
  · cases ha with
    | declareGlobals hd =>
      have h₁ := (h.emit .goto_nil).markFirst
      obtain ⟨ss, hss, hsizes⟩ := hd.keeps (fun _ hd _ _ hs => hs.placed hd) (h₁.placedWith _)
      exact hss.after hsizes
    | enterMain => exact (h.jumpTo hsize ht).after_none
    | finish => exact Placed.after_none { h with }
    | defineFunction hnew => exact (h.define hsize _ (hname _ _ rfl) hnew).after_none
    | declareLocals hp hv =>
      obtain ⟨ss, hss, hsizes⟩ :=
        hp.keeps (fun _ hd _ _ hs => hs.placed hd) (h.markFirst.placedWith _)
      obtain ⟨ss', hss', hsizes'⟩ := hv.keeps (fun _ hd _ _ hs => hs.placed hd) (hss.placedWith _)
      rw [List.append_assoc] at hss'
      refine hss'.after fun s hs => ?_
      rw [Event.extents, sizesIn, List.filterMap_append, List.mem_append]
      rcases List.mem_append.1 hs with hs | hs
      · exact (hsizes s hs).imp_right .inl
      · exact (hsizes' s hs).imp_right .inr
    | endFunction => exact (h.endFunction hnone).after_none
    | breakLoop =>
      have h₁ : Placed N rs bs { c with breaks := c.breaks ++ [c.quads.size] } := { h with }
      exact (h₁.emit (.goto_nil)).after_none
    | giveBack _ _ hx hk hagree => exact (h.giveBack hx hk hagree ht).after_none
    | @testIf _ x rest hx hagree =>
      have h₁ : Placed N rs bs { c with operands := rest, jumps := c.quads.size :: c.jumps } :=
        { h.pop hx with jumps := List.forall_mem_cons.2 ⟨hsize, h.jumps⟩ }
      have hx' := (h.top hx).of_agrees hagree (Kind.ty?_value _)
      exact (h₁.emit (.gotof_nil ⟨_, hx'⟩)).after_none
    | @closeIf _ i rest hj =>
      have h₁ : Placed N rs bs { c with jumps := rest } :=
        { h with jumps := fun i hi => h.jumps i (by simp [hj, hi]) }
      exact (h₁.jumpTo hsize (ht _ _ hj)).after_none
    | @elseBranch _ i rest hj =>
      have h₁ : Placed N rs bs { c with jumps := c.quads.size :: rest } :=
        { h with
          jumps := List.forall_mem_cons.2 ⟨hsize, fun i hi => h.jumps i (by simp [hj, hi])⟩ }
      -- The test lands behind the jump over the branch, which is the open one from here on.
      have hw : Compiler.WaitsAt { c with jumps := c.quads.size :: rest } _ := ht _ _ hj
      have h₂ := (h₁.emit (.goto_nil)).mark
      refine PlacedAfter.entry (Placed.after_none (h₂.jumpTo ?_ (hw.emit _)))
      simp [emit]
    | markLoop =>
      exact Placed.after_none { h with jumps := List.forall_mem_cons.2 ⟨hsize, h.jumps⟩ }
    | @testLoop _ x rest hx hagree =>
      have h₁ : Placed N rs bs { c with
          operands := rest
          jumps := c.quads.size :: c.jumps
          openLoops := c.openLoops + 1 } :=
        { h.pop hx with jumps := List.forall_mem_cons.2 ⟨hsize, h.jumps⟩ }
      have hx' := (h.top hx).of_agrees hagree (Kind.ty?_value _)
      exact (h₁.emit (.gotof_nil ⟨_, hx'⟩)).after_none
    | @closeLoop _ test condition rest hj =>
      have h₁ : Placed N rs bs { c with jumps := rest } :=
        { h with jumps := fun i hi => h.jumps i (by simp [hj, hi]) }
      -- The test and the breaks land behind the jump back to the condition.
      have hw : ∀ i ∈ test :: c.breaks, Compiler.WaitsAt { c with jumps := rest } i := by
        intro i hi
        rcases List.mem_cons.1 hi with rfl | hi
        exacts [ht.1 _ _ hj, ht.2 i hi]
      have hcondition : (condition : Int) ∈ bs := h.jumps condition (by simp [hj])
      have h₂ := (h₁.emit (.goto_singleton hcondition)).mark
      have h₃ := h₂.jumpsTo (t := (c.quads.size + 1 : Nat)) (test :: c.breaks) (by simp [emit])
        fun i hi => (hw i hi).emit _
      exact PlacedAfter.entry (Placed.after_none { h₃ with })
    | leaveLoop => exact Placed.after_none { h with }
    | _ => exact absurd rfl he

/-- Compilation keeps what the compiler holds placed. -/
theorem RunsBy.placed {es : List Event} (hr : TidyRuns es c c') (h : Placed N rs bs c)
    (hsize : (c.quads.size : Int) ∈ bs) (hnone : N none)
    (hname : ∀ result name, .defineFunction result name ∈ es → N (some name)) :
    ∃ ss bs', Placed N (rs ++ ss) (bs' ++ bs) c' ∧ (c'.quads.size : Int) ∈ bs' ++ bs ∧
      ∀ s ∈ ss, s.size = 1 ∨ ∃ e ∈ es, s.size ∈ e.extents := by
  induction hr generalizing rs bs with
  | nil => exact ⟨[], [], by rwa [List.append_nil], hsize, by simp⟩
  | @cons e es _ _ _ ha _ ih =>
    obtain ⟨ss, bs₁, hss, hsize₁, hsizes⟩ := ha.1.placed h ha.2 hsize hnone fun result name he =>
      hname result name (by simp [he])
    obtain ⟨ss', bs₂, hss', hsize₂, hsizes'⟩ := ih hss hsize₁ fun result name he =>
      hname result name (by simp [he])
    rw [List.append_assoc, ← List.append_assoc bs₂] at hss'
    rw [← List.append_assoc] at hsize₂
    refine ⟨ss ++ ss', bs₂ ++ bs₁, hss', hsize₂, fun s hs => ?_⟩
    rcases List.mem_append.1 hs with hs | hs
    · exact (hsizes s hs).imp_right fun hs => ⟨e, by simp, hs⟩
    · refine (hsizes' s hs).imp_right fun ⟨e', he', hs⟩ => ⟨e', by simp [he'], hs⟩

theorem placed_empty (hnone : N none) : Placed N [] [0] {} where
  counters := rfl
  operands := nofun
  arguments := nofun
  called := nofun
  offset := nofun
  results f hf p hp := by
    obtain rfl := List.mem_singleton.1 hf
    cases hp
  kinds f hf k hk := by
    obtain rfl := List.mem_singleton.1 hf
    rcases hk with hk | hk
    · cases hk
    · exact absurd hk List.not_mem_nil
  declared f hf v hv := by
    obtain rfl := List.mem_singleton.1 hf
    exact absurd hv List.not_mem_nil
  selfCalls := nofun
  constants t e he := by
    rw [PerTy.get_ofFn] at he
    exact absurd he List.not_mem_nil
  quads i q hq := by simp at hq
  bound := by simp
  jumps := nofun
  starts f hf := by
    obtain rfl := List.mem_singleton.1 hf
    exact List.mem_singleton_self _
  names f hf := by
    obtain rfl := List.mem_singleton.1 hf
    exact hnone
  nodup := List.nodup_singleton _
  scope := hnone

theorem RunsBy.exists_placed {es : List Event} (hr : TidyRuns es {} c) :
    ∃ rs bs, Placed (fun _ => True) rs bs c := by
  obtain ⟨ss, bs, hp, -⟩ := hr.placed (N := fun _ => True) (placed_empty trivial) (by simp) trivial
    fun _ _ _ => trivial
  exact ⟨_, _, hp⟩

end Compiler

end Symphony
