import Symphony.Proofs.Effects
import Symphony.Proofs.Flow
import Symphony.Proofs.Typing
import Symphony.Proofs.Values

/-!
# What code writes

The type of a cell is told by its address, and so is whether it holds a value or the address of an
array element (`Holds`). Code whose operands fit its operations keeps this, and sets no temporal
cells but those that it names (`Memory.Changes`). What it does is said action by action
(`Exec.Does`), also for actions that fail.

The type of an index is that of an integer, so the pointers that are computed from indices are
integers too. In a program with powers they need not be.
-/

namespace Symphony

variable {t : Ty} {d x : Field} {rs : List Reservation} {a : Int} {name : String} {A W : Int → Prop}
  {args' : List Field} {v : Value} {r : Routine}

/-! ## Cells -/

/-- A cell of a variable, an array or an intermediate result, but not of a pointer. -/
def DataCell (rs : List Reservation) (a : Int) : Prop :=
  ∃ before s t n later, rs = before ++ ⟨s, t, n, false⟩ :: later ∧
    (Counters.after before).next s t ≤ a ∧ a < (Counters.after before).next s t + n

theorem GivenArray.dataCell {n base : Int} (h : GivenArray rs t n base) (hlo : base ≤ a)
    (hhi : a < base + n) : DataCell rs a := by
  cases h with
  | mk _ h => exact ⟨_, _, _, _, _, h, hlo, hhi⟩

theorem GivenArray.locate {n base : Int} (h : GivenArray rs t n base) (hr : Roomy rs)
    (hlo : base ≤ a) (hhi : a < base + n) :
    ∃ s, s ≠ .temporals ∧ Sector.locate? a = some (s, t) := by
  cases h with
  | mk hs h =>
    subst h
    exact ⟨_, hs, hr.locate hlo hhi⟩

theorem Given.dataCell (h : Given rs t (.num a)) : DataCell rs a := by
  cases h with
  | num h => exact ⟨_, _, _, _, _, h, Int.le_refl _, Int.lt_succ _⟩

namespace DataCell

theorem mono (h : DataCell rs a) (ss : List Reservation) : DataCell (rs ++ ss) a := by
  obtain ⟨before, s, t, n, later, rfl, hlo, hhi⟩ := h
  exact ⟨before, s, t, n, later ++ ss, by simp, hlo, hhi⟩

/-- Data are in other cells than pointers. -/
theorem ne_pointer (h : DataCell rs a) (hr : Roomy rs) {before later : List Reservation}
    (hrs : rs = before ++ ⟨.temporals, t, 1, true⟩ :: later) :
    a ≠ (Counters.after before).next .temporals t := by
  rintro rfl
  obtain ⟨before', s, u, n, later', hrs', hlo, hhi⟩ := h
  obtain ⟨-, hsame⟩ := hr.eq_of_mem hrs' hrs hlo hhi (Int.le_refl _) (Int.lt_succ _)
  cases hsame

end DataCell

/-- The values that a cell may hold: those of its type, or addresses of elements if the cell is that
of a pointer. The addresses of the pointers that are computed satisfy a predicate. -/
inductive Holds (A : Int → Prop) (rs : List Reservation) (s : Sector) (t : Ty) (a : Int) :
    Value → Prop
  | data {v : Value} : (s = .temporals → DataCell rs a) → v.HasTy t → Holds A rs s t a v
  | pointer {before later : List Reservation} {n base b : Int} :
      s = .temporals → rs = before ++ ⟨.temporals, t, 1, true⟩ :: later →
      a = (Counters.after before).next .temporals t → GivenArray before t n base → base ≤ b →
        b < base + n →
      A a → Holds A rs s t a (.int b)

/-- All cells of a set have integer addresses and values of their type. -/
def Bank.IsTyped (b : Bank) : Prop :=
  ∀ t (r : Slot) (v : Value), (b.get t)[r]? = some v → r.part = 0 ∧ v.HasTy t

theorem Bank.IsTyped.put {b : Bank} (h : b.IsTyped) (hv : v.HasTy t) :
    Bank.IsTyped (PerTy.set b t ((b.get t).put (.ofInt a) v)) := by
  intro u r w hw
  rw [Bank.getElem?_set_put_slot] at hw
  split at hw
  case isTrue heq =>
    obtain ⟨rfl, hsame⟩ := heq
    cases hw
    exact ⟨(Slot.order_eq_iff.1 hsame).2.symm, hv⟩
  case isFalse => exact h u r w hw

/-- All cells have integer addresses and hold what they may. -/
def Memory.IsTyped (A : Int → Prop) (rs : List Reservation) (m : Memory) : Prop :=
  ∀ s t (r : Slot) (v : Value), ((m.get s).get t)[r]? = some v → r.part = 0 ∧
    Holds A rs s t r.base v

section

variable {m n : Memory} {s : Sector}

namespace Memory.IsTyped

theorem locals (h : m.IsTyped A rs) : Bank.IsTyped m.locals := by
  intro t r v hv
  obtain ⟨hpart, hholds⟩ := h .locals t r v hv
  cases hholds with
  | data _ hv => exact ⟨hpart, hv⟩
  | pointer hs => cases hs

theorem withLocals (h : m.IsTyped A rs) {b : Bank} (hb : b.IsTyped) :
    Memory.IsTyped A rs { m with locals := b } := by
  intro s t r v hv
  cases s with
  | locals =>
    obtain ⟨hpart, hty⟩ := hb t r v hv
    exact ⟨hpart, .data (fun hs => by cases hs) hty⟩
  | globals => exact h .globals t r v hv
  | temporals => exact h .temporals t r v hv
  | constants => exact h .constants t r v hv

theorem write (h : m.IsTyped A rs) (hloc : Sector.locate? a = some (s, t)) (hv : Holds A rs s t a v)
    (hw : m.write (.ofInt a) v = .ok n) : n.IsTyped A rs := by
  intro s' t' r w hcell
  rw [Memory.getElem?_write hloc hw] at hcell
  split at hcell
  case isTrue heq =>
    obtain ⟨rfl, rfl, hsame⟩ := heq
    cases hcell
    obtain ⟨hbase, hpart⟩ := Slot.order_eq_iff.1 hsame
    rw [← hbase, ← hpart]
    exact ⟨rfl, hv⟩
  case isFalse => exact h s' t' r w hcell

/-- A cell of data has a value of its type. -/
theorem read_data (h : m.IsTyped A rs) (hr : Roomy rs) (hloc : Sector.locate? a = some (s, t))
    (ha : DataCell rs a) (hv : m.read (.ofInt a) = .ok v) : v.HasTy t := by
  rw [Memory.read_eq hloc] at hv
  split at hv
  case h_1 w hw =>
    cases hv
    cases (h s t _ _ hw).2 with
    | data _ hty => exact hty
    | pointer _ hrs hat => exact absurd hat (ha.ne_pointer hr hrs)
  case h_2 => cases hv

/-- A pointer points into an array of its type that was reserved before it. -/
theorem read_pointer (h : m.IsTyped A rs) (hr : Roomy rs) {before later : List Reservation}
    (hrs : rs = before ++ ⟨.temporals, t, 1, true⟩ :: later)
    (hv : m.read (.ofInt ((Counters.after before).next .temporals t)) = .ok v) :
    ∃ n base b, GivenArray before t n base ∧ v = .int b ∧ base ≤ b ∧ b < base + n := by
  have hloc : Sector.locate? ((Counters.after before).next .temporals t) =
      some (.temporals, t) := by
    subst hrs
    exact hr.locate (Int.le_refl _) (Int.lt_succ _)
  rw [Memory.read_eq hloc] at hv
  split at hv
  case h_1 w hw =>
    cases hv
    cases (h .temporals t _ _ hw).2 with
    | data hdata _ => exact absurd rfl ((hdata rfl).ne_pointer hr hrs)
    | @pointer before' later' n base b _ hrs' hat hbase hlo hhi =>
      obtain ⟨rfl, -⟩ := hr.eq_of_mem hrs hrs' (Int.le_refl _) (Int.lt_succ _)
        (Int.le_of_eq hat.symm)
        (Int.lt_add_one_of_le (Int.le_of_eq hat))
      exact ⟨n, base, b, hbase, rfl, hlo, hhi⟩
  case h_2 => cases hv

/-- An operand stands for a cell of data of its type. A pointer does not stand for a temporal
cell. -/
theorem resolve (h : m.IsTyped A rs) (hr : Roomy rs) (hx : Given rs t x) {r : Slot}
    (hres : m.resolve (.ofField x.text) = .ok r) :
    ∃ a s, r = .ofInt a ∧ DataCell rs a ∧ Sector.locate? a = some (s, t) ∧
      (s = .temporals → x = .num a) := by
  cases hx with
  | @num before later s _ hrs =>
    have hdata : DataCell rs ((Counters.after before).next s t) := (Given.num hrs).dataCell
    obtain ⟨s', hloc⟩ := (Given.num hrs).locate hr
    rw [Reference.ofField_num (Sector.natAbs_lt_tooLong hloc)] at hres
    cases hres
    exact ⟨_, s', rfl, hdata, hloc, fun _ => rfl⟩
  | @pointer before later _ hrs =>
    have hloc : Sector.locate? ((Counters.after before).next .temporals t) =
        some (.temporals, t) := by
      rw [hrs] at hr
      exact hr.locate (Int.le_refl _) (Int.lt_succ _)
    rw [Reference.ofField_pointer (Sector.natAbs_lt_tooLong hloc)] at hres
    change (m.read (.ofInt _)).bind Slot.ofValue = _ at hres
    cases hv : m.read (.ofInt ((Counters.after before).next .temporals t)) with
    | error f =>
      rw [hv] at hres
      cases hres
    | ok w =>
      obtain ⟨n, base, b, hbase, rfl, hlo, hhi⟩ := h.read_pointer hr hrs hv
      rw [hv] at hres
      cases hres
      subst hrs
      obtain ⟨s', hs', hloc'⟩ := hbase.locate hr.of_append hlo hhi
      exact ⟨b, s', rfl, (hbase.dataCell hlo hhi).mono _, hloc', fun hs => absurd hs hs'⟩

/-- The value of an operand has its type. -/
theorem load (h : m.IsTyped A rs) (hr : Roomy rs) (hx : Given rs t x)
    (hv : m.load (.ofField x.text) = .ok v) : v.HasTy t := by
  unfold Memory.load at hv
  cases hres : m.resolve (.ofField x.text) with
  | error f =>
    rw [hres] at hv
    cases hv
  | ok r =>
    obtain ⟨a, s, rfl, hdata, hloc, -⟩ := h.resolve hr hx hres
    rw [hres] at hv
    exact h.read_data hr hloc hdata hv

/-- An operand stores in a cell of data of its type. -/
theorem store (h : m.IsTyped A rs) (hr : Roomy rs) {x : Field} (hx : Given rs t x)
    (hn : m.store (.ofField x.text) v = .ok n) :
    ∃ a s, DataCell rs a ∧ Sector.locate? a = some (s, t) ∧ (s = .temporals → x = .num a) ∧
      m.write (.ofInt a) v = .ok n := by
  unfold Memory.store at hn
  cases hres : m.resolve (.ofField x.text) with
  | error f =>
    rw [hres] at hn
    cases hn
  | ok r =>
    obtain ⟨a, s, rfl, hdata, hloc, hname⟩ := h.resolve hr hx hres
    rw [hres] at hn
    exact ⟨a, s, hdata, hloc, hname, hn⟩

end Memory.IsTyped

/-- How code may change the memory: it sets data to values of their type, computes pointers into
arrays, and replaces local cells. The temporal cells that it sets satisfy a predicate. -/
inductive Memory.Changes (A W : Int → Prop) (rs : List Reservation) (m : Memory) : Memory → Prop
  | refl : Changes A W rs m m
  | write {n n' : Memory} {a : Int} {s : Sector} {t : Ty} {v : Value} :
      Changes A W rs m n → DataCell rs a → Sector.locate? a = some (s, t) → (s = .temporals → W a) →
      v.HasTy t → n.write (.ofInt a) v = .ok n' → Changes A W rs m n'
  | point {k k' : Memory} {before later : List Reservation} {t : Ty} {n base b : Int} :
      Changes A W rs m k → rs = before ++ ⟨.temporals, t, 1, true⟩ :: later →
        GivenArray before t n base →
      base ≤ b → b < base + n → A ((Counters.after before).next .temporals t) →
      W ((Counters.after before).next .temporals t) →
      k.write (.ofInt ((Counters.after before).next .temporals t)) (.int b) = .ok k' →
        Changes A W rs m k'
  | locals {n : Memory} {b : Bank} : Changes A W rs m n → b.IsTyped →
      Changes A W rs m { n with locals := b }

namespace Memory.Changes

theorem trans {k : Memory} (h : m.Changes A W rs n) (h' : n.Changes A W rs k) :
    m.Changes A W rs k := by
  induction h' with
  | refl => exact h
  | write _ hdata hloc hW hv hw ih => exact ih.write hdata hloc hW hv hw
  | point _ hrs hbase hlo hhi hA hW hw ih => exact ih.point hrs hbase hlo hhi hA hW hw
  | locals _ hb ih => exact ih.locals hb

/-- Changes keep cells typed. -/
theorem isTyped (h : m.Changes A W rs n) (hr : Roomy rs) (hm : m.IsTyped A rs) :
    n.IsTyped A rs := by
  induction h with
  | refl => exact hm
  | write _ hdata hloc _ hv hw ih => exact ih.write hloc (.data (fun _ => hdata) hv) hw
  | @point _ _ before later t n base b _ hrs hbase hlo hhi hA _ hw ih =>
    have hloc : Sector.locate? ((Counters.after before).next .temporals t) =
        some (.temporals, t) := by
      rw [hrs] at hr
      exact hr.locate (Int.le_refl _) (Int.lt_succ _)
    exact ih.write hloc (.pointer rfl hrs rfl hbase hlo hhi hA) hw
  | locals _ hb ih => exact ih.withLocals hb

/-- Changes leave the other temporal cells alone. -/
theorem read_eq (h : m.Changes A W rs n) (hloc : Sector.locate? a = some (.temporals, t))
    (ha : ¬W a) : n.read (.ofInt a) = m.read (.ofInt a) := by
  induction h with
  | refl => rfl
  | write _ _ hloc' hW _ hw ih =>
    rw [Memory.read_write_of_ne hw, ih]
    rintro rfl
    exact ha (hW (Prod.mk.inj (Option.some.inj (hloc'.symm.trans hloc))).1)
  | point _ _ _ _ _ _ hW hw ih =>
    rw [Memory.read_write_of_ne hw, ih]
    rintro rfl
    exact ha hW
  | @locals n b _ _ ih =>
    rw [← ih]
    exact Memory.read_congr hloc rfl

end Memory.Changes

end

/-! ## Actions -/

/-- If a field is the address of a cell, that cell may be set. -/
def Field.Allows (W : Int → Prop) (x : Field) : Prop :=
  ∀ a, x = .num a → W a

/-- All cells of a machine hold what they may, also those that were saved. Random numbers are
decimals. -/
structure Machine.IsTyped (A : Int → Prop) (rs : List Reservation) (m : Machine) : Prop where
  memory : m.memory.IsTyped A rs
  records : ∀ b ∈ m.records, Bank.IsTyped b
  randoms : ∀ n, (m.randoms n).HasTy .dec

/-- How code changes a machine. What it saves is typed. -/
structure Machine.Changes (A W : Int → Prop) (rs : List Reservation) (m m' : Machine) : Prop where
  memory : m.memory.Changes A W rs m'.memory
  records : ∀ b ∈ m'.records, Bank.IsTyped b
  randoms : m'.randoms = m.randoms

namespace Machine.Changes

variable {m m' m'' : Machine}

theorem refl (hm : m.IsTyped A rs) : m.Changes A W rs m :=
  ⟨.refl, hm.records, rfl⟩

theorem trans (h : m.Changes A W rs m') (h' : m'.Changes A W rs m'') : m.Changes A W rs m'' :=
  ⟨h.memory.trans h'.memory, h'.records, h'.randoms.trans h.randoms⟩

theorem isTyped (h : m.Changes A W rs m') (hr : Roomy rs) (hm : m.IsTyped A rs) :
    m'.IsTyped A rs where
  memory := h.memory.isTyped hr hm.memory
  records := h.records
  randoms := h.randoms ▸ hm.randoms

end Machine.Changes

namespace Exec

variable {α β : Type} {args args'' : List Field} {P : α → Prop} {Q : β → Prop}

/-- With some operands handed over, an action changes a machine as code may, also if it fails. If it
does not, its result is of one kind, and the operands left are the given ones. -/
def Does (A W : Int → Prop) (rs : List Reservation) (args : List Field) (x : Exec α) (P : α → Prop)
    (args' : List Field) : Prop :=
  ∀ m, m.IsTyped A rs → m.parameters = args.map Field.text →
    m.Changes A W rs (x.runFrom m).2 ∧
      ∀ a, (x.runFrom m).1 = .ok a → P a ∧ (x.runFrom m).2.parameters = args'.map Field.text

theorem does_pure {a : α} (h : P a) : Does A W rs args (pure a) P args := by
  intro m hm hargs
  refine ⟨.refl hm, fun b hb => ?_⟩
  cases hb
  exact ⟨h, hargs⟩

theorem does_throw (f : Fault) : Does A W rs args (throw f : Exec α) P args' := by
  intro m hm _
  exact ⟨.refl hm, fun a ha => by cases ha⟩

theorem does_get :
    Does A W rs args (get : Exec Machine)
      (fun m => m.IsTyped A rs ∧ m.parameters = args.map Field.text) args := by
  intro m hm hargs
  refine ⟨.refl hm, fun n hn => ?_⟩
  cases hn
  exact ⟨⟨hm, hargs⟩, hargs⟩

theorem does_ofExcept {x : Except Fault α} (h : ∀ a, x = .ok a → P a) :
    Does A W rs args (Attempt.ofExcept x) P args := by
  intro m hm hargs
  rw [Attempt.runFrom_ofExcept]
  exact ⟨.refl hm, fun a ha => ⟨h a ha, hargs⟩⟩

theorem Does.bind (hr : Roomy rs) {x : Exec α} {f : α → Exec β} (hx : Does A W rs args x P args')
    (hf : ∀ a, P a → Does A W rs args' (f a) Q args'') : Does A W rs args (x >>= f) Q args'' := by
  intro m hm hargs
  obtain ⟨hchanges, hok⟩ := hx m hm hargs
  rw [Attempt.runFrom_bind]
  split
  case h_1 a m' hrun =>
    rw [hrun] at hchanges hok
    obtain ⟨ha, hargs'⟩ := hok a rfl
    obtain ⟨hchanges', hok'⟩ := hf a ha m' (hchanges.isTyped hr hm) hargs'
    exact ⟨hchanges.trans hchanges', hok'⟩
  case h_2 e m' hrun =>
    rw [hrun] at hchanges
    exact ⟨hchanges, fun b hb => by cases hb⟩

theorem Does.map (hr : Roomy rs) {x : Exec α} (hx : Does A W rs args x P args') (f : α → β) :
    Does A W rs args (f <$> x) (fun _ => True) args' := by
  rw [← bind_pure_comp]
  exact hx.bind hr fun _ _ => does_pure trivial

/-- Input and output are no concern here. -/
theorem does_modify {f : Machine → Machine} (hmemory : ∀ m, (f m).memory = m.memory)
    (hrecords : ∀ m, (f m).records = m.records) (hrandoms : ∀ m, (f m).randoms = m.randoms)
    (hparameters : ∀ m, m.parameters = args.map Field.text →
      (f m).parameters = args'.map Field.text) :
    Does A W rs args (modify f : Exec PUnit) (fun _ => True) args' := by
  intro m hm hargs
  rw [Attempt.runFrom_modify]
  refine ⟨⟨by rw [hmemory]; exact .refl, ?_, hrandoms m⟩, fun _ _ => ⟨trivial, hparameters m hargs⟩⟩
  rw [hrecords]
  exact hm.records

theorem does_value (hr : Roomy rs) (hx : Given rs t x) :
    Does A W rs args (value x.text) (·.HasTy t) args := by
  intro m hm hargs
  rw [runFrom_value]
  exact ⟨.refl hm, fun v hv => ⟨hm.memory.load hr hx hv, hargs⟩⟩

theorem does_store (hr : Roomy rs) (hx : Given rs t x) (hW : x.Allows W) (hv : v.HasTy t) :
    Does A W rs args (store v x.text) (fun _ => True) args := by
  intro m hm hargs
  rw [runFrom_store]
  split
  case h_1 memory hstore =>
    obtain ⟨a, s, hdata, hloc, hname, hw⟩ := hm.memory.store hr hx hstore
    exact ⟨⟨.write .refl hdata hloc (fun hs => hW a (hname hs)) hv hw, hm.records, rfl⟩, fun _ _ =>
      ⟨trivial, hargs⟩⟩
  case h_2 => exact ⟨.refl hm, fun _ h => by cases h⟩

theorem does_popParameter : Does A W rs (x :: args) popParameter (· = x.text) args := by
  intro m hm hargs
  unfold popParameter
  rw [Attempt.runFrom_bind, Attempt.runFrom_get]
  dsimp only
  rw [hargs]
  refine ⟨⟨.refl, hm.records, rfl⟩, fun s hs => ?_⟩
  cases hs
  exact ⟨rfl, rfl⟩

theorem does_popValue (hr : Roomy rs) (hx : Given rs t x) :
    Does A W rs (x :: args) popValue (·.HasTy t) args := by
  refine does_popParameter.bind hr fun s hs => ?_
  rw [hs]
  exact does_value hr hx

/-- What changes nothing may fail or not. -/
theorem does_of_keeps {x : Exec α} (h : Keeps (fun m => m) x) :
    Does A W rs args x (fun _ => True) args := by
  intro m hm hargs
  rw [show (x.runFrom m).2 = m from h m]
  exact ⟨.refl hm, fun _ _ => ⟨trivial, hargs⟩⟩

end Exec

open Exec

section

variable {args : List Field} {p : Program} {i : Int}

namespace Routine

theorem does_printWith (hr : Roomy rs) (hx : Given rs t x) (ending : String) :
    Does A W rs [x] (printWith ending) (fun _ => True) [] :=
  (does_popValue hr hx).bind hr fun _ _ =>
    (does_ofExcept (P := fun _ => True) fun _ _ => trivial).bind hr
    fun _ _ => does_modify (fun _ => rfl) (fun _ => rfl) (fun _ => rfl) fun _ h => h

theorem does_storeOf (hr : Roomy rs) {u : Ty} (hx : Given rs t x) (hd : Given rs u d)
    (hW : d.Allows W) {f : Value → Except Fault Value}
    (hf : ∀ v w, v.HasTy t → f v = .ok w → w.HasTy u) :
    Does A W rs [x] (storeOf f d.text) (fun _ => True) [] :=
  (does_popValue hr hx).bind hr fun v hv => (does_ofExcept fun w hw => hf v w hv hw).bind hr
    fun _ hw => does_store hr hd hW hw

theorem does_nextRandom : Does A W rs args nextRandom (·.HasTy .dec) args := by
  intro m hm hargs
  refine ⟨⟨.refl, hm.records, rfl⟩, fun v hv => ?_⟩
  cases hv
  exact ⟨hm.randoms _, hargs⟩

theorem does_readInput (hr : Roomy rs) (hd : Given rs .str d) (hW : d.Allows W) :
    Does A W rs args (readInput d.text) (fun _ => True) args := by
  refine does_get.bind hr fun m _ => ?_
  split
  · exact does_throw _
  · exact (does_store hr hd hW (Value.hasTy_str.2 ⟨_, rfl⟩)).bind hr fun _ _ =>
      does_modify (fun _ => rfl) (fun _ => rfl) (fun _ => rfl) fun _ h => h

/-- Jumps and checks change nothing. -/
theorem keeps_perform_of_check (h : r = goto ∨ r = gotof ∨ r = ver) (name : String)
    (fields : List String) : Keeps (fun m => m) (r.perform p i name fields) := by
  refine keeps_perform (fun fields => ?_) name fields
  have hverify : ∀ index low high, Keeps (fun m => m) (verify index low high) := by
    intro index low high
    refine (keeps_value _).bind fun _ => (keeps_integer _).bind fun _ =>
      (keeps_integer _).bind fun _ => (keeps_ofExcept _).bind fun _ => ?_
    split
    · exact (keeps_ofExcept _).bind fun _ => keeps_throw _
    · exact keeps_pure _
  unfold attempt
  split
  case h_17 => exact (keeps_integer _).map _
  case h_18 =>
    refine (keeps_value _).bind fun v => ?_
    split
    · exact keeps_pure _
    · exact (keeps_integer _).map _
  case h_20 => exact (hverify _ _ _).bind fun _ => keeps_pure _
  case h_23 => exact keeps_throw _
  all_goals simp at h

theorem does_perform_nil (h : Does A W rs args (r.attempt p i []) (fun _ => True) args') :
    Does A W rs args (r.perform p i name []) (fun _ => True) args' := by
  intro m hm hargs
  obtain ⟨hchanges, hok⟩ := h m hm hargs
  rw [runFrom_perform_nil]
  split
  case h_1 next m' hrun =>
    rw [hrun] at hchanges hok
    exact ⟨hchanges, hok⟩
  case h_2 m' hrun | h_3 f m' _ hrun =>
    rw [hrun] at hchanges
    exact ⟨hchanges, fun _ h => by cases h⟩

theorem does_perform_one {a : String} (hnil : r.attempt p i [] = throw .mismatch)
    (h : Does A W rs args (r.attempt p i [a]) (fun _ => True) args') :
    Does A W rs args (r.perform p i name [a]) (fun _ => True) args' := by
  intro m hm hargs
  obtain ⟨hchanges, hok⟩ := h m hm hargs
  rw [runFrom_perform_one hnil]
  split
  case h_1 next m' hrun =>
    rw [hrun] at hchanges hok
    exact ⟨hchanges, hok⟩
  case h_2 f m' hrun =>
    rw [hrun] at hchanges
    exact ⟨hchanges, fun _ h => by cases h⟩

/-- What a routine has done does not tell where to go on. -/
theorem does_done (hr : Roomy rs) {x : Exec Unit} (h : Does A W rs args x (fun _ => True) args') :
    Does A W rs args (do x; return (none : Option Int)) (fun _ => True) args' :=
  h.bind hr fun _ _ => does_pure trivial

theorem does_playNotes (names : List String) :
    Does A W rs args (playNotes names) (fun _ => True) args :=
  does_modify (fun _ => rfl) (fun _ => rfl) (fun _ => rfl) fun _ h => h

theorem does_param (x n : Field) :
    Does A W rs args (param.perform p i "PARAM" [x.text, n.text]) (fun _ => True) (x :: args) := by
  have h : Does A W rs args (modify fun m => { m with parameters := x.text :: m.parameters } :
      Exec PUnit)
      (fun _ => True) (x :: args) :=
    does_modify (fun _ => rfl) (fun _ => rfl) (fun _ => rfl) fun m h => by simp [h]
  intro m hm hargs
  obtain ⟨hchanges, hok⟩ := h m hm hargs
  exact ⟨hchanges, fun _ _ => hok _ rfl⟩

/-! ## Special functions -/

section

variable {R : Field → List Ty → Prop} {us vs : List Ty}

theorem eq_singleton_of_forall₂ (h : List.Forall₂ R args.reverse [us]) :
    ∃ x, args = [x] ∧ R x us := by
  obtain ⟨x, _, hx, hnil, hxs⟩ := List.forall₂_cons_right_iff.1 h
  obtain rfl := List.forall₂_nil_right_iff.1 hnil
  exact ⟨x, List.reverse_eq_iff.1 hxs, hx⟩

theorem eq_pair_of_forall₂ (h : List.Forall₂ R args.reverse [us, vs]) :
    ∃ x y, args = [y, x] ∧ R x us ∧ R y vs := by
  obtain ⟨x, _, hx, h, hxs⟩ := List.forall₂_cons_right_iff.1 h
  obtain ⟨y, _, hy, hnil, rfl⟩ := List.forall₂_cons_right_iff.1 h
  obtain rfl := List.forall₂_nil_right_iff.1 hnil
  exact ⟨x, y, List.reverse_eq_iff.1 hxs, hx, hy⟩

theorem eq_nil_of_forall₂ (h : List.Forall₂ R args.reverse []) : args = [] :=
  List.reverse_eq_nil_iff.1 (List.forall₂_nil_right_iff.1 h)

end

/-- A special function without result uses up its arguments. -/
theorem does_special (hr : Roomy rs) {s : Special.Signature} (hs : Special.signature? name = some s)
    (hres : s.result = none)
    (hargs : List.Forall₂ (fun x ts => ∃ t ∈ ts, Given rs t x) args.reverse s.parameters)
    (hW : ∀ x ∈ args, x.Allows W) :
    ∃ r, Operation.ofName? name = none ∧ ofName? name = some r ∧
      Does A W rs args (r.perform p i name []) (fun _ => True) [] := by
  have hplay : ∀ names, args = [] →
      Does A W rs args (do playNotes names; return (none : Option Int))
      (fun _ => True) [] := by
    rintro names rfl
    exact does_done hr (does_playNotes names)
  unfold Special.signature? at hs
  split at hs <;> cases hs <;>
    first | (cases hres; done) | refine ⟨_, by decide, rfl, does_perform_nil ?_⟩
  case h_1 | h_2 =>
    obtain ⟨x, rfl, t, -, hx⟩ := eq_singleton_of_forall₂ hargs
    exact does_done hr (does_printWith hr hx _)
  case h_17 =>
    obtain ⟨x, y, rfl, ⟨t, ht, hx⟩, u, hu, hy⟩ := eq_pair_of_forall₂ hargs
    obtain rfl := List.mem_singleton.1 ht
    obtain rfl := List.mem_singleton.1 hu
    refine does_done hr (does_popParameter.bind hr fun d hd =>
      (does_popValue hr hx).bind hr fun v hv => ?_)
    rw [hd]
    exact does_store hr hy (hW y List.mem_cons_self) hv
  all_goals exact hplay _ (eq_nil_of_forall₂ hargs)

/-- A special function with a result uses up its arguments and stores a value of the type of its
result. -/
theorem does_specialValue (hr : Roomy rs) {s : Special.Signature}
    (hs : Special.signature? name = some s) (hres : s.result = some t)
    (hargs : List.Forall₂ (fun x ts => ∃ t ∈ ts, Given rs t x) args.reverse s.parameters)
    (hd : Given rs t d) (hW : d.Allows W) :
    ∃ r, Operation.ofName? name = none ∧ ofName? name = some r ∧
      Does A W rs args (r.perform p i name [d.text]) (fun _ => True) [] := by
  have hstore : ∀ f : Value → Except Fault Value, (∀ v w, f v = .ok w → w.HasTy t) → ∀ us : List Ty,
      List.Forall₂ (fun x ts => ∃ t ∈ ts, Given rs t x) args.reverse [us] →
      Does A W rs args (do storeOf f d.text; return (none : Option Int)) (fun _ => True) [] := by
    intro f hf us hargs
    obtain ⟨x, rfl, u, -, hx⟩ := eq_singleton_of_forall₂ hargs
    exact does_done hr (does_storeOf hr hx hd hW fun v w _ => hf v w)
  unfold Special.signature? at hs
  split at hs <;> cases hs <;> cases hres <;> refine ⟨_, by decide, rfl, does_perform_one rfl ?_⟩
  case h_3 => exact hstore _ (fun _ _ => text_hasTy) _ hargs
  case h_4 =>
    obtain ⟨x, y, rfl, ⟨t, -, hx⟩, u, -, hy⟩ := eq_pair_of_forall₂ hargs
    exact does_done hr ((does_popValue hr hy).bind hr fun _ _ =>
      (does_popValue hr hx).bind hr fun _ _ =>
      (does_ofExcept fun _ => characterOf_hasTy).bind hr fun _ hw => does_store hr hd hW hw)
  case h_5 => exact hstore _ (fun _ _ => sqrtOf_hasTy) _ hargs
  case h_6 => exact hstore _ (fun _ _ => logOf_hasTy) _ hargs
  case h_7 =>
    obtain rfl := eq_nil_of_forall₂ hargs
    exact does_done hr (does_nextRandom.bind hr fun _ hv => does_store hr hd hW hv)
  case h_16 => exact hstore _ (fun _ _ => lengthOf_hasTy) _ hargs
  case h_18 =>
    obtain rfl := eq_nil_of_forall₂ hargs
    exact does_done hr (does_readInput hr hd hW)
  case h_19 | h_20 => exact hstore _ (fun _ _ => roundWith_hasTy) _ hargs

/-! ## Calls -/

theorem does_writeLocal (hv : v.HasTy t) :
    Does A W rs args (writeLocal t a v) (fun _ => True) args := by
  intro m hm hargs
  unfold writeLocal
  rw [Attempt.runFrom_modify]
  exact ⟨⟨.locals .refl (hm.memory.locals.put hv), hm.records, rfl⟩, fun _ _ => ⟨trivial, hargs⟩⟩

/-- Parameters get values of their types. -/
theorem does_bind (hr : Roomy rs) {ps : List ((Kind × Int) × String)}
    (hps : ∀ b ∈ ps, ∃ x t, b.2 = Field.text x ∧ b.1.1.ty? = some t ∧ Given rs t x) :
    Does A W rs args (bind ps) (fun _ => True) args := by
  induction ps with
  | nil => exact does_pure trivial
  | cons b ps ih =>
    obtain ⟨⟨k, a⟩, _⟩ := b
    obtain ⟨⟨x, t, rfl, hk, hx⟩, hrest⟩ := List.forall_mem_cons.1 hps
    refine (does_value hr hx).bind hr fun v hv => ?_
    simp only [show k.ty? = some t from hk]
    exact (does_writeLocal hv).bind hr fun _ _ => ih hrest

theorem mem_zip_of_forall₂ {R : Field → Kind → Prop} {xs : List Field} {ks : List Kind}
    (h : List.Forall₂ R xs ks) (as : List Int) :
    ∀ b ∈ (ks.zip as).zip (xs.map Field.text), ∃ x, b.2 = Field.text x ∧ R x b.1.1 := by
  induction h generalizing as with
  | nil => simp
  | @cons x k xs ks hx _ ih =>
    cases as with
    | nil => simp
    | cons a as =>
      rw [List.map_cons, List.zip_cons_cons, List.zip_cons_cons]
      exact List.forall_mem_cons.2 ⟨⟨x, rfl, hx⟩, ih as⟩

/-- A call that finds arguments of the right types uses them up. -/
theorem does_enter (hr : Roomy rs) {f : Function} (hf : p.function? name = some f)
    (hargs : List.Forall₂ (fun x k => ∃ t, Kind.ty? k = some t ∧ Given rs t x) args.reverse
      f.parameterKinds) :
    Does A W rs args (enter p name i) (fun _ => True) [] := by
  have hsave : Does A W rs args
      (modify fun m => { m with records := m.memory.locals :: m.records } : Exec PUnit)
        (fun _ => True) args := by
    intro m hm hargs
    rw [Attempt.runFrom_modify]
    exact ⟨⟨.refl, List.forall_mem_cons.2 ⟨hm.memory.locals, hm.records⟩, rfl⟩, fun _ _ =>
      ⟨trivial, hargs⟩⟩
  have huse : Does A W rs args
      (modify fun m => { m with parameters := [], returns := i :: m.returns } : Exec PUnit)
        (fun _ => True) [] :=
    does_modify (fun _ => rfl) (fun _ => rfl) (fun _ => rfl) fun _ _ => rfl
  unfold enter
  refine hsave.bind hr fun _ _ => ?_
  rw [hf]
  refine does_get.bind hr fun m hm => ?_
  refine (does_bind hr fun b hb => ?_).bind hr fun _ _ => huse.bind hr fun _ _ => does_pure trivial
  rw [hm.2, ← List.map_reverse] at hb
  obtain ⟨x, hx, t, ht, hgiven⟩ := mem_zip_of_forall₂ hargs _ b hb
  exact ⟨x, t, hx, ht, hgiven⟩

/-- The cells that come back at the end of a call are typed. -/
theorem restored_isTyped {f : Function} {callee saved : Bank} (hcallee : callee.IsTyped)
    (hsaved : saved.IsTyped) : Bank.IsTyped (restored f callee saved) := by
  unfold restored
  split
  case h_1 t a v hleft =>
    unfold leftBehind at hleft
    split at hleft
    case h_1 u b _ _ =>
      obtain ⟨w, hw, heq⟩ := Option.map_eq_some_iff.1 hleft
      cases heq
      exact hsaved.put (hcallee t _ v hw).2
    case h_2 => cases hleft
  case h_2 => exact hsaved

theorem does_leave (hr : Roomy rs) (name : String) :
    Does A W rs args (leave p name) (fun _ => True) args := by
  unfold leave
  split
  case h_1 => exact does_throw _
  case h_2 f hf =>
    refine does_get.bind hr fun m hm => ?_
    split
    case h_1 => exact does_throw _
    case h_2 saved records hrecords =>
      have hsaved := hm.1.records
      rw [hrecords] at hsaved
      have hrestore : Does A W rs args (modify fun n : Machine => { n with
          memory := { n.memory with locals := restored f m.memory.locals saved }
          records } : Exec PUnit) (fun _ => True) args := by
        intro n hn hargs
        rw [Attempt.runFrom_modify]
        exact ⟨⟨.locals .refl (restored_isTyped hm.1.memory.locals
          (hsaved saved List.mem_cons_self)),
          fun b hb => hsaved b (List.mem_cons_of_mem _ hb), rfl⟩, fun _ _ => ⟨trivial, hargs⟩⟩
      refine hrestore.bind hr fun _ _ => ?_
      split
      case h_1 => exact does_throw _
      case h_2 caller returns _ =>
        exact Does.bind hr (does_modify (fun _ => rfl) (fun _ => rfl) (fun _ => rfl) fun _ h => h)
          fun _ _ => does_pure trivial

end Routine

/-! ## Operations -/

namespace Operation

theorem does_binary (hr : Roomy rs) {o : BinOp} (ho : o ≠ .pow) {l r : Field} {lt rt : Ty}
    (hl : Given rs lt l) (hr' : Given rs rt r) (ht : o.result? lt rt = some t) (hd : Given rs t d)
    (hW : d.Allows W) :
    Does A W rs args ((binary o).perform [l.text, r.text, d.text]) (fun _ => True) args :=
  (does_value hr hl).bind hr fun _ hv => (does_value hr hr').bind hr fun _ hw =>
    (does_ofExcept fun _ h => BinOp.apply_hasTy ho hv hw ht (ok_of_nameDividend h)).bind hr
      fun _ h => does_store hr hd hW h

theorem does_unary (hr : Roomy rs) {o : UnOp} {u : Ty} (hx : Given rs t x)
    (ht : o.result? t = some u) (hd : Given rs u d) (hW : d.Allows W) :
    Does A W rs args ((unary o).perform [x.text, d.text]) (fun _ => True) args :=
  (does_value hr hx).bind hr fun _ hv => (does_ofExcept fun _ h => UnOp.apply_hasTy hv ht h).bind hr
    fun _ h => does_store hr hd hW h

/-- A copy that was completed more than once, or not at all, stores nothing. -/
theorem does_copy (hr : Roomy rs) {fs : List Field}
    (htyped : ∀ x d, fs = [x, d] → ∃ t, Given rs t x ∧ Given rs t d ∧ d.Allows W) :
    Does A W rs args (copy.perform (fs.map Field.text)) (fun _ => True) args := by
  rcases fs with _ | ⟨x, _ | ⟨y, _ | ⟨z, fs⟩⟩⟩
  · exact does_throw _
  · exact does_throw _
  · obtain ⟨t, hx, hy, hW⟩ := htyped x y rfl
    exact (does_value hr hx).bind hr fun v hv => does_store hr hy hW hv
  · exact does_of_keeps ((keeps_value _).bind fun _ => (keeps_value _).bind fun _ _ => rfl)

end Operation

end

end Symphony
