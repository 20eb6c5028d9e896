import Mathlib.Data.List.Forall2
import Symphony.Proofs.Cells
import Symphony.Proofs.Flow

/-!
# More memory

A run on a machine that holds more cells takes the same course. Only one thing could tell the two
machines apart: a fault by a cell that has no value yet. Whoever gets beyond such a read has seen
the same values.

**Theorem (`Machine.play_of_extends`).** If a program runs to its end, it does so on every machine
whose memory and saved records extend those of the first one, along the same quads and with the same
output.

A function that is left hands its result over only if it has set it, so a machine with more cells
can hand over more. It replaces no value that the caller had saved, because the callee starts with
all that the caller has: in every machine that arises, the saved cells of a caller are among those
of its callees (`Layered`). Two machines of which this does not hold can part
(`Machine.play_of_extends_unlayered`).
-/

namespace Symphony

variable {m m' : Machine} {p : Program} {b b' : Bank} {base : List Bank} {n : Memory}
  {stored : List Int}

/-! ## Extensions -/

/-- All cells of one bank are in another one, with their values. -/
def Bank.Extends (b' b : Bank) : Prop :=
  ∀ (t : Ty) (s : Slot) (v : Value), (b.get t)[s]? = some v → (b'.get t)[s]? = some v

/-- All cells that have a value in one bank have one in another. -/
def Bank.Fills (b' b : Bank) : Prop :=
  ∀ (t : Ty) (s : Slot), (b.get t)[s]? ≠ none → (b'.get t)[s]? ≠ none

namespace Bank

variable {b'' : Bank}

theorem Extends.refl (b : Bank) : b.Extends b :=
  fun _ _ _ h => h

theorem Fills.refl (b : Bank) : b.Fills b :=
  fun _ _ h => h

theorem Fills.trans (h : b'.Fills b) (h' : b''.Fills b') : b''.Fills b :=
  fun t s hs => h' t s (h t s hs)

theorem fills_put (b : Bank) (t : Ty) (s : Slot) (v : Value) :
    Bank.Fills (b.set t ((b.get t).put s v)) b := by
  intro u r hr
  rw [getElem?_set_put_slot]
  split
  · exact nofun
  · exact hr

/-- The same cell is written in both. -/
theorem Extends.put (h : b'.Extends b) (t : Ty) (s : Slot) (v : Value) :
    Bank.Extends (b'.set t ((b'.get t).put s v)) (b.set t ((b.get t).put s v)) := by
  intro u r w hw
  rw [getElem?_set_put_slot] at hw ⊢
  split at hw
  case isTrue hsame => rwa [if_pos hsame]
  case isFalse hsame =>
    rw [if_neg hsame]
    exact h u r w hw

/-- A cell without a value is written in the second only. -/
theorem Extends.put_right (h : b'.Extends b) {t : Ty} {s : Slot} (hs : (b.get t)[s]? = none)
    (v : Value) : Bank.Extends (b'.set t ((b'.get t).put s v)) b := by
  intro u r w hw
  rw [getElem?_set_put_slot, if_neg]
  · exact h u r w hw
  · rintro ⟨rfl, hsame⟩
    rw [Std.TreeMap.getElem?_congr hsame] at hs
    rw [hs] at hw
    cases hw

end Bank

namespace Memory

variable {m m' : Memory}

/-- All cells of one memory are in another one, with their values. -/
def Extends (m' m : Memory) : Prop :=
  ∀ s, (m'.get s).Extends (m.get s)

theorem Extends.refl (m : Memory) : m.Extends m :=
  fun _ => .refl _

theorem Extends.of_empty (m : Memory) : m.Extends .empty := by
  intro s t k v hv
  cases s <;> cases t <;>
    simp [Memory.empty, PerSector.ofFn, PerSector.get, Bank.empty, PerTy.ofFn, PerTy.get] at hv

theorem Extends.set (h : m'.Extends m) (hb : b'.Extends b) (s : Sector) :
    Extends (PerSector.set m' s b') (PerSector.set m s b) := by
  intro r
  by_cases hr : r = s
  · subst hr
    rwa [PerSector.get_set_self, PerSector.get_set_self]
  · rw [PerSector.get_set_of_ne _ _ hr, PerSector.get_set_of_ne _ _ hr]
    exact h r

/-- A cell is read the same, unless it has no value in the smaller memory. -/
theorem Extends.read (h : m'.Extends m) (s : Slot) :
    m.read s = .error .uninitialized ∨ m'.read s = m.read s := by
  unfold Memory.read
  split
  case h_1 => exact .inr rfl
  case h_2 sector t _ =>
    cases hv : ((m.get sector).get t)[s]? with
    | none => exact .inl rfl
    | some v =>
      rw [h sector t s v hv]
      exact .inr rfl

theorem Extends.resolve (h : m'.Extends m) (r : Reference) :
    m.resolve r = .error .uninitialized ∨ m'.resolve r = m.resolve r := by
  induction r with
  | direct a => exact .inr rfl
  | nowhere => exact .inr rfl
  | through r ih =>
    rw [Memory.resolve, Memory.resolve]
    rcases ih with ih | ih
    · exact .inl (by rw [ih]; rfl)
    · rw [ih]
      cases m.resolve r with
      | error f => exact .inr rfl
      | ok s =>
        rcases h.read s with hread | hread
        · exact .inl (by rw [Except.bind, hread]; rfl)
        · exact .inr (by rw [Except.bind, Except.bind, hread])

/-- An operand has the same value, unless it has none in the smaller memory. -/
theorem Extends.load (h : m'.Extends m) (r : Reference) :
    m.load r = .error .uninitialized ∨ m'.load r = m.load r := by
  unfold Memory.load
  rcases h.resolve r with hr | hr
  · exact .inl (by rw [hr]; rfl)
  · rw [hr]
    cases m.resolve r with
    | error f => exact .inr rfl
    | ok s => exact h.read s

/-- Writing fills the cell that is written and no other one loses its value. -/
theorem fills_of_write {s : Slot} {v : Value} (h : m.write s v = .ok n) (r : Sector) :
    (n.get r).Fills (m.get r) := by
  unfold Memory.write at h
  split at h
  case h_1 => cases h
  case h_2 sector t _ =>
    cases h
    by_cases hr : r = sector
    · subst hr
      rw [PerSector.get_set_self]
      exact Bank.fills_put _ t s v
    · rw [PerSector.get_set_of_ne _ _ hr]
      exact .refl _

theorem Extends.write (h : m'.Extends m) (s : Slot) (v : Value) :
    (∃ f, m.write s v = .error f ∧ m'.write s v = .error f) ∨
      ∃ n n', m.write s v = .ok n ∧ m'.write s v = .ok n' ∧ n'.Extends n := by
  unfold Memory.write
  split
  case h_1 => exact .inl ⟨_, rfl, rfl⟩
  case h_2 r t _ => exact .inr ⟨_, _, rfl, rfl, h.set ((h r).put t s v) r⟩

/-- A store succeeds in both or fails in both, unless the place of the operand is unknown in the
smaller memory. -/
theorem Extends.store (h : m'.Extends m) (r : Reference) (v : Value) :
    m.store r v = .error .uninitialized ∨ (∃ f, m.store r v = .error f ∧ m'.store r v = .error f) ∨
      ∃ n n', m.store r v = .ok n ∧ m'.store r v = .ok n' ∧ n'.Extends n := by
  unfold Memory.store
  rcases h.resolve r with hr | hr
  · exact .inl (by rw [hr]; rfl)
  · rw [hr]
    cases m.resolve r with
    | error f => exact .inr (.inl ⟨f, rfl, rfl⟩)
    | ok s => exact .inr (h.write s v)

theorem fills_of_store {r : Reference} {v : Value} (h : m.store r v = .ok n) (s : Sector) :
    (n.get s).Fills (m.get s) := by
  unfold Memory.store at h
  cases hr : m.resolve r with
  | error f =>
    rw [hr] at h
    cases h
  | ok slot =>
    rw [hr] at h
    exact fills_of_write h s

end Memory

/-! ## Saved records -/

/-- What a caller has saved is among the cells of its callee. -/
def Layered : Bank → List Bank → Prop
  | _, [] => True
  | b, r :: rs => b.Fills r ∧ Layered r rs

theorem Layered.fills {rs : List Bank} (h : Layered b rs) (hb : b'.Fills b) : Layered b' rs := by
  cases rs with
  | nil => trivial
  | cons r rs => exact ⟨h.1.trans hb, h.2⟩

def Machine.Layered (m : Machine) : Prop :=
  Symphony.Layered m.memory.locals m.records

/-- A second machine is like a first one, with more cells, and with some older calls suspended below
those of the first. -/
structure Machine.Below (base : List Bank) (stored : List Int) (m m' : Machine) : Prop where
  memory : m'.memory.Extends m.memory
  records : ∃ rs, m'.records = rs ++ base ∧ List.Forall₂ (fun b b' => Bank.Extends b' b)
    m.records rs
  returns : m'.returns = m.returns ++ stored
  layered : m.Layered
  others : m' = { m with memory := m'.memory, records := m'.records, returns := m'.returns }

namespace Machine.Below

theorem parameters (h : m.Below base stored m') : m'.parameters = m.parameters :=
  (congrArg Machine.parameters h.others :)

theorem inputs (h : m.Below base stored m') : m'.inputs = m.inputs :=
  (congrArg Machine.inputs h.others :)

theorem inputCount (h : m.Below base stored m') : m'.inputCount = m.inputCount :=
  (congrArg Machine.inputCount h.others :)

theorem prints (h : m.Below base stored m') : m'.prints = m.prints :=
  (congrArg Machine.prints h.others :)

theorem notes (h : m.Below base stored m') : m'.notes = m.notes :=
  (congrArg Machine.notes h.others :)

/-- A change of both machines that neither memory nor suspended calls show. -/
theorem change (h : m.Below base stored m') (f : Machine → Machine)
    (hf : ∀ n, (f n).memory = n.memory ∧ (f n).records = n.records ∧ (f n).returns = n.returns)
    (hcongr : ∀ n memory records returns, f { n with memory, records, returns } =
      { f n with memory, records, returns }) : (f m).Below base stored (f m') where
  memory := by rw [(hf m').1, (hf m).1]; exact h.memory
  records := by rw [(hf m').2.1, (hf m).2.1]; exact h.records
  returns := by rw [(hf m').2.2, (hf m).2.2]; exact h.returns
  layered := by rw [Machine.Layered, (hf m).1, (hf m).2.1]; exact h.layered
  others := by
    rw [(hf m').1, (hf m').2.1, (hf m').2.2, ← hcongr, ← h.others]

/-- Other memories that are in the same relation. -/
theorem withMemory (h : m.Below base stored m') {n' : Memory} (hn : n'.Extends n)
    (hfills : n.locals.Fills m.memory.locals) :
    Machine.Below base stored { m with memory := n } { m' with memory := n' } where
  memory := hn
  records := h.records
  returns := h.returns
  layered := h.layered.fills hfills
  others := by rw [h.others]

/-- Other stored indices above those that only the second machine has. -/
theorem withReturns (h : m.Below base stored m') (returns : List Int) :
    Machine.Below base stored { m with returns } { m' with returns := returns ++ stored } :=
  { h with
    returns := rfl
    others := by rw [h.others] }

end Machine.Below

/-! ## Actions -/

namespace Exec

variable {α β : Type}

/-- The second of two results is that of the first, unless the first has met a cell without a
value. -/
def Follows (base : List Bank) (stored : List Int) (r r' : Except Fault α × Machine) : Prop :=
  (r.1 = .error .uninitialized ∧ r.2.Layered) ∨ (r'.1 = r.1 ∧ r.2.Below base stored r'.2)

/-- An action does the same on a machine with more cells. -/
def Mono (base : List Bank) (stored : List Int) (x : Exec α) : Prop :=
  ∀ m m', m.Below base stored m' → Follows base stored (x.runFrom m) (x.runFrom m')

theorem mono_pure (a : α) : Mono base stored (pure a : Exec α) :=
  fun _ _ h => .inr ⟨rfl, h⟩

theorem mono_throw (f : Fault) : Mono base stored (throw f : Exec α) :=
  fun _ _ h => .inr ⟨rfl, h⟩

theorem mono_ofExcept (x : Except Fault α) : Mono base stored (Attempt.ofExcept x : Exec α) := by
  intro m m' h
  rw [Attempt.runFrom_ofExcept, Attempt.runFrom_ofExcept]
  exact .inr ⟨rfl, h⟩

theorem mono_modify {f : Machine → Machine}
    (hf : ∀ m m', m.Below base stored m' → (f m).Below base stored (f m')) :
    Mono base stored (modify f : Exec PUnit) :=
  fun m m' h => .inr ⟨rfl, hf m m' h⟩

/-- What follows an action may depend on what both machines agree on. -/
theorem mono_get {f : Machine → Exec β}
    (hf : ∀ m m', m.Below base stored m' →
    Follows base stored ((f m).runFrom m) ((f m').runFrom m')) : Mono base stored (get >>= f) := by
  intro m m' h
  rw [Attempt.runFrom_bind, Attempt.runFrom_bind, Attempt.runFrom_get, Attempt.runFrom_get]
  exact hf m m' h

theorem Mono.bind {x : Exec α} {f : α → Exec β} (hx : Mono base stored x)
    (hf : ∀ a, Mono base stored (f a)) : Mono base stored (x >>= f) := by
  intro m m' h
  rw [Attempt.runFrom_bind, Attempt.runFrom_bind]
  have hfollows := hx m m' h
  revert hfollows
  generalize x.runFrom m = r, x.runFrom m' = r'
  obtain ⟨r, n⟩ := r
  obtain ⟨r', n'⟩ := r'
  rintro (⟨hunset, hlayered⟩ | ⟨hresult, hbelow⟩)
  · cases hunset
    exact .inl ⟨rfl, hlayered⟩
  · cases hresult
    cases r with
    | error f => exact .inr ⟨rfl, hbelow⟩
    | ok a => exact hf a n n' hbelow

theorem Mono.map {x : Exec α} (hx : Mono base stored x) (f : α → β) :
    Mono base stored (f <$> x) := by
  rw [← bind_pure_comp]
  exact hx.bind fun a => mono_pure (f a)

/-- A handler may not catch what the two machines differ in. -/
theorem Mono.tryCatch {x : Exec α} {handle : Fault → Exec α} (hx : Mono base stored x)
    (hh : ∀ f, Mono base stored (handle f))
    (hunset : handle .uninitialized = throw .uninitialized) :
    Mono base stored (MonadExcept.tryCatch x handle) := by
  intro m m' h
  rw [show (MonadExcept.tryCatch x handle).runFrom m = _ from Attempt.runFrom_tryCatch x handle m,
    show (MonadExcept.tryCatch x handle).runFrom m' = _ from Attempt.runFrom_tryCatch x handle m']
  have hfollows := hx m m' h
  revert hfollows
  generalize x.runFrom m = r, x.runFrom m' = r'
  obtain ⟨r, n⟩ := r
  obtain ⟨r', n'⟩ := r'
  rintro (⟨hf, hlayered⟩ | ⟨hresult, hbelow⟩)
  · cases hf
    dsimp only
    rw [hunset]
    exact .inl ⟨rfl, hlayered⟩
  · cases hresult
    cases r with
    | error f => exact hh f n n' hbelow
    | ok a => exact .inr ⟨rfl, hbelow⟩

theorem mono_value (field : String) : Mono base stored (value field) := by
  intro m m' h
  rw [runFrom_value, runFrom_value]
  rcases h.memory.load (.ofField field) with hload | hload
  · exact .inl ⟨hload, h.layered⟩
  · exact .inr ⟨hload, h⟩

theorem mono_store (v : Value) (field : String) : Mono base stored (store v field) := by
  intro m m' h
  rw [runFrom_store, runFrom_store]
  rcases h.memory.store (.ofField field) v with hs | ⟨f, hs, hs'⟩ | ⟨n, n', hs, hs', hn⟩
  · rw [hs]
    exact .inl ⟨rfl, h.layered⟩
  · rw [hs, hs']
    exact .inr ⟨rfl, h⟩
  · rw [hs, hs']
    exact .inr ⟨rfl, h.withMemory hn (Memory.fills_of_store hs .locals)⟩

theorem mono_integer (field : String) : Mono base stored (integer field) := by
  unfold integer
  split
  · exact mono_pure _
  · exact mono_throw _

theorem mono_popParameter : Mono base stored popParameter := by
  refine mono_get fun m m' h => ?_
  rw [h.parameters]
  split
  · exact mono_throw _ m m' h
  · refine Mono.bind (mono_modify fun n n' hn => ?_) (fun _ => mono_pure _) m m' h
    exact hn.change (fun n => { n with parameters := _ }) (fun _ => ⟨rfl, rfl, rfl⟩) fun _ _ _ _ =>
      rfl

theorem mono_popValue : Mono base stored popValue :=
  mono_popParameter.bind fun _ => mono_value _

end Exec

open Exec

theorem Operation.mono_perform (o : Operation) (fields : List String) :
    Mono base stored (o.perform fields) := by
  unfold Operation.perform
  split
  · exact (mono_value _).bind fun _ => (mono_ofExcept _).bind fun _ => mono_store _ _
  · exact (mono_value _).bind fun _ => (mono_value _).bind fun _ => (mono_ofExcept _).bind fun _ =>
      mono_store _ _
  · exact mono_throw _

namespace Routine

theorem mono_printWith (ending : String) : Mono base stored (printWith ending) :=
  mono_popValue.bind fun _ => (mono_ofExcept _).bind fun s => mono_modify fun _ _ h =>
    h.change (fun m => { m with prints := m.prints.push (s ++ ending) }) (fun _ => ⟨rfl, rfl, rfl⟩)
      fun _ _ _ _ => rfl

theorem mono_playNotes (names : List String) : Mono base stored (playNotes names) :=
  mono_modify fun _ _ h =>
    h.change (fun m => { m with notes := m.notes ++ names.toArray }) (fun _ => ⟨rfl, rfl, rfl⟩)
      fun _ _ _ _ => rfl

theorem mono_storeOf (f : Value → Except Fault Value) (d : String) :
    Mono base stored (storeOf f d) :=
  mono_popValue.bind fun _ => (mono_ofExcept _).bind fun _ => mono_store _ _

theorem mono_nextRandom : Mono base stored nextRandom := by
  refine mono_get fun m m' h => ?_
  have hrandom : m'.randoms m'.randomCount = m.randoms m.randomCount := by rw [h.others]
  rw [hrandom]
  refine Mono.bind (mono_modify fun n n' hn => ?_) (fun _ => mono_pure _) m m' h
  exact hn.change (fun n => { n with randomCount := n.randomCount + 1 }) (fun _ => ⟨rfl, rfl, rfl⟩)
    fun _ _ _ _ => rfl

theorem mono_readInput (d : String) : Mono base stored (readInput d) := by
  refine mono_get fun m m' h => ?_
  rw [h.inputs, h.inputCount]
  split
  · exact mono_throw _ m m' h
  · refine Mono.bind (mono_store _ d) (fun _ => mono_modify fun n n' hn => ?_) m m' h
    exact hn.change (fun n => { n with inputCount := n.inputCount + 1 }) (fun _ => ⟨rfl, rfl, rfl⟩)
      fun _ _ _ _ => rfl

theorem mono_verify (index low high : String) : Mono base stored (verify index low high) := by
  refine (mono_value _).bind fun v => (mono_integer _).bind fun high =>
    (mono_integer _).bind fun low => (mono_ofExcept _).bind fun b => ?_
  split
  · exact (mono_ofExcept _).bind fun _ => mono_throw _
  · exact mono_pure _

theorem mono_accessElement (b index d : String) : Mono base stored (accessElement b index d) :=
  (mono_value _).bind fun _ => (mono_integer _).bind fun _ => (mono_ofExcept _).bind fun _ =>
    mono_store _ _

/-! ## Calls -/

theorem mono_writeLocal (t : Ty) (a : Int) (v : Value) : Mono base stored (writeLocal t a v) := by
  refine mono_modify fun m m' h => ?_
  refine h.withMemory (h.memory.set ((h.memory .locals).put t (.ofInt a) v) .locals) ?_
  exact Bank.fills_put _ t (.ofInt a) v

theorem mono_bind (ps : List ((Kind × Int) × String)) : Mono base stored (bind ps) := by
  induction ps with
  | nil => exact mono_pure _
  | cons p ps ih =>
    refine (mono_value _).bind fun v => ?_
    split
    · exact mono_throw _
    · exact (mono_writeLocal _ _ _).bind fun _ => ih

theorem mono_enter (p : Program) (name : String) (caller : Int) :
    Mono base stored (enter p name caller) := by
  refine Mono.bind (mono_modify fun m m' h => ?_) fun _ => ?_
  · obtain ⟨rs, hrs, hall⟩ := h.records
    exact
      { memory := h.memory
        records := ⟨m'.memory.locals :: rs, by rw [hrs]; rfl, .cons (h.memory .locals) hall⟩
        returns := h.returns
        layered := ⟨.refl _, h.layered⟩
        others := by rw [h.others] }
  · split
    · exact mono_throw _
    · refine mono_get fun m m' h => ?_
      rw [h.parameters]
      refine Mono.bind (mono_bind _) (fun _ =>
        Mono.bind (mono_modify fun n n' hn => ?_) fun _ => mono_pure _)
        m m' h
      exact
        { memory := hn.memory
          records := hn.records
          returns := congrArg (caller :: ·) hn.returns
          layered := hn.layered
          others := by rw [hn.others] }

theorem fills_restored (f : Function) (callee saved : Bank) :
    (restored f callee saved).Fills saved := by
  unfold restored
  split
  · exact Bank.fills_put _ _ _ _
  · exact .refl _

/-- A result that only the second callee has set replaces no value of its caller. -/
theorem extends_restored {f : Function} {callee callee' saved saved' : Bank}
    (h : callee'.Extends callee) (hsaved : saved'.Extends saved) (hfills : callee.Fills saved) :
    (restored f callee' saved').Extends (restored f callee saved) := by
  unfold restored leftBehind
  cases f.result.bind Kind.ty? with
  | none => exact hsaved
  | some t =>
    cases f.returnPlace with
    | none => exact hsaved
    | some place =>
      cases place with
      | num a =>
        cases hv : (callee.get t)[Slot.ofInt a]? with
        | some v =>
          simp only [hv, h t _ v hv, Option.map_some]
          exact hsaved.put t _ v
        | none =>
          have hnone : (saved.get t)[Slot.ofInt a]? = none := by
            by_contra hs
            exact hfills t _ hs hv
          cases hv' : (callee'.get t)[Slot.ofInt a]? with
          | none =>
            simp only [hv, hv', Option.map_none]
            exact hsaved
          | some w =>
            simp only [hv, hv', Option.map_none, Option.map_some]
            exact hsaved.put_right hnone w
      | pointer a => exact hsaved
      | word w => exact hsaved

/-- A function is left in both, as long as there is a call to leave or nothing below. -/
theorem follows_leave (h : m.Below base stored m') (name : String)
    (hopen : (base = [] ∧ stored = []) ∨ (m.records ≠ [] ∧ m.returns ≠ [])) :
    Follows base stored ((leave p name).runFrom m) ((leave p name).runFrom m') := by
  unfold leave
  cases p.function? name with
  | none => exact .inr ⟨rfl, h⟩
  | some f =>
    simp only [Attempt.runFrom_bind, Attempt.runFrom_get]
    obtain ⟨rs, hrs, hall⟩ := h.records
    cases hrecords : m.records with
    | nil =>
      obtain ⟨rfl, rfl⟩ := hopen.resolve_right fun h => h.1 hrecords
      rw [hrecords] at hall
      cases hall
      rw [hrs]
      exact .inr ⟨rfl, h⟩
    | cons saved records =>
      rw [hrecords] at hall
      obtain ⟨saved', rs', hsaved, hrest, rfl⟩ := List.forall₂_cons_left_iff.1 hall
      rw [hrs, List.cons_append]
      -- What the callee had set covers the saved record, so restoring keeps the order.
      have hlayered := h.layered
      rw [Machine.Layered, hrecords] at hlayered
      have hlocals := extends_restored (f := f) (h.memory .locals) hsaved hlayered.1
      have hleft : Machine.Below base stored
          { m with
            memory := { m.memory with locals := restored f m.memory.locals saved }
            records }
          { m' with
            memory := { m'.memory with locals := restored f m'.memory.locals saved' }
            records := rs' ++ base } :=
        { memory := h.memory.set hlocals .locals
          records := ⟨rs', rfl, hrest⟩
          returns := h.returns
          layered := hlayered.2.fills (fills_restored f _ saved)
          others := by rw [h.others] }
      cases hreturns : m.returns with
      | nil =>
        obtain ⟨rfl, rfl⟩ := hopen.resolve_right fun h => h.2 hreturns
        rw [h.returns, hreturns]
        exact .inr ⟨rfl, hleft⟩
      | cons caller returns =>
        rw [h.returns, hreturns]
        exact .inr ⟨rfl, hleft.withReturns returns⟩

/-! ## Routines -/

theorem mono_attempt {here : Int} {r : Routine} (hr : r = endproc → base = [] ∧ stored = [])
    (fields : List String) : Mono base stored (r.attempt p here fields) := by
  have done {x : Exec Unit} (hx : Mono base stored x) :
      Mono base stored (do x; return (none : Option Int)) :=
    hx.bind fun _ => mono_pure _
  unfold attempt
  split
  case h_1 a =>
    exact done (mono_modify fun _ _ h =>
      h.change (fun m => { m with parameters := a :: m.parameters })
      (fun _ => ⟨rfl, rfl, rfl⟩) fun _ _ _ _ => rfl)
  case h_2 | h_3 | h_4 => exact done (mono_printWith _)
  case h_5 | h_6 | h_10 | h_13 | h_15 | h_16 => exact done (mono_storeOf _ _)
  case h_7 =>
    exact done (mono_popValue.bind fun _ => mono_popValue.bind fun _ =>
      (mono_ofExcept _).bind fun _ => mono_store _ _)
  case h_8 | h_9 => exact done (mono_playNotes _)
  case h_11 => exact done (mono_popParameter.bind fun _ => mono_popValue.bind fun _ =>
    mono_store _ _)
  case h_12 => exact done (mono_nextRandom.bind fun _ => mono_store _ _)
  case h_14 => exact done (mono_readInput _)
  case h_17 => exact (mono_integer _).map _
  case h_18 =>
    refine (mono_value _).bind fun v => ?_
    split
    · exact mono_pure _
    · exact (mono_integer _).map _
  case h_19 => exact done (mono_accessElement _ _ _)
  case h_20 => exact done (mono_verify _ _ _)
  case h_21 => exact (mono_enter _ _ _).map _
  case h_22 => exact Mono.map (fun m m' h => follows_leave h _ (.inl (hr rfl))) _
  case h_23 => exact mono_throw _

theorem mono_orIfMismatch {x y : Exec (Option Int)} (hx : Mono base stored x)
    (hy : Mono base stored y) : Mono base stored (orIfMismatch x y) := by
  refine hx.tryCatch (fun f => ?_) rfl
  split
  · exact hy
  · exact mono_throw _

theorem mono_perform {here : Int} {r : Routine} (hr : r = endproc → base = [] ∧ stored = [])
    (name : String) (fields : List String) : Mono base stored (r.perform p here name fields) := by
  have hbare : Mono base stored (r.attemptBare p here) :=
    mono_orIfMismatch (mono_attempt hr _) (mono_throw _)
  cases fields with
  | nil => exact hbare
  | cons a rest =>
    refine (mono_attempt hr _).tryCatch (fun f => ?_) rfl
    split
    · unfold attemptMore
      split
      · exact mono_throw _
      · refine mono_orIfMismatch (mono_attempt hr _) ?_
        split
        · exact mono_throw _
        · exact mono_attempt hr _
    · exact mono_throw _
    · split
      · exact hbare
      · exact mono_throw _

end Routine

/-! ## Steps -/

/-- The second of two steps is like the first, unless the first has met a cell without a value. -/
inductive StepResult.Follows (base : List Bank) (stored : List Int) : StepResult → StepResult → Prop
  | next {i : Int} {m m' : Machine} : m.Below base stored m' → Follows base stored (.next i m)
      (.next i m')
  | halted {m m' : Machine} : m.Below base stored m' → Follows base stored (.halted m) (.halted m')
  | failed {f : Fault} {m m' : Machine} :
      m.Below base stored m' → Follows base stored (.failed f m) (.failed f m')
  | unset {m : Machine} {r : StepResult} : m.Layered →
      Follows base stored (.failed .uninitialized m) r

namespace Program

variable {i : Int}

theorem mono_execute {name : String} (hname : name = "ENDPROC" → base = [] ∧ stored = [])
    (fields : List String) : Mono base stored (p.execute i name fields) := by
  unfold execute
  split
  case h_1 o _ => exact (o.mono_perform fields).bind fun _ => mono_pure _
  case h_2 =>
    split
    case h_1 r hr =>
      refine Routine.mono_perform (fun hend => hname ?_) name fields
      subst hend
      unfold Routine.ofName? at hr
      split at hr <;> first | rfl | cases hr
    case h_2 => exact mono_throw _

theorem step_follows_of_execute {name : String} {fields : List String}
    (hq : p.quad? i = some (name :: fields))
    (h : Exec.Follows base stored ((p.execute i name fields).runFrom m)
      ((p.execute i name fields).runFrom m')) :
    (p.step i m).Follows base stored (p.step i m') := by
  rw [step, step, hq]
  dsimp only
  revert h
  generalize (p.execute i name fields).runFrom m = r, (p.execute i name fields).runFrom m' = r'
  obtain ⟨r, n⟩ := r
  obtain ⟨r', n'⟩ := r'
  rintro (⟨hunset, hlayered⟩ | ⟨hresult, hbelow⟩)
  · cases hunset
    exact .unset hlayered
  · cases hresult
    cases r with
    | ok next => exact .next hbelow
    | error f => exact .failed hbelow

theorem step_follows_of_none (hq : ∀ name fields, p.quad? i ≠ some (name :: fields))
    (h : m.Below base stored m') : (p.step i m).Follows base stored (p.step i m') := by
  unfold step
  split
  case h_1 name fields hname => exact absurd hname (hq name fields)
  case h_2 =>
    simp only [Exec.finish, Attempt.runFrom_bind, Attempt.runFrom_get]
    rw [h.inputs, h.inputCount]
    by_cases hcount : m.inputCount = m.inputs.size
    · rw [if_neg (not_not.2 hcount), Attempt.runFrom_pure, Attempt.runFrom_pure]
      exact .halted h
    · rw [if_pos hcount, Attempt.runFrom_throw, Attempt.runFrom_throw]
      exact .failed h

/-- A step of a run on a machine with more cells. Only the end of a function looks below the calls
that both machines have. -/
theorem step_follows (h : m.Below base stored m')
    (hend : ∀ fields, p.quad? i = some ("ENDPROC" :: fields) → base = [] ∧ stored = []) :
    (p.step i m).Follows base stored (p.step i m') := by
  by_cases hq : ∃ name fields, p.quad? i = some (name :: fields)
  · obtain ⟨name, fields, hq⟩ := hq
    refine step_follows_of_execute hq (mono_execute (fun hname => hend fields ?_) fields m m' h)
    rw [hq, hname]
  · exact step_follows_of_none (fun name fields hname => hq ⟨name, fields, hname⟩) h

/-- The indices that a run of at most the given number of steps comes to. -/
def visited (p : Program) : Nat → Int → Machine → List Int
  | 0, _, _ => []
  | limit + 1, i, m =>
    i :: match p.step i m with
      | .next j m' => p.visited limit j m'
      | _ => []

/-- A run on a machine with more cells, as long as all its steps follow. -/
theorem run_follows {I : Int → Machine → Prop}
    (hfollows : ∀ i m m', I i m → m.Below base stored m' →
      (p.step i m).Follows base stored (p.step i m'))
    (hkeep : ∀ i m j n, I i m → p.step i m = .next j n → I j n) (limit : Nat) (hi : I i m)
    (h : m.Below base stored m') :
    (p.run limit i m).1 = .fault .uninitialized ∨
      ((p.run limit i m').1 = (p.run limit i m).1 ∧
        (p.run limit i m).2.Below base stored (p.run limit i m').2 ∧
        p.visited limit i m' = p.visited limit i m) := by
  induction limit generalizing i m m' with
  | zero => exact .inr ⟨rfl, h, rfl⟩
  | succ limit ih =>
    have hstep := hfollows i m m' hi h
    have hnext := hkeep i m
    revert hstep hnext
    unfold run visited
    generalize p.step i m = r, p.step i m' = r'
    intro hstep hnext
    cases hstep with
    | next hbelow =>
      rcases ih (hnext _ _ hi rfl) hbelow with hunset | ⟨hresult, hrest, hvisited⟩
      · exact .inl hunset
      · exact .inr ⟨hresult, hrest, congrArg (i :: ·) hvisited⟩
    | halted hbelow => exact .inr ⟨rfl, hbelow, rfl⟩
    | failed hbelow => exact .inr ⟨rfl, hbelow, rfl⟩
    | unset => exact .inl rfl

end Program

/-! ## Machines that arise -/

namespace Machine

/-- The machines there can be: new ones, and those that playing quads or getting ready to play
leaves. -/
inductive Arises : Machine → Prop
  | new (randoms : Nat → Value) : Arises { randoms := randoms }
  | supply {m : Machine} (randoms : Nat → Value) : Arises m →
      Arises { m with randoms, randomCount := 0 }
  | prepare {m : Machine} (constants : Bank) (inputs : Array String) :
      Arises m → Arises (m.prepare constants inputs)
  | execute {m : Machine} (p : Program) (i : Int) (name : String) (fields : List String) :
      Arises m → Arises ((p.execute i name fields).runFrom m).2

theorem Below.refl (h : m.Layered) : m.Below [] [] m where
  memory := .refl _
  records := ⟨m.records, (List.append_nil _).symm, List.forall₂_same.2 fun b _ => .refl b⟩
  returns := (List.append_nil _).symm
  layered := h
  others := rfl

/-- Saved cells are among those of the callee in every machine that arises. -/
theorem Arises.layered (h : m.Arises) : m.Layered := by
  induction h with
  | new => trivial
  | supply _ _ ih => exact ih
  | prepare _ _ _ ih => exact ih
  | execute p i name fields _ ih =>
    rcases Program.mono_execute (fun _ => ⟨rfl, rfl⟩) fields _ _ (Below.refl ih) with h | h
    · exact h.2
    · exact h.2.layered

/-- A machine that holds what another one holds and maybe more, and would go on with the same
arguments, calls and random numbers. -/
structure Extends (m' m : Machine) : Prop where
  memory : m'.memory.Extends m.memory
  records : List.Forall₂ (fun b b' => Bank.Extends b' b) m.records m'.records
  returns : m'.returns = m.returns
  parameters : m'.parameters = m.parameters
  randoms : m'.randoms = m.randoms
  randomCount : m'.randomCount = m.randomCount

theorem Extends.prepare (h : m'.Extends m) (hm : m.Layered) (constants : Bank)
    (inputs : Array String) :
    (m.prepare constants inputs).Below [] [] (m'.prepare constants inputs) where
  memory := h.memory.set (.refl constants) .constants
  records := ⟨m'.records, (List.append_nil _).symm, h.records⟩
  returns := h.returns.trans (List.append_nil _).symm
  layered := hm
  others := by simp [Machine.prepare, h.parameters, h.randoms, h.randomCount]

theorem Below.extends (h : m.Below [] [] m') : m'.Extends m where
  memory := h.memory
  records := by
    obtain ⟨rs, hrs, hall⟩ := h.records
    rwa [hrs, List.append_nil]
  returns := h.returns.trans (List.append_nil _)
  parameters := h.parameters
  randoms := by rw [h.others]
  randomCount := by rw [h.others]

/-- Playing a program is monotone in memory: what ends on one machine ends on every machine that
extends it, along the same quads, with the same output, and leaves machines that are related in the
same way. -/
theorem play_of_extends :
    (∀ m : Machine, m.Arises → m.Layered) ∧
    ∀ (m m' : Machine) (p : Program) (constants : Bank) (inputs : Array String) (limit : Nat),
      m.Layered → m'.Extends m → (m.play p constants inputs limit).1 = .finished →
      (m'.play p constants inputs limit).1 = .finished ∧
      p.visited limit 0 (m'.prepare constants inputs) = p.visited limit 0
        (m.prepare constants inputs) ∧
      (m'.play p constants inputs limit).2.prints = (m.play p constants inputs limit).2.prints ∧
      (m'.play p constants inputs limit).2.notes = (m.play p constants inputs limit).2.notes ∧
      (m'.play p constants inputs limit).2.inputCount =
        (m.play p constants inputs limit).2.inputCount ∧
      (m'.play p constants inputs limit).2.Extends (m.play p constants inputs limit).2 := by
  refine ⟨fun m hm => hm.layered, fun m m' p constants inputs limit hm h hend => ?_⟩
  have hrun := Program.run_follows (p := p) (I := fun _ _ => True)
    (fun _ _ _ _ hbelow => Program.step_follows hbelow fun _ _ => ⟨rfl, rfl⟩)
    (fun _ _ _ _ _ _ => trivial) limit (i := 0) trivial (h.prepare hm constants inputs)
  rcases hrun with hunset | ⟨hresult, hbelow, hvisited⟩
  · exact absurd (hend.symm.trans hunset) nofun
  · exact ⟨hresult.trans hend, hvisited, hbelow.prints, hbelow.notes, hbelow.inputCount,
      hbelow.extends⟩

/-- A function that does not set its result, on a machine where an earlier program has set the
cell. -/
theorem play_of_extends_result :
    let p : Program := ⟨#[["GOTO", "2"], ["ENDPROC", "f"], ["GOSUB", "f"], ["PARAM", "200000", "1"],
      ["println"]], [⟨some "f", some (.value .int), 1, [], [], none, some (.num 250000), []⟩]⟩
    let constants : Bank := PerTy.set Bank.empty .int (Cells.put ∅ (.ofInt 200000) (.int 5))
    let m' : Machine := { memory := { Memory.empty with
      locals := PerTy.set Bank.empty .int (Cells.put ∅ (.ofInt 250000) (.int 7)) } }
    m'.Extends {} ∧ (m'.play p constants #[] 9).1 = .finished ∧
      (m'.play p constants #[] 9).2.prints = (Machine.play {} p constants #[] 9).2.prints := by
  intro p constants m'
  have hextends : m'.Extends {} := ⟨.of_empty _, .nil, rfl, rfl, rfl, rfl⟩
  have h := play_of_extends.2 {} m' p constants #[] 9 trivial hextends (by decide +kernel)
  exact ⟨hextends, h.1, h.2.2.1⟩

/-- Machines that do not arise can part. The caller has saved 1 in a cell that the callee has not
set on the first machine; on the second the callee has set it to 2, and hands that over. -/
theorem play_of_extends_unlayered :
    let p : Program := ⟨#[["ENDPROC", "f"], ["PARAM", "250000", "1"], ["println"]],
      [⟨some "f", some (.value .int), 1, [], [], none, some (.num 250000), []⟩]⟩
    let holding (n : Int) : Bank := PerTy.set Bank.empty .int (Cells.put ∅ (.ofInt 250000) (.int n))
    let m : Machine := { records := [holding 1], returns := [0] }
    let m' : Machine := { m with memory := { Memory.empty with locals := holding 2 } }
    m'.Extends m ∧ ¬m.Layered ∧
      (m.play p .empty #[] 9).1 = .finished ∧ (m.play p .empty #[] 9).2.prints = #["1\n"] ∧
      (m'.play p .empty #[] 9).1 = .finished ∧ (m'.play p .empty #[] 9).2.prints = #["2\n"] := by
  intro p holding m m'
  refine ⟨⟨.of_empty _, .cons (.refl _) .nil, rfl, rfl, rfl, rfl⟩, fun hlayered => ?_, ?_⟩
  · exact hlayered.1 .int (.ofInt 250000) (by decide +kernel) (by decide +kernel)
  · decide +kernel

end Machine

end Symphony
