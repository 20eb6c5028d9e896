import Symphony.Proofs.Preservation

/-!
# Where quads store

A quad stores at most one value, through the operand that it has for a destination
(`Quad.destination?`). For most quads that is their last field. The function that copies a text has
no field; its destination is handed over to it as any other operand.

**Theorem (`Program.step_sets`).** A step of any program leaves the memory as it is, or stores one
value through the destination of its quad, or replaces local cells.
-/

namespace Symphony

open Exec

variable {d : Option String} {fields : List String} {p : Program}

/-! ## Destinations -/

/-- The field of an operation that its result goes to. Operations on other numbers of operands
fail. -/
def Operation.destination? {α : Type} : Operation → List α → Option α
  | .binary _, fields => fields[2]?
  | _, [_, d] => some d
  | _, _ => none

namespace Routine

/-- Routines that have one field, for their result. -/
def stores : Routine → Bool
  | sqrt | log | get | length | random | toStr | input | floor | ceil => true
  | _ => false

/-- The operand through which a routine stores. -/
def destination? {α : Type} (r : Routine) (fields args : List α) : Option α :=
  if r.stores then fields[0]?
  else if r = access then fields[2]?
  else if r = copy ∧ fields.isEmpty = true then args[0]?
  else none

end Routine

/-- The operand through which a quad stores. Operands have been handed over, last one first. -/
def Quad.destination? {α : Type} (name : String) (fields args : List α) : Option α :=
  match Operation.ofName? name with
  | some o => o.destination? fields
  | none => (Routine.ofName? name).bind (·.destination? fields args)

theorem Quad.destination?_map {α β : Type} (f : α → β) (name : String) (fields args : List α) :
    destination? name (fields.map f) (args.map f) = (destination? name fields args).map f := by
  have hoperation : ∀ o : Operation, o.destination? (fields.map f) =
      (o.destination? fields).map f := by
    intro o
    cases o with
    | binary => exact List.getElem?_map
    | unary | copy => rcases fields with _ | ⟨_, _ | ⟨_, _ | _⟩⟩ <;> rfl
  have hroutine : ∀ r : Routine, r.destination? (fields.map f) (args.map f) =
      (r.destination? fields args).map f := by
    intro r
    unfold Routine.destination?
    rw [List.isEmpty_map]
    split_ifs
    · exact List.getElem?_map
    · exact List.getElem?_map
    · exact List.getElem?_map
    · rfl
  unfold destination?
  cases Operation.ofName? name with
  | some o => exact hoperation o
  | none =>
    cases Routine.ofName? name with
    | none => rfl
    | some r => exact hroutine r

/-! ## Actions -/

/-- The memory after a quad with a destination: local cells have been replaced, or a value has been
stored. -/
inductive Memory.Sets (d : Option String) (m : Memory) : Memory → Prop
  | locals (b : Bank) : Sets d m { m with locals := b }
  | store {field : String} {v : Value} {n : Memory} :
      d = some field → m.store (.ofField field) v = .ok n → Sets d m n

theorem Memory.Sets.of_locals {m n : Memory}
    (h : { n with locals := Bank.empty } = { m with locals := Bank.empty }) : m.Sets d n := by
  have hn : n = { m with locals := n.locals } := by
    obtain ⟨_, _, _, _⟩ := n
    obtain ⟨_, _, _, _⟩ := m
    simp_all
  rw [hn]
  exact .locals _

theorem Memory.Sets.refl (d : Option String) (m : Memory) : m.Sets d m :=
  .locals m.locals

/-- The memory after a text has been copied to the operand that was handed over last, from the one
before it. -/
def Memory.copied (m : Memory) : List String → Memory
  | d :: x :: _ => ((m.load (.ofField x)).bind (m.store (.ofField d))).toOption.getD m
  | _ => m

theorem Memory.sets_copied (m : Memory) (args : List String) : m.Sets args[0]? (m.copied args) := by
  rcases args with _ | ⟨d, _ | ⟨x, rest⟩⟩
  · exact .refl _ _
  · exact .refl _ _
  · rw [copied]
    cases hn : (m.load (.ofField x)).bind (m.store (.ofField d)) with
    | error f => exact .refl _ _
    | ok n =>
      cases hv : m.load (.ofField x) with
      | error f =>
        rw [hv] at hn
        cases hn
      | ok v =>
        rw [hv] at hn
        exact .store rfl hn

namespace Exec

variable {α β : Type}

/-- An action leaves the memory as it is, or it stores a value and does not fail. -/
def Sets (d : Option String) (x : Exec α) : Prop :=
  ∀ m, (x.runFrom m).2.memory = m.memory ∨
    ∃ a field v, (x.runFrom m).1 = .ok a ∧ d = some field ∧
      m.memory.store (.ofField field) v = .ok (x.runFrom m).2.memory

theorem Sets.memory {x : Exec α} (h : Sets d x) (m : Machine) :
    m.memory.Sets d (x.runFrom m).2.memory := by
  rcases h m with hsame | ⟨_, field, v, -, hfield, hstore⟩
  · rw [hsame]
    exact .refl _ _
  · exact .store hfield hstore

theorem Keeps.sets {x : Exec α} (h : Keeps Machine.memory x) : Sets d x :=
  fun m => .inl (h m)

theorem sets_store (v : Value) (field : String) : Sets (some field) (store v field) := by
  intro m
  rw [runFrom_store]
  cases hs : m.memory.store (.ofField field) v with
  | error f => exact .inl rfl
  | ok n => exact .inr ⟨(), field, v, rfl, rfl, hs⟩

theorem Keeps.bind_sets {x : Exec α} {f : α → Exec β} (hx : Keeps Machine.memory x)
    (hf : ∀ a, Sets d (f a)) : Sets d (x >>= f) := by
  intro m
  have hsame : (x.runFrom m).2.memory = m.memory := hx m
  rw [Attempt.runFrom_bind]
  split
  case h_1 a m' hm =>
    rw [hm] at hsame
    have hrest := hf a m'
    rwa [hsame] at hrest
  case h_2 e m' hm =>
    rw [hm] at hsame
    exact .inl hsame

/-- What comes after a store does not fail and leaves the memory alone. -/
theorem Sets.andThen {x : Exec α} {f : α → Exec β} (hx : Sets d x)
    (hf : ∀ a m, ∃ b m', (f a).runFrom m = (.ok b, m') ∧ m'.memory = m.memory) :
    Sets d (x >>= f) := by
  intro m
  have hfirst := hx m
  rw [Attempt.runFrom_bind]
  split
  case h_1 a m' hm =>
    obtain ⟨b, m'', hrun, hsame⟩ := hf a m'
    rw [hm] at hfirst
    rw [hrun]
    rcases hfirst with hmem | ⟨_, field, v, -, hd, hs⟩
    · exact .inl (hsame.trans hmem)
    · exact .inr ⟨b, field, v, rfl, hd, hsame ▸ hs⟩
  case h_2 e m' hm =>
    rw [hm] at hfirst
    rcases hfirst with hmem | ⟨_, _, _, hok, -⟩
    · exact .inl hmem
    · cases hok

theorem Sets.tryCatch {x : Exec α} {handle : Fault → Exec α} (hx : Sets d x)
    (hh : ∀ f, Sets d (handle f)) : Sets d (MonadExcept.tryCatch x handle) := by
  intro m
  have hfirst := hx m
  rw [show (MonadExcept.tryCatch x handle).runFrom m = _ from Attempt.runFrom_tryCatch x handle m]
  split
  case h_1 a m' hm =>
    rw [hm] at hfirst
    exact hfirst
  case h_2 e m' hm =>
    rw [hm] at hfirst
    rcases hfirst with hmem | ⟨_, _, _, hok, -⟩
    · have hrest := hh e m'
      rwa [show m'.memory = m.memory from hmem] at hrest
    · cases hok

theorem Sets.mono {d' : Option String} {x : Exec α} (h : Sets d x)
    (hd : ∀ field, d = some field → d' = some field) : Sets d' x :=
  fun m => (h m).imp_right fun ⟨a, field, v, hok, hfield, hs⟩ =>
    ⟨a, field, v, hok, hd field hfield, hs⟩

theorem memory_popParameter : Keeps Machine.memory popParameter := by
  refine keeps_get.bind fun m => ?_
  split
  · exact keeps_throw _
  · exact Keeps.bind (keeps_modify fun _ => rfl) fun _ => keeps_pure _

theorem memory_popValue : Keeps Machine.memory popValue :=
  memory_popParameter.bind fun _ => keeps_value _

end Exec

theorem Operation.sets_perform (o : Operation) (fields : List String) :
    Sets (o.destination? fields) (o.perform fields) := by
  -- an operation on the wrong number of operands fails before it stores
  have hfails : ∀ {α : Type} {d : Option String} (f : Fault) (k : Value → Exec α),
      Sets d (do let v ← (Attempt.ofExcept (.error f) : Exec Value); k v) := fun _ _ =>
        fun _ => .inl rfl
  unfold perform
  split
  case h_1 a b =>
    refine (keeps_value _).bind_sets fun v => ?_
    cases o with
    | binary => exact hfails _ _
    | unary | copy => exact (keeps_ofExcept _).bind_sets fun r => sets_store r b
  case h_2 a b c rest =>
    refine (keeps_value _).bind_sets fun l => (keeps_value _).bind_sets fun r => ?_
    cases o with
    | binary => exact (keeps_ofExcept _).bind_sets fun v => sets_store v c
    | unary | copy => exact hfails _ _
  case h_3 => exact (keeps_throw _).sets

namespace Routine

variable {here : Int} {r : Routine}

theorem sets_storeOf (f : Value → Except Fault Value) (d : String) : Sets (some d) (storeOf f d) :=
  memory_popValue.bind_sets fun _ => (keeps_ofExcept _).bind_sets fun _ => sets_store _ d

theorem sets_readInput (d : String) : Sets (some d) (readInput d) := by
  refine keeps_get.bind_sets fun m => ?_
  split
  · exact (keeps_throw _).sets
  · exact (sets_store _ d).andThen fun _ m => ⟨_, _, rfl, rfl⟩

theorem memory_printWith (ending : String) : Keeps Machine.memory (printWith ending) :=
  memory_popValue.bind fun _ => (keeps_ofExcept _).bind fun _ => keeps_modify fun _ => rfl

theorem memory_verify (index low high : String) : Keeps Machine.memory (verify index low high) := by
  refine (keeps_value _).bind fun v => (keeps_integer _).bind fun high =>
    (keeps_integer _).bind fun low => (keeps_ofExcept _).bind fun b => ?_
  split
  · exact (keeps_ofExcept _).bind fun _ => keeps_throw _
  · exact keeps_pure _

theorem sets_accessElement (base index d : String) : Sets (some d) (accessElement base index d) :=
  (keeps_value _).bind_sets fun _ => (keeps_integer _).bind_sets fun _ =>
    (keeps_ofExcept _).bind_sets fun _ => sets_store _ d

/-- Attempts other than those that copy, enter a function or leave one. -/
theorem sets_attempt (hr : r ≠ copy ∧ r ≠ gosub ∧ r ≠ endproc) (fields args : List String) :
    Sets (r.destination? fields args) (r.attempt p here fields) := by
  have done {d : Option String} {x : Exec Unit} (hx : Sets d x) :
      Sets d (do x; return (none : Option Int)) :=
    hx.andThen fun _ m => ⟨_, m, rfl, rfl⟩
  have keeps {d : Option String} {x : Exec Unit} (hx : Keeps Machine.memory x) :
      Sets d (do x; return (none : Option Int)) := done hx.sets
  have stored {r : Routine} {d : String} {x : Exec Unit} (hr : r.stores = true)
      (hx : Sets (some d) x) :
      Sets (r.destination? [d] args) (do x; return (none : Option Int)) := by
    rw [destination?, if_pos hr]
    exact done hx
  unfold attempt
  split
  case h_1 => exact keeps (keeps_modify fun _ => rfl)
  case h_2 => exact keeps (memory_printWith _)
  case h_3 => exact keeps (memory_printWith _)
  case h_4 => exact keeps (memory_printWith _)
  case h_5 => exact stored rfl (sets_storeOf _ _)
  case h_6 => exact stored rfl (sets_storeOf _ _)
  case h_7 =>
    exact stored rfl (memory_popValue.bind_sets fun _ => memory_popValue.bind_sets fun _ =>
      (keeps_ofExcept _).bind_sets fun _ => sets_store _ _)
  case h_8 => exact keeps (keeps_modify fun _ => rfl)
  case h_9 => exact keeps (keeps_modify fun _ => rfl)
  case h_10 => exact stored rfl (sets_storeOf _ _)
  case h_11 => exact absurd rfl hr.1
  case h_12 =>
    refine stored rfl (Keeps.bind_sets ?_ fun _ => sets_store _ _)
    exact keeps_get.bind fun _ => Keeps.bind (keeps_modify fun _ => rfl) fun _ => keeps_pure _
  case h_13 => exact stored rfl (sets_storeOf _ _)
  case h_14 => exact stored rfl (sets_readInput _)
  case h_15 => exact stored rfl (sets_storeOf _ _)
  case h_16 => exact stored rfl (sets_storeOf _ _)
  case h_17 => exact ((keeps_integer _).map _).sets
  case h_18 =>
    refine Keeps.sets ((keeps_value _).bind fun v => ?_)
    split
    · exact keeps_pure _
    · exact (keeps_integer _).map _
  case h_19 =>
    rw [destination?, if_neg (by decide), if_pos rfl]
    exact done (sets_accessElement _ _ _)
  case h_20 => exact keeps (memory_verify _ _ _)
  case h_21 => exact absurd rfl hr.2.1
  case h_22 => exact absurd rfl hr.2.2
  case h_23 => exact (keeps_throw _).sets

theorem sets_orIfMismatch {x y : Exec (Option Int)} (hx : Sets d x) (hy : Sets d y) :
    Sets d (orIfMismatch x y) := by
  refine hx.tryCatch fun f => ?_
  split
  · exact hy
  · exact (keeps_throw _).sets

/-- A routine is tried with the first fields of its quad. -/
theorem sets_perform_of (h : ∀ n, Sets d (r.attempt p here (fields.take n))) (name : String) :
    Sets d (r.perform p here name fields) := by
  have hbare : Sets d (r.attemptBare p here) := sets_orIfMismatch (h 0) (keeps_throw _).sets
  cases fields with
  | nil => exact hbare
  | cons a rest =>
    refine Sets.tryCatch (h 1) fun f => ?_
    split
    · unfold attemptMore
      split
      · exact (keeps_throw _).sets
      · refine sets_orIfMismatch (h 2) ?_
        split
        · exact (keeps_throw _).sets
        · exact h 3
    · exact (keeps_throw _).sets
    · split
      · exact hbare
      · exact (keeps_throw _).sets

theorem destination?_take {n : Nat} {args : List String} {field : String} (hr : r ≠ copy)
    (h : r.destination? (fields.take n) args = some field) :
    r.destination? fields args = some field := by
  have htake : ∀ i : Nat, (fields.take n)[i]? = some field → fields[i]? = some field := by
    intro i hi
    rw [List.getElem?_take] at hi
    split at hi
    · exact hi
    · cases hi
  unfold destination? at h ⊢
  simp only [hr, false_and, if_false] at h ⊢
  split_ifs at h ⊢
  · exact htake 0 h
  · exact htake 2 h

/-- A text is copied to the operand that was handed over last. -/
theorem memory_attempt_copy (m : Machine) :
    ((copy.attempt p here []).runFrom m).2.memory = m.memory.copied m.parameters := by
  have hattempt : copy.attempt p here [] = (do
      let d ← popParameter
      let x ← popParameter
      let v ← value x
      store v d
      return none) := by
    simp [attempt, popValue]
  have hpop : ∀ {m : Machine} {d : String} {rest : List String}, m.parameters = d :: rest →
      popParameter.runFrom m = (.ok d, { m with parameters := rest }) := by
    intro m d rest hm
    simp [popParameter, hm]
  have hnone : ∀ {m : Machine}, m.parameters = [] → popParameter.runFrom m =
      (.error .absent, m) := by
    intro m hm
    simp [popParameter, hm]
  rw [hattempt, Attempt.runFrom_bind]
  cases hps : m.parameters with
  | nil =>
    rw [hnone hps]
    rfl
  | cons d rest =>
    rw [hpop hps]
    dsimp only
    rw [Attempt.runFrom_bind]
    cases rest with
    | nil =>
      rw [hnone rfl]
      rfl
    | cons x rest =>
      rw [hpop rfl]
      dsimp only
      rw [Attempt.runFrom_bind, runFrom_value]
      dsimp only
      cases hv : m.memory.load (.ofField x) with
      | error f => simp [Memory.copied, hv, Except.bind, Except.toOption]
      | ok v =>
        dsimp only
        rw [Attempt.runFrom_bind, runFrom_store]
        dsimp only
        cases hstore : m.memory.store (.ofField d) v with
        | error f | ok n => simp [Memory.copied, hv, hstore, Except.bind, Except.toOption]

theorem machine_perform_copy (name : String) (m : Machine) :
    ((copy.perform p here name []).runFrom m).2 = ((copy.attempt p here []).runFrom m).2 := by
  rw [runFrom_perform_nil]
  rcases (copy.attempt p here []).runFrom m with ⟨f | _, _⟩
  · cases f <;> rfl
  · rfl

theorem sets_perform_copy (name : String) (fields : List String) (m : Machine) :
    m.memory.Sets (copy.destination? fields m.parameters)
      ((copy.perform p here name fields).runFrom m).2.memory := by
  cases fields with
  | nil =>
    rw [machine_perform_copy, memory_attempt_copy]
    exact m.memory.sets_copied m.parameters
  | cons a rest =>
    -- with fields, no attempt fits
    have hmore : ((copy.perform p here name (a :: rest)).runFrom m).2 = m := by
      rcases rest with _ | ⟨_, _ | _⟩ <;> rfl
    rw [hmore]
    exact .refl _ _

/-- Calls and returns replace local cells only. -/
theorem keeps_attempt_call (hr : r = gosub ∨ r = endproc) (fields : List String) :
    Keeps (fun m => { m.memory with locals := Bank.empty }) (r.attempt p here fields) := by
  by_cases hone : fields.length = 1
  · obtain ⟨name, rfl⟩ := List.length_eq_one_iff.1 hone
    rcases hr with rfl | rfl
    · refine Keeps.map some (Keeps.bind (keeps_modify fun _ => rfl) fun _ => ?_)
      split
      · exact keeps_throw _
      · refine keeps_get.bind fun _ => Keeps.bind ?_ fun _ =>
          Keeps.bind (keeps_modify fun _ => rfl) fun _ => keeps_pure _
        intro m
        exact congrArg Machine.memory (keeps_bind _ m)
    · refine Keeps.map some ?_
      unfold leave
      split
      · exact keeps_throw _
      · refine keeps_get.bind fun m => ?_
        split
        · exact keeps_throw _
        · refine Keeps.bind (keeps_modify fun _ => rfl) fun _ => ?_
          split
          · exact keeps_throw _
          · exact Keeps.bind (keeps_modify fun _ => rfl) fun _ => keeps_pure _
  · rw [attempt_of_length_ne_one (hr.imp_right .inl) fields hone]
    exact keeps_throw _

theorem sets_perform (name : String) (fields : List String) (m : Machine) :
    m.memory.Sets (r.destination? fields m.parameters)
      ((r.perform p here name fields).runFrom m).2.memory := by
  by_cases hcopy : r = copy
  · subst hcopy
    exact sets_perform_copy name fields m
  by_cases hcall : r = gosub ∨ r = endproc
  · have hkeeps : Keeps (fun m => { m.memory with locals := Bank.empty })
        (r.perform p here name fields) :=
      keeps_perform (keeps_attempt_call hcall) name fields
    exact .of_locals (hkeeps m)
  · obtain ⟨hgosub, hendproc⟩ := not_or.1 hcall
    have hsets : Sets (r.destination? fields m.parameters) (r.perform p here name fields) :=
      sets_perform_of (fun n => (sets_attempt ⟨hcopy, hgosub, hendproc⟩ _ m.parameters).mono
        fun _ => destination?_take hcopy) name
    exact hsets.memory m

end Routine

/-- A step stores one value at most, where its quad says. -/
theorem Program.step_sets {i : Int} {name : String} (hq : p.quad? i = some (name :: fields))
    (m : Machine) :
    m.memory.Sets (Quad.destination? name fields m.parameters) (p.step i m).machine.memory := by
  rw [machine_step hq, execute, Quad.destination?]
  cases Operation.ofName? name with
  | some o =>
    have hsets : Sets (o.destination? fields) (do
        o.perform fields
        return (none : Option Int)) :=
      (o.sets_perform fields).andThen fun _ m => ⟨_, m, rfl, rfl⟩
    exact hsets.memory m
  | none =>
    cases hr : Routine.ofName? name with
    | none => exact .refl _ _
    | some r => exact Routine.sets_perform name fields m

theorem Program.memory_step_copy {i : Int} (hq : p.quad? i = some ["copy"]) (m : Machine) :
    (p.step i m).machine.memory = m.memory.copied m.parameters := by
  rw [machine_step hq, execute, show Operation.ofName? "copy" = none by decide,
    show Routine.ofName? "copy" = some .copy from rfl]
  dsimp only
  rw [Routine.machine_perform_copy, Routine.memory_attempt_copy]

end Symphony
