import Mathlib.Tactic.Common
import Symphony.Machine.Run
import Symphony.Proofs.Actions

/-!
# How a run goes on

What a step does to the stack of suspended calls, and where it goes on. Only two operations touch
the stack: one enters a function and suspends the caller, the other leaves it. Jumps go to their
target, and every other operation goes on to the next quad (`Program.step_other`).
-/

namespace Symphony

variable {a name t : String} {r : Routine} {p : Program} {here j : Int} {ν : Type}
  {fields rest : List String} {n : Nat} {next : Option Int}

namespace Exec

variable {α β : Type} {view : Machine → ν}

/-- An action leaves what a view shows as it is, also if it fails. -/
def Keeps (view : Machine → ν) (x : Exec α) : Prop :=
  ∀ m, view (x.runFrom m).2 = view m

theorem keeps_pure (a : α) : Keeps view (pure a : Exec α) := fun _ => rfl

theorem keeps_throw (f : Fault) : Keeps view (throw f : Exec α) := fun _ => rfl

theorem keeps_get : Keeps view (get : Exec Machine) := fun _ => rfl

theorem keeps_ofExcept (x : Except Fault α) : Keeps view (Attempt.ofExcept x : Exec α) := by
  intro m
  rw [Attempt.runFrom_ofExcept]

theorem keeps_modify {f : Machine → Machine} (h : ∀ m, view (f m) = view m) :
    Keeps view (modify f : Exec PUnit) := h

theorem Keeps.bind {x : Exec α} {f : α → Exec β} (hx : Keeps view x) (hf : ∀ a, Keeps view (f a)) :
    Keeps view (x >>= f) := by
  intro m
  have h := hx m
  rw [Attempt.runFrom_bind]
  split
  case h_1 a m' hm =>
    rw [hm] at h
    exact (hf a m').trans h
  case h_2 e m' hm =>
    rw [hm] at h
    exact h

theorem Keeps.map {x : Exec α} (f : α → β) (hx : Keeps view x) : Keeps view (f <$> x) := by
  rw [← bind_pure_comp]
  exact hx.bind fun _ => keeps_pure _

theorem Keeps.tryCatch {x : Exec α} {handle : Fault → Exec α} (hx : Keeps view x)
    (hh : ∀ f, Keeps view (handle f)) : Keeps view (MonadExcept.tryCatch x handle) := by
  intro m
  have h := hx m
  rw [show (MonadExcept.tryCatch x handle).runFrom m = _ from Attempt.runFrom_tryCatch x handle m]
  split
  case h_1 a m' hm =>
    rw [hm] at h
    exact h
  case h_2 e m' hm =>
    rw [hm] at h
    exact (hh e m').trans h

theorem keeps_value (field : String) : Keeps view (value field) := by
  intro m
  rw [runFrom_value]

theorem keeps_integer (field : String) : Keeps view (integer field) := by
  unfold integer
  split
  · exact keeps_pure _
  · exact keeps_throw _

/-- An action yields only results of one kind. -/
def Yields (P : α → Prop) (x : Exec α) : Prop :=
  ∀ m a m', x.runFrom m = (.ok a, m') → P a

variable {P : α → Prop}

theorem yields_pure {a : α} (h : P a) : Yields P (pure a : Exec α) := by
  rintro m _ _ ⟨⟩
  exact h

theorem yields_throw (f : Fault) : Yields P (throw f : Exec α) := by
  rintro m _ _ ⟨⟩

theorem Yields.bind {Q : β → Prop} {x : Exec α} {f : α → Exec β} (h : ∀ a, Yields Q (f a)) :
    Yields Q (x >>= f) := by
  intro m b m'' hb
  obtain ⟨a, m', -, hf⟩ := Attempt.bind_ok hb
  exact h a m' b m'' hf

theorem Yields.tryCatch {x : Exec α} {handle : Fault → Exec α} (hx : Yields P x)
    (hh : ∀ f, Yields P (handle f)) : Yields P (MonadExcept.tryCatch x handle) := by
  intro m a m' h
  rw [show (MonadExcept.tryCatch x handle).runFrom m = _ from Attempt.runFrom_tryCatch x handle m]
    at h
  split at h
  case h_1 a' m₁ hm =>
    cases h
    exact hx m a m' hm
  case h_2 f m₁ hm => exact hh f m₁ a m' h

end Exec

/-- The suspended calls. -/
def Machine.calls (m : Machine) : List Bank × List Int :=
  (m.records, m.returns)

/-! ## What operations leave alone -/

/-- A view that shows neither cells, nor operands that are handed over, nor what comes out. -/
def Machine.HidesData {ν : Type} (view : Machine → ν) : Prop :=
  ∀ (m : Machine) memory parameters prints notes randomCount,
    view { m with memory, parameters, prints, notes, randomCount } = view m

/-- A view that does not show the suspended calls. -/
def Machine.HidesCalls {ν : Type} (view : Machine → ν) : Prop :=
  ∀ (m : Machine) records returns, view { m with records, returns } = view m

theorem Machine.hidesData_calls : HidesData calls := fun _ _ _ _ _ _ => rfl

namespace Exec

variable {view : Machine → ν}

theorem keeps_store (h : Machine.HidesData view) (v : Value) (field : String) :
    Keeps view (store v field) :=
  keeps_get.bind fun _ => (keeps_ofExcept _).bind fun memory => keeps_modify fun m =>
    h m memory _ _ _ _

theorem keeps_popParameter (h : Machine.HidesData view) : Keeps view popParameter := by
  refine keeps_get.bind fun m => ?_
  split
  · exact keeps_throw _
  · refine Keeps.bind ?_ fun _ => keeps_pure _
    exact keeps_modify fun m => h m _ _ _ _ _

theorem keeps_popValue (h : Machine.HidesData view) : Keeps view popValue :=
  (keeps_popParameter h).bind fun _ => keeps_value _

end Exec

open Exec

theorem Operation.keeps_perform {view : Machine → ν} (h : Machine.HidesData view) (o : Operation)
    (fields : List String) : Keeps view (o.perform fields) := by
  unfold Operation.perform
  split
  · exact (keeps_value _).bind fun _ => (keeps_ofExcept _).bind fun _ => keeps_store h _ _
  · exact (keeps_value _).bind fun _ => (keeps_value _).bind fun _ =>
      (keeps_ofExcept _).bind fun _ => keeps_store h _ _
  · exact keeps_throw _

theorem Operation.calls_perform (o : Operation) (fields : List String) :
    Keeps Machine.calls (o.perform fields) :=
  o.keeps_perform Machine.hidesData_calls fields

namespace Routine

section

variable {view : Machine → ν}

theorem keeps_printWith (h : Machine.HidesData view) (ending : String) :
    Keeps view (printWith ending) :=
  (keeps_popValue h).bind fun _ => (keeps_ofExcept _).bind fun _ => keeps_modify fun m =>
    h m _ _ _ _ _

theorem keeps_storeOf (h : Machine.HidesData view) (f : Value → Except Fault Value) (d : String) :
    Keeps view (storeOf f d) :=
  (keeps_popValue h).bind fun _ => (keeps_ofExcept _).bind fun _ => keeps_store h _ _

theorem keeps_readInput (h : Machine.HidesData view)
    (hcount : ∀ (m : Machine) inputCount, view { m with inputCount } = view m) (d : String) :
    Keeps view (readInput d) := by
  refine keeps_get.bind fun m => ?_
  split
  · exact keeps_throw _
  · exact (keeps_store h _ _).bind fun _ => keeps_modify fun m => hcount m _

theorem keeps_verify (index low high : String) : Keeps view (verify index low high) := by
  refine (keeps_value _).bind fun v => (keeps_integer _).bind fun high => (keeps_integer _).bind
    fun low => (keeps_ofExcept _).bind fun b => ?_
  split
  · exact (keeps_ofExcept _).bind fun _ => keeps_throw _
  · exact keeps_pure _

theorem keeps_accessElement (h : Machine.HidesData view) (base index d : String) :
    Keeps view (accessElement base index d) :=
  (keeps_value _).bind fun _ => (keeps_integer _).bind fun _ => (keeps_ofExcept _).bind fun _ =>
    keeps_store h _ _

theorem keeps_enter (h : Machine.HidesData view) (hcalls : Machine.HidesCalls view) (p : Program)
    (name : String) (caller : Int) : Keeps view (enter p name caller) := by
  have hbind : ∀ ps, Keeps view (bind ps) := by
    intro ps
    induction ps with
    | nil => exact keeps_pure _
    | cons p ps ih =>
      refine (keeps_value _).bind fun v => ?_
      split
      · exact keeps_throw _
      · exact Keeps.bind (keeps_modify fun m => h m _ _ _ _ _) fun _ => ih
  refine Keeps.bind (keeps_modify fun m => hcalls m _ _) fun _ => ?_
  split
  · exact keeps_throw _
  · refine keeps_get.bind fun _ => (hbind _).bind fun _ =>
      Keeps.bind (keeps_modify fun m => ?_) fun _ => keeps_pure _
    exact (h { m with returns := caller :: m.returns } _ _ _ _ _).trans (hcalls m _ _)

theorem keeps_leave (h : Machine.HidesData view) (hcalls : Machine.HidesCalls view) (p : Program)
    (name : String) : Keeps view (leave p name) := by
  unfold leave
  split
  · exact keeps_throw _
  · refine keeps_get.bind fun m => ?_
    split
    · exact keeps_throw _
    · refine Keeps.bind (keeps_modify fun m => ?_) fun _ => ?_
      · exact (h { m with records := _ } _ _ _ _ _).trans (hcalls m _ _)
      · split
        · exact keeps_throw _
        · exact Keeps.bind (keeps_modify fun m => hcalls m _ _) fun _ => keeps_pure _

/-- Attempts change what is data. Only some of them change suspended calls or the number of lines
that were read. -/
theorem keeps_attempt (h : Machine.HidesData view)
    (hcalls : r = gosub ∨ r = endproc → Machine.HidesCalls view)
    (hcount : r = input → ∀ (m : Machine) inputCount, view { m with inputCount } = view m)
    (fields : List String) : Keeps view (r.attempt p here fields) := by
  have done {x : Exec Unit} (hx : Keeps view x) : Keeps view (do x; return (none : Option Int)) :=
    hx.bind fun _ => keeps_pure _
  unfold attempt
  split
  case h_1 => exact done (keeps_modify fun m => h m _ _ _ _ _)
  case h_2 => exact done (keeps_printWith h _)
  case h_3 => exact done (keeps_printWith h _)
  case h_4 => exact done (keeps_printWith h _)
  case h_5 => exact done (keeps_storeOf h _ _)
  case h_6 => exact done (keeps_storeOf h _ _)
  case h_7 =>
    exact done ((keeps_popValue h).bind fun _ => (keeps_popValue h).bind fun _ =>
      (keeps_ofExcept _).bind fun _ => keeps_store h _ _)
  case h_8 => exact done (keeps_modify fun m => h m _ _ _ _ _)
  case h_9 => exact done (keeps_modify fun m => h m _ _ _ _ _)
  case h_10 => exact done (keeps_storeOf h _ _)
  case h_11 =>
    exact done ((keeps_popParameter h).bind fun _ => (keeps_popValue h).bind fun _ =>
      keeps_store h _ _)
  case h_12 =>
    refine done (Keeps.bind ?_ fun _ => keeps_store h _ _)
    refine keeps_get.bind fun _ => Keeps.bind ?_ fun _ => keeps_pure _
    exact keeps_modify fun m => h m _ _ _ _ _
  case h_13 => exact done (keeps_storeOf h _ _)
  case h_14 => exact done (keeps_readInput h (hcount rfl) _)
  case h_15 => exact done (keeps_storeOf h _ _)
  case h_16 => exact done (keeps_storeOf h _ _)
  case h_17 => exact (keeps_integer _).map _
  case h_18 =>
    refine (keeps_value _).bind fun v => ?_
    split
    · exact keeps_pure _
    · exact (keeps_integer _).map _
  case h_19 => exact done (keeps_accessElement h _ _ _)
  case h_20 => exact done (keeps_verify _ _ _)
  case h_21 => exact (keeps_enter h (hcalls (.inl rfl)) _ _ _).map _
  case h_22 => exact (keeps_leave h (hcalls (.inr rfl)) _ _).map _
  case h_23 => exact keeps_throw _

end

/-- Attempts other than those that enter or leave a function leave calls alone. -/
theorem calls_attempt (hr : r ≠ gosub ∧ r ≠ endproc) (fields : List String) :
    Keeps Machine.calls (r.attempt p here fields) :=
  keeps_attempt Machine.hidesData_calls (fun h => absurd h (not_or.2 hr)) (fun _ _ _ => rfl) fields

theorem keeps_orIfMismatch {view : Machine → ν} {x y : Exec (Option Int)} (hx : Keeps view x)
    (hy : Keeps view y) : Keeps view (orIfMismatch x y) := by
  refine hx.tryCatch fun f => ?_
  split
  · exact hy
  · exact keeps_throw _

/-- What no attempt changes stays as it is. -/
theorem keeps_perform {view : Machine → ν} (h : ∀ fields, Keeps view (r.attempt p here fields))
    (name : String) (fields : List String) : Keeps view (r.perform p here name fields) := by
  have hbare : Keeps view (r.attemptBare p here) := keeps_orIfMismatch (h _) (keeps_throw _)
  cases fields with
  | nil => exact hbare
  | cons a rest =>
    refine (h [a]).tryCatch fun f => ?_
    split
    · unfold attemptMore
      split
      · exact keeps_throw _
      · refine keeps_orIfMismatch (h _) ?_
        split
        · exact keeps_throw _
        · exact h _
    · exact keeps_throw _
    · split
      · exact hbare
      · exact keeps_throw _

theorem calls_perform (hr : r ≠ gosub ∧ r ≠ endproc) (name : String) (fields : List String) :
    Keeps Machine.calls (r.perform p here name fields) :=
  keeps_perform (fun _ => calls_attempt hr _) name fields

/-! ## Where a routine goes on -/

/-- Routines that do not go on to the next quad. -/
def isJump : Routine → Bool
  | goto | gotof | gosub | endproc => true
  | _ => false

theorem attempt_yields_none (hr : r.isJump = false) (fields : List String) :
    Yields (· = none) (r.attempt p here fields) := by
  have done (x : Exec Unit) : Yields (· = none) (do x; return (none : Option Int)) :=
    Yields.bind fun _ => yields_pure rfl
  unfold attempt
  split <;> first | exact done _ | cases hr | exact yields_throw _

theorem orIfMismatch_yields {P : Option Int → Prop} {x y : Exec (Option Int)} (hx : Yields P x)
    (hy : Yields P y) : Yields P (orIfMismatch x y) := by
  refine hx.tryCatch fun f => ?_
  split
  · exact hy
  · exact yields_throw _

theorem perform_yields_none (hr : r.isJump = false) (name : String) (fields : List String) :
    Yields (· = none) (r.perform p here name fields) := by
  have hbare : Yields (· = none) (r.attemptBare p here) :=
    orIfMismatch_yields (attempt_yields_none hr _) (yields_throw _)
  cases fields with
  | nil => exact hbare
  | cons a rest =>
    refine (attempt_yields_none hr [a]).tryCatch fun f => ?_
    split
    · unfold attemptMore
      split
      · exact yields_throw _
      · refine orIfMismatch_yields (attempt_yields_none hr _) ?_
        split
        · exact yields_throw _
        · exact attempt_yields_none hr _
    · exact yields_throw _
    · split
      · exact hbare
      · exact yields_throw _

/-! ## Jumps -/

section

variable {m m' : Machine}

/-- A routine that takes one field goes on only if its first attempt does. -/
theorem perform_ok_of_single
    (hsingle : ∀ fields, fields.length ≠ 1 → r.attempt p here fields = throw .mismatch)
    (h : (r.perform p here name (a :: rest)).runFrom m = (.ok next, m')) :
    (r.attempt p here [a]).runFrom m = (.ok next, m') := by
  have hbare : ∀ n, (r.attemptBare p here).runFrom n = (.error .inputMismatch, n) := by
    intro n
    rw [attemptBare, hsingle [] (by decide)]
    rfl
  have hmore : ∀ n, ((r.attemptMore p here a rest).runFrom n).1 ≠ .ok next := by
    intro n
    unfold attemptMore
    split
    · nofun
    · rw [hsingle [a, _] (by simp)]
      split
      · nofun
      · rw [hsingle [a, _, _] (by simp)]
        nofun
  rw [perform, show (tryCatch _ _ : Exec (Option Int)).runFrom m = _ from
    Attempt.runFrom_tryCatch _ _ _] at h
  split at h
  case h_1 a' m₁ hm => rw [hm, h]
  case h_2 f m₁ hm =>
    split at h
    · exact absurd (congrArg Prod.fst h) (hmore m₁)
    · cases h
    · split at h
      · rw [hbare] at h
        cases h
      · cases h

theorem attempt_of_length_ne_one (hr : r = gosub ∨ r = endproc ∨ r = goto) (fields : List String)
    (hne : fields.length ≠ 1) : r.attempt p here fields = throw .mismatch := by
  match fields, hne with
  | [], _ => rcases hr with rfl | rfl | rfl <;> rfl
  | [_], hne => exact absurd rfl hne
  | _ :: _ :: _, _ => rcases hr with rfl | rfl | rfl <;> rfl

theorem map_ok {α β : Type} {f : α → β} {x : Exec α} {b : β}
    (h : (f <$> x).runFrom m = (.ok b, m')) :
    ∃ a, b = f a ∧ x.runFrom m = (.ok a, m') := by
  rw [Attempt.runFrom_map] at h
  split at h
  case h_1 a m₁ hm =>
    cases h
    exact ⟨a, rfl, hm⟩
  case h_2 => cases h

theorem perform_gosub (h : (gosub.perform p here name (a :: rest)).runFrom m = (.ok next, m')) :
    ∃ j, next = some j ∧ (enter p a here).runFrom m = (.ok j, m') :=
  map_ok (perform_ok_of_single (attempt_of_length_ne_one (.inl rfl)) h)

theorem perform_endproc (h : (endproc.perform p here name (a :: rest)).runFrom m = (.ok next, m')) :
    ∃ j, next = some j ∧ (leave p a).runFrom m = (.ok j, m') :=
  map_ok (perform_ok_of_single (attempt_of_length_ne_one (.inr (.inl rfl))) h)

theorem perform_goto (h : (goto.perform p here name (a :: rest)).runFrom m = (.ok next, m')) :
    ∃ j, next = some j ∧ Text.readInteger? a = some j ∧ m' = m := by
  obtain ⟨j, hj, hint⟩ :=
    map_ok (perform_ok_of_single (attempt_of_length_ne_one (.inr (.inr rfl))) h)
  unfold Exec.integer at hint
  split at hint
  case h_1 n hn =>
    cases hint
    exact ⟨j, hj, hn, rfl⟩
  case h_2 => cases hint

/-- A test goes on to the next quad or to its target. -/
theorem perform_gotof {c : String}
    (h : (gotof.perform p here name [c, t]).runFrom m = (.ok next, m')) :
    m' = m ∧ ∃ v, m.memory.load (.ofField c) = .ok v ∧
      ((v.truthy = true ∧ next = none) ∨
        (v.truthy = false ∧ ∃ j, next = some j ∧ Text.readInteger? t = some j)) := by
  have hattempt : (gotof.attempt p here [c, t]).runFrom m = (.ok next, m') := by
    have hmore : (orIfMismatch (gotof.attempt p here [c, t]) (throw .absent)).runFrom m =
        (.ok next, m') := h
    rw [orIfMismatch, show (tryCatch _ _ : Exec (Option Int)).runFrom m = _ from
      Attempt.runFrom_tryCatch _ _ _] at hmore
    split at hmore
    case h_1 a m₁ hm => rw [hm, hmore]
    case h_2 f m₁ hm => split at hmore <;> cases hmore
  obtain ⟨v, m₁, hv, hif⟩ := Attempt.bind_ok hattempt
  rw [Exec.runFrom_value] at hv
  obtain ⟨hload, rfl⟩ : m.memory.load (.ofField c) = .ok v ∧ m = m₁ := Prod.mk.inj hv
  split at hif
  case isTrue htrue =>
    cases hif
    exact ⟨rfl, v, hload, .inl ⟨htrue, rfl⟩⟩
  case isFalse hfalse =>
    obtain ⟨j, rfl, hint⟩ := map_ok hif
    unfold Exec.integer at hint
    split at hint
    case h_1 n hn =>
      cases hint
      exact ⟨rfl, v, hload, .inr ⟨by simpa using hfalse, j, rfl, hn⟩⟩
    case h_2 => cases hint

/-- The local cells after a function has been left. -/
def restored (f : Function) (callee saved : Bank) : Bank :=
  match leftBehind f callee with
  | some (t, a, v) => saved.set t ((saved.get t).put (.ofInt a) v)
  | none => saved

theorem leave_ok (h : (leave p name).runFrom m = (.ok j, m')) :
    ∃ f saved records caller returns, p.function? name = some f ∧ m.records = saved :: records ∧
      m.returns = caller :: returns ∧ j = caller + 1 ∧
      m' = { m with
        memory := { m.memory with locals := restored f m.memory.locals saved }, records,
          returns } := by
  unfold leave at h
  split at h
  case h_1 => cases h
  case h_2 f hf =>
    obtain ⟨_, _, hget, hrest⟩ := Attempt.bind_ok h
    cases hget
    split at hrest
    case h_1 => cases hrest
    case h_2 saved records hrecords =>
      obtain ⟨_, _, hmodify, hrest⟩ := Attempt.bind_ok hrest
      cases hmodify
      split at hrest
      case h_1 => cases hrest
      case h_2 caller returns hreturns =>
        cases hrest
        exact ⟨f, saved, records, caller, returns, hf, hrecords, hreturns, rfl, rfl⟩

/-- Binding parameters changes local cells only. -/
theorem keeps_bind (ps : List ((Kind × Int) × String)) :
    Keeps (fun m => { m with memory := { m.memory with locals := Bank.empty } }) (bind ps) := by
  induction ps with
  | nil => exact keeps_pure _
  | cons p ps ih =>
    refine (keeps_value _).bind fun v => ?_
    split
    · exact keeps_throw _
    · exact Keeps.bind (keeps_modify fun _ => rfl) fun _ => ih

/-- A call binds the parameters after the local cells have been saved. -/
theorem bind_of_enter (h : (enter p name here).runFrom m = (.ok j, m')) :
    ∃ f m₁, p.function? name = some f ∧ j = f.start ∧
      (bind ((f.parameterKinds.zip f.parameterAddresses).zip m.parameters.reverse)).runFrom
        { m with records := m.memory.locals :: m.records } = (.ok (), m₁) ∧
      m' = { m₁ with parameters := [], returns := here :: m₁.returns } := by
  obtain ⟨_, _, hmodify, hrest⟩ := Attempt.bind_ok h
  cases hmodify
  split at hrest
  case h_1 => cases hrest
  case h_2 f hf =>
    obtain ⟨_, _, hget, hrest⟩ := Attempt.bind_ok hrest
    cases hget
    obtain ⟨_, m₁, hbind, hrest⟩ := Attempt.bind_ok hrest
    cases hrest
    exact ⟨f, m₁, hf, rfl, hbind, rfl⟩

theorem enter_ok (h : (enter p name here).runFrom m = (.ok j, m')) :
    ∃ f, p.function? name = some f ∧ j = f.start ∧
      m' = { m with
        memory := { m.memory with locals := m'.memory.locals }
        records := m.memory.locals :: m.records
        returns := here :: m.returns
        parameters := [] } := by
  obtain ⟨f, m₁, hf, rfl, hbind, rfl⟩ := bind_of_enter h
  have hkeeps := keeps_bind ((f.parameterKinds.zip f.parameterAddresses).zip m.parameters.reverse)
    { m with records := m.memory.locals :: m.records }
  rw [hbind] at hkeeps
  refine ⟨f, hf, rfl, ?_⟩
  rcases m₁ with ⟨⟨globals, temporals, constants, locals⟩, _⟩
  simp only [Machine.mk.injEq, PerSector.mk.injEq] at hkeeps ⊢
  simp_all

end

end Routine

/-! ## Steps -/

namespace Program

variable {i : Int} {m m' : Machine}

theorem step_next (h : p.step i m = .next j m') :
    ∃ name fields next, p.quad? i = some (name :: fields) ∧
      (p.execute i name fields).runFrom m = (.ok next, m') ∧ j = next.getD (i + 1) := by
  unfold step at h
  split at h
  case h_1 name fields hq =>
    split at h
    case h_1 next m₁ hm =>
      cases h
      exact ⟨name, fields, next, hq, hm, rfl⟩
    case h_2 => cases h
  case h_2 => split at h <;> cases h

/-- The name of a jump is that of no other routine. -/
theorem ofName?_isJump (h : Routine.ofName? name = some r) (hr : r.isJump = true) :
    name = "GOTO" ∨ name = "GOTOF" ∨ name = "GOSUB" ∨ name = "ENDPROC" := by
  unfold Routine.ofName? at h
  split at h <;> cases h <;> first | exact absurd hr (by decide) | simp

theorem execute_ok (h : (p.execute i name fields).runFrom m = (.ok next, m')) :
    (∃ o, Operation.ofName? name = some o ∧ next = none ∧
      (o.perform fields).runFrom m = (.ok (), m')) ∨
    (Operation.ofName? name = none ∧ ∃ r, Routine.ofName? name = some r ∧
      (r.perform p i name fields).runFrom m = (.ok next, m')) := by
  unfold execute at h
  split at h
  case h_1 o ho =>
    obtain ⟨_, m₁, hm, hpure⟩ := Attempt.bind_ok h
    cases hpure
    exact .inl ⟨o, ho, rfl, hm⟩
  case h_2 ho =>
    split at h
    case h_1 r hr => exact .inr ⟨ho, r, hr, h⟩
    case h_2 => cases h

/-- Most quads go on to the next one and leave calls alone. -/
theorem step_other (hq : p.quad? i = some (name :: fields))
    (hname : name ≠ "GOTO" ∧ name ≠ "GOTOF" ∧ name ≠ "GOSUB" ∧ name ≠ "ENDPROC")
    (h : p.step i m = .next j m') : j = i + 1 ∧ m'.calls = m.calls := by
  obtain ⟨name', fields', next, hq', hexec, rfl⟩ := step_next h
  obtain ⟨rfl, rfl⟩ : name = name' ∧ fields = fields' := by simpa [hq] using hq'
  rcases execute_ok hexec with ⟨o, -, rfl, hperform⟩ | ⟨-, r, hr, hperform⟩
  · have hcalls := o.calls_perform fields m
    rw [hperform] at hcalls
    exact ⟨rfl, hcalls⟩
  · have hjump : r.isJump = false := by
      by_contra hjump
      have := ofName?_isJump hr (by simpa using hjump)
      simp_all
    obtain rfl := Routine.perform_yields_none hjump name fields m next m' hperform
    have hr : r ≠ .gosub ∧ r ≠ .endproc := by
      constructor <;> (rintro rfl; cases hjump)
    have hcalls : (((r.perform p i name fields).runFrom m).2).calls = m.calls :=
      Routine.calls_perform hr name fields m
    rw [hperform] at hcalls
    exact ⟨rfl, hcalls⟩

theorem execute_of_routine (ho : Operation.ofName? name = none) (hr : Routine.ofName? name = some r)
    (h : (p.execute i name fields).runFrom m = (.ok next, m')) :
    (r.perform p i name fields).runFrom m = (.ok next, m') := by
  rcases execute_ok h with ⟨o, ho', -⟩ | ⟨-, r', hr', hperform⟩
  · rw [ho] at ho'
    cases ho'
  · rw [hr] at hr'
    cases hr'
    exact hperform

theorem enter_of_step (hq : p.quad? i = some ["GOSUB", name]) (h : p.step i m = .next j m') :
    (Routine.enter p name i).runFrom m = (.ok j, m') := by
  obtain ⟨name', fields', next, hq', hexec, rfl⟩ := step_next h
  obtain ⟨rfl, rfl⟩ : "GOSUB" = name' ∧ [name] = fields' := by simpa [hq] using hq'
  obtain ⟨j, rfl, henter⟩ :=
    Routine.perform_gosub (execute_of_routine (by decide) (by decide) hexec)
  exact henter

theorem step_gosub (hq : p.quad? i = some ["GOSUB", name]) (h : p.step i m = .next j m') :
    ∃ f, p.function? name = some f ∧ j = f.start ∧
      m' = { m with
        memory := { m.memory with locals := m'.memory.locals }
        records := m.memory.locals :: m.records
        returns := i :: m.returns
        parameters := [] } :=
  Routine.enter_ok (enter_of_step hq h)

theorem step_endproc (hq : p.quad? i = some ["ENDPROC", name]) (h : p.step i m = .next j m') :
    ∃ f saved records caller returns, p.function? name = some f ∧ m.records = saved :: records ∧
      m.returns = caller :: returns ∧ j = caller + 1 ∧
      m' = { m with
        memory := { m.memory with locals := Routine.restored f m.memory.locals saved }
        records
        returns } := by
  obtain ⟨name', fields', next, hq', hexec, rfl⟩ := step_next h
  obtain ⟨rfl, rfl⟩ : "ENDPROC" = name' ∧ [name] = fields' := by simpa [hq] using hq'
  obtain ⟨j, rfl, hleave⟩ :=
    Routine.perform_endproc (execute_of_routine (by decide) (by decide) hexec)
  exact Routine.leave_ok hleave

theorem step_goto (hq : p.quad? i = some ["GOTO", t]) (h : p.step i m = .next j m') :
    Text.readInteger? t = some j ∧ m' = m := by
  obtain ⟨name', fields', next, hq', hexec, rfl⟩ := step_next h
  obtain ⟨rfl, rfl⟩ : "GOTO" = name' ∧ [t] = fields' := by simpa [hq] using hq'
  obtain ⟨j, rfl, ht, rfl⟩ :=
    Routine.perform_goto (execute_of_routine (by decide) (by decide) hexec)
  exact ⟨ht, rfl⟩

theorem step_gotof {c : String} (hq : p.quad? i = some ["GOTOF", c, t])
    (h : p.step i m = .next j m') :
    m' = m ∧ ∃ v, m.memory.load (.ofField c) = .ok v ∧
      ((v.truthy = true ∧ j = i + 1) ∨ (v.truthy = false ∧ Text.readInteger? t = some j)) := by
  obtain ⟨name', fields', next, hq', hexec, rfl⟩ := step_next h
  obtain ⟨rfl, rfl⟩ : "GOTOF" = name' ∧ [c, t] = fields' := by simpa [hq] using hq'
  obtain ⟨rfl, v, hv, hnext⟩ :=
    Routine.perform_gotof (execute_of_routine (by decide) (by decide) hexec)
  refine ⟨rfl, v, hv, ?_⟩
  rcases hnext with ⟨htrue, rfl⟩ | ⟨hfalse, j, rfl, ht⟩
  · exact .inl ⟨htrue, rfl⟩
  · exact .inr ⟨hfalse, ht⟩

/-! ## Runs -/

/-- A run of some steps from one index and machine to another. -/
inductive Steps (p : Program) : Nat → Int → Machine → Int → Machine → Prop
  | zero (i : Int) (m : Machine) : Steps p 0 i m i m
  | succ {n : Nat} {i j k : Int} {m m' m'' : Machine} :
      p.step i m = .next j m' → Steps p n j m' k m'' → Steps p (n + 1) i m k m''

theorem run_eq_unfinished : p.run n i m = (.unfinished j, m') ↔ p.Steps n i m j m' := by
  induction n generalizing i m with
  | zero =>
    constructor
    · rintro ⟨⟩
      exact .zero _ _
    · rintro ⟨⟩
      rfl
  | succ n ih =>
    rw [run]
    constructor
    · intro h
      split at h
      case h_1 k m₁ hstep => exact .succ hstep (ih.1 h)
      case h_2 => cases h
      case h_3 => cases h
    · rintro (_ | ⟨hstep, h⟩)
      rw [hstep]
      exact ih.2 h

theorem run_eq_finished :
    p.run n i m = (.finished, m') ↔
      ∃ k j m₁, k < n ∧ p.Steps k i m j m₁ ∧ p.step j m₁ = .halted m' := by
  induction n generalizing i m with
  | zero =>
    constructor
    · rintro ⟨⟩
    · rintro ⟨_, _, _, h, -⟩
      cases h
  | succ n ih =>
    rw [run]
    constructor
    · intro h
      split at h
      case h_1 k m₁ hstep =>
        obtain ⟨k, j, m₂, hk, hsteps, hhalt⟩ := ih.1 h
        exact ⟨k + 1, j, m₂, Nat.succ_lt_succ hk, .succ hstep hsteps, hhalt⟩
      case h_2 m₁ hhalt =>
        cases h
        exact ⟨0, i, m, Nat.succ_pos n, .zero i m, hhalt⟩
      case h_3 => cases h
    · rintro ⟨k, j, m₁, hk, hsteps, hhalt⟩
      cases hsteps with
      | zero => rw [hhalt]
      | succ hstep hsteps =>
        rw [hstep]
        exact ih.2 ⟨_, j, m₁, Nat.lt_of_succ_lt_succ hk, hsteps, hhalt⟩

/-- What every step keeps, a run keeps. -/
theorem Steps.invariant {I : Int → Machine → Prop}
    (hstep : ∀ {i j m m'}, p.step i m = .next j m' → I i m → I j m') (h : p.Steps n i m j m')
    (hi : I i m) : I j m' := by
  induction h with
  | zero => exact hi
  | succ h _ ih => exact ih (hstep h hi)

theorem step_halted (h : p.step i m = .halted m') :
    m' = m ∧ ∀ name fields, p.quad? i ≠ some (name :: fields) := by
  unfold step at h
  split at h
  case h_1 => split at h <;> cases h
  case h_2 hq =>
    refine ⟨?_, hq⟩
    unfold Exec.finish at h
    split at h
    case h_1 m₁ hm =>
      cases h
      obtain ⟨_, _, hget, hif⟩ := Attempt.bind_ok hm
      cases hget
      split at hif
      · cases hif
      · cases hif
        rfl
    case h_2 => cases h

end Program

end Symphony
