import Symphony.Machine.Run
import Symphony.Proofs.Cells

/-!
# What quads do

One equation for each sort of quad: the next state of a run, or the fault that ends it. Quads that
compute change the memory only (`Program.step_binary`, `Program.step_unary`, `Program.step_copy`).
-/

namespace Symphony

variable {d x : String} {fields : List String} {i : Int} {m : Machine} {p : Program}

/-- The next state after a quad that may change the memory. -/
def Machine.next (m : Machine) (i : Int) : Except Fault Memory → StepResult
  | .ok memory => .next (i + 1) { m with memory }
  | .error f => .failed f m

theorem Exec.runFrom_integer {field : String} {n : Int} (h : Text.readInteger? field = some n)
    (m : Machine) : (integer field).runFrom m = (.ok n, m) := by
  rw [integer, h]
  rfl

namespace Operation

theorem ofName?_name (o : Operation) : ofName? o.name = some o := by
  cases o with
  | binary o => cases o <;> decide
  | unary o => cases o <;> decide
  | copy => decide

end Operation

namespace Program

variable {j : Int} {m' : Machine}

theorem step_operation (o : Operation) (hq : p.quad? i = some (o.name :: fields)) :
    p.step i m =
      match (o.perform fields).runFrom m with
      | (.ok _, m') => .next (i + 1) m'
      | (.error f, m') => .failed f m' := by
  rw [step, hq]
  dsimp only
  rw [execute, o.ofName?_name, Attempt.runFrom_bind]
  rcases (o.perform fields).runFrom m with ⟨_ | _, m'⟩ <;> rfl

/-- An operation with one operand. -/
theorem step_one (o : Operation) (hq : p.quad? i = some [o.name, x, d]) :
    p.step i m = m.next i (do
      let v ← m.memory.load (.ofField x)
      let r ← o.applyOne v
      m.memory.store (.ofField d) r) := by
  rw [step_operation o hq, Operation.perform]
  simp only [Attempt.runFrom_bind, Exec.runFrom_value, Attempt.runFrom_ofExcept, Exec.runFrom_store]
  cases m.memory.load (.ofField x) with
  | error f => rfl
  | ok v =>
    cases hr : o.applyOne v with
    | error f => simp [hr, Machine.next, bind, Except.bind]
    | ok r =>
      cases hs : m.memory.store (.ofField d) r <;> simp [hr, hs, Machine.next, bind, Except.bind]

/-- An operation with two operands. -/
theorem step_two (o : Operation) {y : String} {rest : List String}
    (hq : p.quad? i = some (o.name :: x :: y :: d :: rest)) :
    p.step i m = m.next i (do
      let l ← m.memory.load (.ofField x)
      let r ← m.memory.load (.ofField y)
      let v ← Operation.nameDividend l (o.applyTwo l r)
      m.memory.store (.ofField d) v) := by
  rw [step_operation o hq, Operation.perform]
  simp only [Attempt.runFrom_bind, Exec.runFrom_value, Attempt.runFrom_ofExcept, Exec.runFrom_store]
  cases m.memory.load (.ofField x) with
  | error f => rfl
  | ok l =>
    cases hr : m.memory.load (.ofField y) with
    | error f => simp [hr, Machine.next, bind, Except.bind]
    | ok r =>
      cases hv : Operation.nameDividend l (o.applyTwo l r) with
      | error f => simp [hr, hv, Machine.next, bind, Except.bind]
      | ok v =>
        cases hs : m.memory.store (.ofField d) v <;>
          simp [hr, hv, hs, Machine.next, bind, Except.bind]

theorem step_copy (hq : p.quad? i = some ["=", x, d]) :
    p.step i m = m.next i (do
      let v ← m.memory.load (.ofField x)
      m.memory.store (.ofField d) v) :=
  step_one .copy hq

/-- A copy that was completed more than once, or not at all, fails. -/
theorem step_copy_ok (hq : p.quad? i = some ("=" :: fields)) (h : p.step i m = .next j m') :
    ∃ x d, fields = [x, d] := by
  match fields, hq with
  | [x, d], _ => exact ⟨x, d, rfl⟩
  | [], hq =>
    rw [step_operation .copy hq] at h
    cases h
  | [x], hq =>
    rw [step_operation .copy hq] at h
    cases h
  | x :: y :: d :: rest, hq =>
    rw [step_two .copy hq] at h
    cases hx : m.memory.load (.ofField x) <;> cases hy : m.memory.load (.ofField y) <;>
      simp [hx, hy, Machine.next, bind, Except.bind, Operation.applyTwo,
        Operation.nameDividend] at h

theorem next_eq_next {x : Except Fault Memory} (h : m.next i x = .next j m') :
    j = i + 1 ∧ ∃ memory, x = .ok memory ∧ m' = { m with memory } := by
  cases x with
  | error f => cases h
  | ok memory =>
    cases h
    exact ⟨rfl, memory, rfl, rfl⟩

end Program

/-! ## Routines -/

/-- How a fault of a routine with one field is reported. -/
def Fault.reported (name : String) : Fault → Fault
  | .mismatch => .absent
  | .unknownName _ => .unsupported name
  | f => if f.isPosition then .inputMismatch else f

namespace Routine

variable {r : Routine} {name a b c : String}

/-- A routine with one field, which does not work without. -/
theorem runFrom_perform_one (hnil : r.attempt p i [] = throw .mismatch) :
    (r.perform p i name [a]).runFrom m =
      match (r.attempt p i [a]).runFrom m with
      | (.ok next, m') => (.ok next, m')
      | (.error f, m') => (.error (f.reported name), m') := by
  have hbare : ∀ n, (r.attemptBare p i).runFrom n = (.error .inputMismatch, n) := by
    intro n
    rw [attemptBare, hnil]
    rfl
  rw [perform, show (tryCatch _ _ : Exec (Option Int)).runFrom m =
    _ from Attempt.runFrom_tryCatch _ _ _]
  rcases (r.attempt p i [a]).runFrom m with ⟨f | next, m'⟩
  · cases f <;> first | rfl | exact hbare m'
  · rfl

/-- A routine without fields. -/
theorem runFrom_perform_nil :
    (r.perform p i name []).runFrom m =
      match (r.attempt p i []).runFrom m with
      | (.ok next, m') => (.ok next, m')
      | (.error .mismatch, m') => (.error .inputMismatch, m')
      | (.error f, m') => (.error f, m') := by
  rw [perform, attemptBare, orIfMismatch,
    show (tryCatch _ _ : Exec (Option Int)).runFrom m = _ from Attempt.runFrom_tryCatch _ _ _]
  rcases (r.attempt p i []).runFrom m with ⟨f | next, m'⟩
  · cases f <;> rfl
  · rfl

/-- A routine with three fields, which does not work with less. -/
theorem runFrom_perform_three (hone : r.attempt p i [a] = throw .mismatch)
    (htwo : r.attempt p i [a, b] = throw .mismatch) :
    (r.perform p i name [a, b, c]).runFrom m = (r.attempt p i [a, b, c]).runFrom m := by
  rw [perform, hone]
  change (orIfMismatch (r.attempt p i [a, b]) (r.attempt p i [a, b, c])).runFrom m = _
  rw [htwo]
  rfl

end Routine

namespace Program

variable {j : Int} {m' : Machine}

theorem step_routine (r : Routine) {name : String} (hq : p.quad? i = some (name :: fields))
    (ho : Operation.ofName? name = none) (hr : Routine.ofName? name = some r) :
    p.step i m =
      match (r.perform p i name fields).runFrom m with
      | (.ok next, m') => .next (next.getD (i + 1)) m'
      | (.error f, m') => .failed f m' := by
  rw [step, hq]
  dsimp only
  rw [execute, ho]
  rcases hp : (r.perform p i name fields).runFrom m with ⟨_ | _, _⟩ <;> simp [hr, hp]

/-- An argument is handed over as it stands. -/
theorem step_param {n : String} (hq : p.quad? i = some ["PARAM", x, n]) :
    p.step i m = .next (i + 1) { m with parameters := x :: m.parameters } := by
  rw [step_routine .param hq (by decide) (by decide)]
  rfl

/-- The address of an array element is stored. -/
theorem step_access {base : String} {b : Int} (hq : p.quad? i = some ["ACCESS", base, x, d])
    (hbase : Text.readInteger? base = some b) :
    p.step i m = m.next i (do
      let v ← m.memory.load (.ofField x)
      let w ← Value.add (.int b) v
      m.memory.store (.ofField d) w) := by
  have hattempt : Routine.access.attempt p i [base, x, d] = (do
      Routine.accessElement base x d
      return none) := rfl
  rw [step_routine .access hq (by decide) (by decide), Routine.runFrom_perform_three rfl rfl,
    hattempt, Routine.accessElement]
  simp only [Attempt.runFrom_bind, Exec.runFrom_value, Exec.runFrom_integer hbase,
    Attempt.runFrom_ofExcept, Exec.runFrom_store]
  cases m.memory.load (.ofField x) with
  | error f => rfl
  | ok v =>
    cases hw : Value.add (.int b) v with
    | error f => simp [hw, Machine.next, bind, Except.bind]
    | ok w =>
      cases hs : m.memory.store (.ofField d) w <;> simp [hw, hs, Machine.next, bind, Except.bind]

end Program

end Symphony
