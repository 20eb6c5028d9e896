/-!
# Attempts

The compiler and the machine both act on a state and may fail, and both keep what they have done
before they fail. An `Attempt` is such an action. `runFrom` runs it; the equations say what it does
for each way to build one, so that a run can be followed step by step.
-/

namespace Symphony

/-- Actions that may fail, and keep the state they have reached when they do. -/
abbrev Attempt (ε σ : Type) := ExceptT ε (StateM σ)

namespace Attempt

variable {ε σ α β : Type}

/-- Runs an action from a state: its result or failure, and the state it ends in. -/
def runFrom (x : Attempt ε σ α) (s : σ) : Except ε α × σ := x.run.run s

@[simp] theorem runFrom_pure (a : α) (s : σ) :
    (pure a : Attempt ε σ α).runFrom s = (.ok a, s) := rfl

@[simp] theorem runFrom_get (s : σ) : (get : Attempt ε σ σ).runFrom s = (.ok s, s) := rfl

@[simp] theorem runFrom_set (t s : σ) : (set t : Attempt ε σ PUnit).runFrom s = (.ok ⟨⟩, t) := rfl

@[simp] theorem runFrom_modify (f : σ → σ) (s : σ) :
    (modify f : Attempt ε σ PUnit).runFrom s = (.ok ⟨⟩, f s) := rfl

@[simp] theorem runFrom_throw (e : ε) (s : σ) :
    (throw e : Attempt ε σ α).runFrom s = (.error e, s) := rfl

/-- A second action runs from where the first one ends, unless that fails. -/
@[simp] theorem runFrom_bind (x : Attempt ε σ α) (f : α → Attempt ε σ β) (s : σ) :
    (x >>= f).runFrom s =
      match x.runFrom s with
      | (.ok a, s) => (f a).runFrom s
      | (.error e, s) => (.error e, s) := by
  show (match x.run.run s with | (r, s) => ExceptT.bindCont f r s) = _
  unfold runFrom
  rcases x.run.run s with ⟨_ | _, _⟩ <;> rfl

@[simp] theorem runFrom_map (f : α → β) (x : Attempt ε σ α) (s : σ) :
    (f <$> x).runFrom s =
      match x.runFrom s with
      | (.ok a, s) => (.ok (f a), s)
      | (.error e, s) => (.error e, s) := by
  rw [← bind_pure_comp, runFrom_bind]
  rfl

/-- A handler runs from where the failed action has stopped. -/
@[simp] theorem runFrom_tryCatch (x : Attempt ε σ α) (handle : ε → Attempt ε σ α) (s : σ) :
    (tryCatch x handle).runFrom s =
      match x.runFrom s with
      | (.ok a, s) => (.ok a, s)
      | (.error e, s) => (handle e).runFrom s := by
  show (match x.run.run s with
    | (r, s) => (match r with
      | .ok a => pure (.ok a)
      | .error e => handle e : StateM σ (Except ε α)) s) = _
  unfold runFrom
  rcases x.run.run s with ⟨_ | _, _⟩ <;> rfl

/-- Lifts a computation that may fail and has no state. -/
def ofExcept : Except ε α → Attempt ε σ α
  | .ok a => pure a
  | .error e => throw e

@[simp] theorem runFrom_ofExcept (x : Except ε α) (s : σ) :
    (ofExcept x : Attempt ε σ α).runFrom s = (x, s) := by
  cases x <;> rfl

end Attempt

end Symphony
