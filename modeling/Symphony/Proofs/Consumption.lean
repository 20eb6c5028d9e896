import Symphony.Proofs.InputLines
import Symphony.Proofs.Pointers

/-!
# Input lines are read in order

An input quad stores the next line of the input and then counts it. It is tried with its first
field, and if that fails again with more fields or with none, as all routines are. Whatever the code
and the memory are, a line is neither skipped nor read twice.

**Readings of a run** (`Program.readings`). The input quads that a run executes without a fault, in
order, with the machine before and after each.

**Theorem (`Machine.lines_consumed`).** In a run of any program on any machine, the reading with the
number `k` stores line `k` in the cell of its first field, changes no other cell, and leaves the
count at `k + 1`. However the run ends, the count is the number of readings. If it ends without a
fault, all lines have been read.

Only the first attempt of an input quad can succeed, and it changes nothing if it does not
(`Routine.input_cases`). No other quad touches the lines (`Program.lines_step`).
-/

namespace Symphony

open Exec

/-- An input quad that is executed without a fault: its fields, and the machine before and after
it. -/
structure InputRead where
  fields : List String
  before : Machine
  after : Machine

/-- A reading stores the line with the given number in the cell of the first field, and counts it.
Nothing else changes. -/
def InputRead.Takes (r : InputRead) (inputs : Array String) (k : Nat) : Prop :=
  ∃ d rest line s memory, r.fields = d :: rest ∧ inputs[k]? = some line ∧
    r.before.memory.resolve (.ofField d) = .ok s ∧ r.before.inputCount = k ∧
    (∀ s', memory.read s' = if Slot.order s s' = .eq then .ok
      (.str line) else r.before.memory.read s') ∧
    r.after = { r.before with memory, inputCount := k + 1 }

namespace Program

/-- The fields of the quad at an index, if it is an input quad. -/
def asks? (p : Program) (i : Int) : Option (List String) :=
  match p.quad? i with
  | some (name :: fields) => if name = "input" then some fields else none
  | _ => none

/-- The readings of a run from an index of at most the given number of steps. -/
def readings (p : Program) : Nat → Int → Machine → List InputRead
  | 0, _, _ => []
  | limit + 1, i, m =>
    match p.step i m with
    | .next j m' => ((p.asks? i).map (⟨·, m, m'⟩)).toList ++ p.readings limit j m'
    | _ => []

end Program

/-! ## One quad -/

namespace Routine

variable {p : Program} {i : Int} {m : Machine} {name d : String}

theorem runFrom_attempt_input :
    (input.attempt p i [d]).runFrom m =
      match m.inputs[m.inputCount]? with
      | none => (.error .absent, m)
      | some line =>
        match m.memory.store (.ofField d) (.str line) with
        | .ok memory => (.ok none, { m with memory, inputCount := m.inputCount + 1 })
        | .error f => (.error f, m) := by
  have hget : (MonadState.get : Exec Machine).runFrom m = (.ok m, m) := rfl
  rw [show input.attempt p i [d] = (do readInput d; return none) from rfl,
    Attempt.runFrom_bind, readInput, Attempt.runFrom_bind, hget]
  dsimp only
  cases m.inputs[m.inputCount]? with
  | none => rfl
  | some line =>
    dsimp only
    rw [Attempt.runFrom_bind, runFrom_store]
    cases m.memory.store (.ofField d) (.str line) <;> rfl

/-- If the first attempt fails, the later ones do too. -/
theorem perform_input_of_error {f : Fault} (h : (input.attempt p i [d]).runFrom m = (.error f, m))
    (rest : List String) : ∃ g, (input.perform p i name (d :: rest)).runFrom m = (.error g, m) := by
  rw [perform, show (tryCatch _ _ : Exec (Option Int)).runFrom m =
    _ from Attempt.runFrom_tryCatch _ _ _, h]
  dsimp only
  split
  · rcases rest with _ | ⟨b, _ | ⟨c, rest⟩⟩ <;> exact ⟨_, rfl⟩
  · exact ⟨_, rfl⟩
  · split <;> exact ⟨_, rfl⟩

/-- An input quad stores the next line at its first field and counts it, or fails and changes
nothing. -/
theorem input_cases (p : Program) (i : Int) (name : String) (fields : List String) (m : Machine) :
    (∃ d rest line memory, fields = d :: rest ∧ m.inputs[m.inputCount]? = some line ∧
      m.memory.store (.ofField d) (.str line) = .ok memory ∧
      (input.perform p i name fields).runFrom m =
        (.ok none, { m with memory, inputCount := m.inputCount + 1 })) ∨
    ∃ f, (input.perform p i name fields).runFrom m = (.error f, m) := by
  cases fields with
  | nil => exact .inr ⟨_, rfl⟩
  | cons d rest =>
    have hattempt : (input.attempt p i [d]).runFrom m = _ := runFrom_attempt_input
    cases hline : m.inputs[m.inputCount]? with
    | none =>
      rw [hline] at hattempt
      exact .inr (perform_input_of_error hattempt rest)
    | some line =>
      cases hstore : m.memory.store (.ofField d) (.str line) with
      | error f =>
        simp only [hline, hstore] at hattempt
        exact .inr (perform_input_of_error hattempt rest)
      | ok memory =>
        simp only [hline, hstore] at hattempt
        refine .inl ⟨d, rest, line, memory, rfl, rfl, hstore, ?_⟩
        rw [perform, show (tryCatch _ _ : Exec (Option Int)).runFrom m =
          _ from Attempt.runFrom_tryCatch _ _ _, hattempt]

end Routine

namespace Program

variable {p : Program} {i j : Int} {m m' : Machine}

theorem asks?_eq_some {fields : List String} :
    p.asks? i = some fields ↔ p.quad? i = some ("input" :: fields) := by
  unfold asks?
  split
  case h_1 name rest hq => by_cases hname : name = "input" <;> simp [hname, hq]
  case h_2 hq => exact iff_of_false (by simp) fun h => hq _ _ h

/-- A step at an input quad reads a line or changes nothing. -/
theorem step_asks {fields : List String} (h : p.asks? i = some fields) (m : Machine) :
    (∃ m', p.step i m = .next (i + 1) m' ∧ InputRead.Takes ⟨fields, m, m'⟩ m.inputs m.inputCount) ∨
      ∃ f, p.step i m = .failed f m := by
  rw [step_routine .input (asks?_eq_some.1 h) (by decide) (by decide)]
  rcases Routine.input_cases p i "input" fields m with
    ⟨d, rest, line, memory, rfl, hline, hstore, hrun⟩ | ⟨f, hrun⟩
  · rw [hrun]
    obtain ⟨s, hs, hwrite⟩ := Memory.exists_of_store hstore
    exact .inl ⟨_, rfl, d, rest, line, s, memory, rfl, hline, hs, rfl,
      fun s' => Memory.read_of_write hwrite, rfl⟩
  · rw [hrun]
    exact .inr ⟨f, rfl⟩

theorem keeps_finish {ν : Type} (view : Machine → ν) : Keeps view Exec.finish := by
  refine keeps_get.bind fun n => ?_
  split
  · exact keeps_throw _
  · exact keeps_pure _

/-- Other quads leave the lines and their count alone, also if they fail. -/
theorem lines_step (h : p.asks? i = none) (m : Machine) : (p.step i m).machine.lines = m.lines := by
  cases hq : p.quad? i with
  | none => rw [machine_step_of_none hq]
  | some q =>
    cases q with
    | nil =>
      have hkeeps := keeps_finish Machine.lines m
      rw [step, hq]
      dsimp only
      rcases hrun : Exec.finish.runFrom m with ⟨_ | _, m'⟩ <;> (rw [hrun] at hkeeps; exact hkeeps)
    | cons name fields =>
      rw [machine_step hq, execute]
      split
      case h_1 o ho =>
        exact ((o.keeps_perform Machine.hidesData_lines fields).bind fun _ => keeps_pure _) m
      case h_2 ho =>
        split
        case h_1 r hr =>
          refine Routine.keeps_perform
            (fun _ => Routine.keeps_attempt Machine.hidesData_lines (fun _ _ _ _ => rfl) ?_ _)
              name fields m
          rintro rfl
          have hname : name = "input" := by
            unfold Routine.ofName? at hr
            split at hr <;> first | rfl | cases hr
          subst hname
          rw [asks?_eq_some.2 hq] at h
          cases h
        case h_2 => rfl

/-! ## Runs -/

theorem count_of_halted (h : p.step i m = .halted m') : m'.inputCount = m'.inputs.size := by
  have hsame := (step_halted h).1
  unfold step at h
  split at h
  case h_1 => split at h <;> cases h
  case h_2 =>
    split at h
    case h_1 m₁ hm =>
      cases h
      obtain ⟨_, _, hget, hif⟩ := Attempt.bind_ok hm
      cases hget
      rw [hsame]
      by_contra hne
      rw [if_pos hne] at hif
      cases hif
    case h_2 => cases h

/-- The readings of a run take one line after the other, and the count follows them. -/
theorem readings_run (p : Program) (limit : Nat) (i : Int) (m : Machine) :
    (∀ k (r : InputRead), (p.readings limit i m)[k]? = some r →
      r.Takes m.inputs (m.inputCount + k)) ∧
      (p.run limit i m).2.lines = (m.inputs, m.inputCount + (p.readings limit i m).length) := by
  induction limit generalizing i m with
  | zero => exact ⟨by simp [readings], rfl⟩
  | succ limit ih =>
    rw [readings, run]
    -- A step that does not ask for a line leaves the count alone.
    cases hasks : p.asks? i with
    | none =>
      have hlines := lines_step hasks m
      cases hstep : p.step i m with
      | next j m' =>
        rw [hstep] at hlines
        obtain ⟨hinputs, hcount⟩ := Prod.mk.inj hlines
        have hrest := ih j m'
        rw [show m'.inputs = m.inputs from hinputs, show m'.inputCount = m.inputCount from hcount]
          at hrest
        simpa using hrest
      | halted m' | failed f m' =>
        rw [hstep] at hlines
        exact ⟨by simp, hlines⟩
    | some fields =>
      rcases step_asks hasks m with ⟨m', hstep, htakes⟩ | ⟨f, hstep⟩
      · rw [hstep]
        have hrest := ih (i + 1) m'
        obtain ⟨d, rest, line, s, memory, -, -, -, -, -, hafter⟩ := id htakes
        obtain rfl : m' = { m with memory, inputCount := m.inputCount + 1 } := hafter
        obtain ⟨htail, hcount⟩ := hrest
        constructor
        · intro k r hr
          cases k with
          | zero =>
            obtain rfl := Option.some.inj hr
            exact htakes
          | succ k =>
            have hk := htail k r (by simpa using hr)
            rwa [show m.inputCount + (k + 1) = m.inputCount + 1 + k by omega]
        · refine hcount.trans ?_
          simp
          omega
      · rw [hstep]
        exact ⟨by simp, rfl⟩

end Program

/-- In every run of every program on every machine the input lines are read one after the other,
each once, and a run that ends without a fault has read them all. -/
theorem Machine.lines_consumed (m : Machine) (p : Program) (constants : Bank)
    (inputs : Array String) (limit : Nat) :
    (∀ k (r : InputRead), (p.readings limit 0 (m.prepare constants inputs))[k]? = some r →
      r.Takes inputs k) ∧ (m.play p constants inputs limit).2.inputCount =
        (p.readings limit 0 (m.prepare constants inputs)).length ∧
      ((m.play p constants inputs limit).1 = .finished →
        (p.readings limit 0 (m.prepare constants inputs)).length = inputs.size) := by
  obtain ⟨htakes, hlines⟩ := p.readings_run limit 0 (m.prepare constants inputs)
  obtain ⟨hinputs, hcount⟩ := Prod.mk.inj hlines
  rw [show (m.prepare constants inputs).inputCount = 0 from rfl, Nat.zero_add] at hcount
  refine ⟨fun k r hr => ?_, hcount, fun hfinished => ?_⟩
  · have hk := htakes k r hr
    rwa [show (m.prepare constants inputs).inputCount + k = k from Nat.zero_add k] at hk
  · have hrun : p.run limit 0 (m.prepare constants inputs) =
        (.finished, (m.play p constants inputs limit).2) :=
      Prod.ext hfinished rfl
    obtain ⟨_, _, _, -, -, hhalted⟩ := Program.run_eq_finished.1 hrun
    have hread := Program.count_of_halted hhalted
    rw [show (m.play p constants inputs limit).2.inputs = inputs from hinputs] at hread
    exact hcount.symm.trans hread

/-- A loop reads lines until one has more than one character. -/
theorem Machine.lines_consumed_loop :
    let p := Program.ofText
      "input 58000\nPARAM 58000 1\nlength 130000\n> 130000 200000 172000\nGOTOF 172000 0" []
    let constants := Bank.empty.put .int 200000 (.int 1)
    (({} : Machine).play p constants #["a", "bc"] 20).1 = .finished ∧
      ∃ r s, p.readings 20 0 (({} : Machine).prepare constants #["a", "bc"]) = [r, s] ∧
        r.Takes #["a", "bc"] 0 ∧ s.Takes #["a", "bc"] 1 := by
  intro p constants
  have hfinished : (({} : Machine).play p constants #["a", "bc"] 20).1 = .finished := by
    decide +kernel
  obtain ⟨htakes, -, hlength⟩ := lines_consumed {} p constants #["a", "bc"] 20
  obtain ⟨r, s, hreadings⟩ := List.length_eq_two.1 (hlength hfinished)
  rw [hreadings] at htakes
  exact ⟨hfinished, r, s, hreadings, htakes 0 r rfl, htakes 1 s rfl⟩

end Symphony
