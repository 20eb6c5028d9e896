import Symphony.Proofs.Preservation

/-!
# Nothing is left over

Operands are handed over for a call, which uses them up. A call that fails halfway does not, and
leaves them to the program that is played next.

**Theorem (`Compiled.idle_of_finished`).** If a source has room for its cells, and is played to its
end on a machine without open calls or operands that have been handed over, there are none
afterwards.

How many operands there are is a matter of the code (`Program.leaves_execute`): nothing has to be
known about the memory, in which earlier programs may have left anything.
-/

namespace Symphony

open Exec

variable {i : Int} {n n' : Nat} {name : String} {p : Program} {m m' : Machine}

namespace Exec

variable {α β : Type} {n'' : Nat}

/-- An action that goes on turns a number of operands handed over into another one. -/
def Leaves (n n' : Nat) (x : Exec α) : Prop :=
  ∀ m a m', m.parameters.length = n → x.runFrom m = (.ok a, m') → m'.parameters.length = n'

theorem Keeps.leaves {x : Exec α} (h : Keeps Machine.parameters x) : Leaves n n x := by
  intro m a m' hm hrun
  have hsame : (x.runFrom m).2.parameters = m.parameters := h m
  rw [hrun] at hsame
  rwa [show m'.parameters = m.parameters from hsame]

theorem Leaves.bind {x : Exec α} {f : α → Exec β} (hx : Leaves n n' x)
    (hf : ∀ a, Leaves n' n'' (f a)) : Leaves n n'' (x >>= f) := by
  intro m b m'' hm hrun
  obtain ⟨a, m', ha, hb⟩ := Attempt.bind_ok hrun
  exact hf a m' b m'' (hx m a m' hm ha) hb

theorem leaves_popParameter : Leaves (n + 1) n popParameter := by
  intro m a m' hm hrun
  obtain ⟨_, _, hget, hrest⟩ := Attempt.bind_ok hrun
  cases hget
  split at hrest
  case h_1 => cases hrest
  case h_2 p rest hp =>
    cases hrest
    rw [hp] at hm
    exact Nat.succ.inj hm

theorem leaves_popValue : Leaves (n + 1) n popValue :=
  leaves_popParameter.bind fun _ => (keeps_value _).leaves

theorem parameters_store (v : Value) (field : String) : Keeps Machine.parameters (store v field) :=
  keeps_get.bind fun _ => (keeps_ofExcept _).bind fun _ => keeps_modify fun _ => rfl

end Exec

theorem Operation.parameters_perform (o : Operation) (fields : List String) :
    Keeps Machine.parameters (o.perform fields) := by
  unfold Operation.perform
  split
  · exact (keeps_value _).bind fun _ => (keeps_ofExcept _).bind fun _ => parameters_store _ _
  · exact (keeps_value _).bind fun _ => (keeps_value _).bind fun _ =>
      (keeps_ofExcept _).bind fun _ => parameters_store _ _
  · exact keeps_throw _

namespace Routine

variable {r : Routine}

theorem leaves_storeOf (f : Value → Except Fault Value) (d : String) :
    Leaves (n + 1) n (storeOf f d) :=
  leaves_popValue.bind fun _ => (keeps_ofExcept _).leaves.bind fun _ =>
    (parameters_store _ _).leaves

theorem leaves_printWith (ending : String) : Leaves (n + 1) n (printWith ending) :=
  leaves_popValue.bind fun _ => (keeps_ofExcept _).leaves.bind fun _ =>
    Keeps.leaves (keeps_modify fun _ => rfl)

theorem parameters_readInput (d : String) : Keeps Machine.parameters (readInput d) := by
  refine keeps_get.bind fun m => ?_
  split
  · exact keeps_throw _
  · exact (parameters_store _ _).bind fun _ => keeps_modify fun _ => rfl

theorem parameters_access (name : String) (fields : List String) :
    Keeps Machine.parameters (access.perform p i name fields) := by
  refine keeps_perform (fun fields => ?_) name fields
  match fields with
  | [base, x, d] =>
    have h : Keeps Machine.parameters (accessElement base x d) :=
      (keeps_value _).bind fun _ => (keeps_integer _).bind fun _ => (keeps_ofExcept _).bind fun _ =>
        parameters_store _ _
    exact h.bind fun _ => keeps_pure _
  | [] | [_] | [_, _] | _ :: _ :: _ :: _ :: _ => exact keeps_throw _

theorem leaves_perform_nil (name : String) (h : Leaves n n' (r.attempt p i [])) :
    Leaves n n' (r.perform p i name []) := by
  intro m next m' hm hrun
  rw [runFrom_perform_nil] at hrun
  split at hrun
  case h_1 next' m₁ hattempt =>
    cases hrun
    exact h m next m' hm hattempt
  all_goals cases hrun

theorem leaves_perform_one (name : String) {a : String} (hnil : r.attempt p i [] = throw .mismatch)
    (h : Leaves n n' (r.attempt p i [a])) : Leaves n n' (r.perform p i name [a]) := by
  intro m next m' hm hrun
  rw [runFrom_perform_one hnil] at hrun
  split at hrun
  case h_1 next' m₁ hattempt =>
    cases hrun
    exact h m next m' hm hattempt
  case h_2 => cases hrun

theorem leaves_done {x : Exec Unit} (h : Leaves n n' x) :
    Leaves n n' (do x; return (none : Option Int)) :=
  h.bind fun _ => (keeps_pure _).leaves

/-- A special function takes as many operands as it has parameters. -/
theorem leaves_special {s : Special.Signature} (hs : Special.signature? name = some s)
    (hres : s.result = none) :
    ∃ r, Operation.ofName? name = none ∧ ofName? name = some r ∧
      Leaves s.parameters.length 0 (r.perform p i name []) := by
  have hplay : ∀ names, Keeps Machine.parameters (playNotes names) :=
    fun _ => keeps_modify fun _ => rfl
  unfold Special.signature? at hs
  split at hs <;> cases hs <;>
    first | (cases hres; done) | refine ⟨_, by decide, rfl, leaves_perform_nil _ (leaves_done ?_)⟩
  case h_1 | h_2 => exact leaves_printWith _
  case h_17 =>
    exact leaves_popParameter.bind fun _ => leaves_popValue.bind fun _ =>
      (parameters_store _ _).leaves
  all_goals exact (hplay _).leaves

theorem leaves_specialValue {s : Special.Signature} {t : Ty} (d : String)
    (hs : Special.signature? name = some s) (hres : s.result = some t) :
    ∃ r, Operation.ofName? name = none ∧ ofName? name = some r ∧
      Leaves s.parameters.length 0 (r.perform p i name [d]) := by
  unfold Special.signature? at hs
  split at hs <;> cases hs <;> cases hres <;>
    refine ⟨_, by decide, rfl, leaves_perform_one _ rfl (leaves_done ?_)⟩
  case h_4 =>
    exact leaves_popValue.bind fun _ => leaves_popValue.bind fun _ =>
      (keeps_ofExcept _).leaves.bind fun _ => (parameters_store _ _).leaves
  case h_7 =>
    have hrandom : Keeps Machine.parameters nextRandom :=
      keeps_get.bind fun _ => Keeps.bind (keeps_modify fun _ => rfl) fun _ => keeps_pure _
    exact (hrandom.bind fun _ => parameters_store _ _).leaves
  case h_18 => exact (parameters_readInput d).leaves
  all_goals exact leaves_storeOf _ d

end Routine

namespace Program

theorem leaves_routine {r : Routine} {fields : List String} (ho : Operation.ofName? name = none)
    (hname : Routine.ofName? name = some r) (h : Leaves n n' (r.perform p i name fields)) :
    Leaves n n' (p.execute i name fields) := by
  rw [execute, ho]
  dsimp only
  rw [hname]
  exact h

theorem leaves_check (r : Routine) {fields : List String} (ho : Operation.ofName? name = none)
    (hname : Routine.ofName? name = some r) (h : r = .goto ∨ r = .gotof ∨ r = .ver) :
    Leaves n n (p.execute i name fields) := by
  have hsame := Routine.keeps_perform_of_check (p := p) (i := i) h name fields
  exact leaves_routine ho hname (Keeps.leaves fun m => congrArg Machine.parameters (hsame m))

/-- Routines other than those of calls leave the operands alone. -/
theorem leaves_apart {w : String} (hw : Quad.IsApart w) (hend : w ≠ "ENDPROC")
    (fields : List String) : Leaves n n (p.execute i w fields) := by
  cases ho : Operation.ofName? w with
  | some o =>
    rw [execute, ho]
    exact Routine.leaves_done (o.parameters_perform fields).leaves
  | none =>
    cases hr : Routine.ofName? w with
    | none =>
      rw [execute, ho]
      dsimp only
      rw [hr]
      exact fun m a m' _ hrun => by cases hrun
    | some r =>
      have hroutine : (r = .goto ∨ r = .gotof ∨ r = .ver) ∨ r = .access := by
        unfold Routine.ofName? at hr
        split at hr <;> cases hr <;>
          first | exact absurd hw (by decide) | exact absurd rfl hend | simp
      rcases hroutine with hcheck | rfl
      · exact leaves_check r ho hr hcheck
      · exact leaves_routine ho hr (Routine.parameters_access _ _).leaves

/-- After a quad that finds its operands there are as many operands as the next one expects. -/
theorem leaves_execute {args : List Field} {w : String} {fs : List Field}
    (h : Quad.Fed args (.word w :: fs)) (hend : w ≠ "ENDPROC") (hcall : w ≠ "GOSUB") :
    Leaves args.length ((Quad.passes? (.word w :: fs)).elim [] (· :: args)).length
      (p.execute i w (fs.map Field.text)) := by
  generalize hq : Field.word w :: fs = q at h
  cases h with
  | apart _ hw =>
    cases hq
    rw [Quad.passes?_eq_none hw.1]
    exact leaves_apart hw hend _
  | param =>
    cases hq
    refine leaves_routine (r := .param) (by decide) rfl fun m next m' hm hrun => ?_
    cases hrun
    exact congrArg (· + 1) hm
  | gosub => exact absurd (Field.word.inj (List.cons.inj hq).1) hcall
  | @special _ _ _ s hs hargs hfields =>
    cases hq
    rw [Quad.passes?_eq_none (Special.ne_param hs), hargs]
    cases hres : s.result with
    | none =>
      obtain rfl : fs = [] := List.eq_nil_of_length_eq_zero (by simpa [hres] using hfields)
      obtain ⟨r, ho, hname, hleaves⟩ := Routine.leaves_special (p := p) (i := i) hs hres
      exact leaves_routine ho hname hleaves
    | some t =>
      obtain ⟨d, rfl⟩ := List.length_eq_one_iff.1 (by simpa [hres] using hfields)
      obtain ⟨r, ho, hname, hleaves⟩ := Routine.leaves_specialValue (p := p) (i := i) d.text hs hres
      exact leaves_routine ho hname hleaves

end Program

/-- A machine that is in the middle of nothing: no call is open, and no operand has been handed
over. -/
structure Machine.Idle (m : Machine) : Prop where
  records : m.records = []
  returns : m.returns = []
  parameters : m.parameters = []

namespace Compiler.IsFed

variable {c : Compiler} {k : Nat} {regions fs : List Region} {main : Nat}

/-- Calls use up all operands, and no others stay behind. -/
theorem parameters_next (h : c.IsFed) (hr : Routed regions main c p)
    (hstands : Stands regions main c fs k m) {q : Quad} (hq : c.quads[k]? = some q)
    (hm : m.parameters.length = (Quad.passed c.quads k).length) (hstep : p.step k m = .next i m') :
    m'.parameters.length = (q.passes?.elim [] (· :: Quad.passed c.quads k)).length := by
  have hfed := (h.quads k q hq).1
  have hquad := hr.program.quad?_eq_some hq
  obtain ⟨w, xs, rfl⟩ := hfed.exists_word
  by_cases hcall : w = "GOSUB"
  · subst hcall
    obtain ⟨name, rfl⟩ := hr.calls k xs hq
    obtain ⟨f, -, -, hm'⟩ := Program.step_gosub hquad hstep
    rw [hm']
    rfl
  by_cases hend : w = "ENDPROC"
  · subst hend
    obtain ⟨r, gs, rfl, rfl⟩ := hstands.innermost hr hq
    obtain ⟨f, saved, records, caller, returns, -, -, -, -, rfl⟩ := Program.step_endproc hquad hstep
    rw [hfed.eq_nil (by decide)] at hm
    exact hm
  · obtain ⟨name, fields, next, hquad', hexec, -⟩ := Program.step_next hstep
    obtain ⟨rfl, rfl⟩ : w = name ∧ xs.map Field.text = fields := by
      simpa [hquad, Field.text] using hquad'
    exact Program.leaves_execute hfed hend hcall m next m' hm hexec

/-- Operands are handed over as they stand in the code. -/
theorem handed_next (h : c.IsFed) (hr : Routed regions main c p)
    (hstands : Stands regions main c fs k m) {q : Quad} (hq : c.quads[k]? = some q)
    (hm : m.parameters = (Quad.passed c.quads k).map Field.text) (hstep : p.step k m = .next i m') :
    m'.parameters = (q.passes?.elim [] (· :: Quad.passed c.quads k)).map Field.text := by
  have hlength := h.parameters_next hr hstands hq (by rw [hm, List.length_map]) hstep
  cases hpasses : q.passes? with
  | none =>
    rw [hpasses] at hlength
    exact List.eq_nil_of_length_eq_zero hlength
  | some x =>
    obtain ⟨n, rfl⟩ := Quad.eq_of_passes? hpasses
    rw [Program.step_param (hr.program.quad?_eq_some hq)] at hstep
    cases hstep
    exact congrArg _ hm

/-- Between two steps of a run the operands are those that the code has handed over. -/
theorem handed_steps (h : c.IsFed) (hr : Routed regions main c p)
    (hstands : Stands regions main c fs k m)
    (hm : m.parameters = (Quad.passed c.quads k).map Field.text) (hsteps : p.Steps n k m i m') :
    ∃ gs j, i = (j : Nat) ∧ Stands regions main c gs j m' ∧
      m'.parameters = (Quad.passed c.quads j).map Field.text := by
  have hstep : ∀ {i j m m'}, p.step i m = .next j m' →
      (∃ fs k, i = (k : Nat) ∧ Stands regions main c fs k m ∧
        m.parameters = (Quad.passed c.quads k).map Field.text) →
      ∃ fs k, j = (k : Nat) ∧ Stands regions main c fs k m' ∧
        m'.parameters = (Quad.passed c.quads k).map Field.text := by
    rintro _ _ m m' hstep ⟨fs, k, rfl, hstands, hm⟩
    obtain ⟨gs, j, rfl, hmoves⟩ := hstands.moves hr hstep
    obtain ⟨q, hq⟩ := hr.program.step_next hstep
    refine ⟨gs, j, rfl, hstands.move hr hmoves, ?_⟩
    rw [h.passed_move hr hstands hq hmoves]
    exact h.handed_next hr hstands hq hm hstep
  exact hsteps.invariant hstep ⟨fs, k, rfl, hstands, hm⟩

/-- Nothing has been handed over where the code ends. -/
theorem passed_of_halted (h : c.IsFed) (hp : p.IsOf c) (hhalt : p.step k m = .halted m') :
    Quad.passed c.quads k = [] := by
  obtain ⟨-, hnone⟩ := Program.step_halted hhalt
  have hsize : c.quads.size ≤ k := by
    by_contra hlt
    have hq := Array.getElem?_eq_getElem (Nat.lt_of_not_le hlt)
    obtain ⟨w, xs, hword⟩ := (h.quads k _ hq).1.exists_word
    rw [hword] at hq
    exact hnone _ _ (hp.quad?_eq_some hq)
  rcases Nat.lt_or_eq_of_le hsize with hlt | rfl
  · obtain ⟨j, rfl⟩ : ∃ j, k = j + 1 := ⟨k - 1, by omega⟩
    rw [Quad.passed, Array.getElem?_eq_none (Nat.le_of_lt_succ hlt)]
    rfl
  · exact h.last

end Compiler.IsFed

namespace Compiler.IsSound

variable {c : Compiler} {rs : List Reservation} {bs : List Int} {k : Nat} {regions fs : List Region}
  {main : Nat}

theorem handed_steps (h : c.IsSound rs bs) (hr : Routed regions main c p)
    (hstands : Stands regions main c fs k m)
    (hm : m.parameters = (Quad.passed c.quads k).map Field.text) (hsteps : p.Steps n k m i m') :
    ∃ gs j, i = (j : Nat) ∧ Stands regions main c gs j m' ∧
      m'.parameters = (Quad.passed c.quads j).map Field.text :=
  h.isFed.handed_steps hr hstands hm hsteps

theorem passed_of_halted (h : c.IsSound rs bs) (hp : p.IsOf c) (hhalt : p.step k m = .halted m') :
    Quad.passed c.quads k = [] :=
  h.isFed.passed_of_halted hp hhalt

end Compiler.IsSound

/-- A source that has room for its cells and runs to its end on an idle machine leaves it idle. -/
theorem Compiled.idle_of_finished {line : Nat} {source : String}
    (h : (ofSource line source).rejection = none) (hroom : HasRoom line source) (hm : m.Idle)
    {constants : Bank} {inputs : Array String} {limit : Nat}
    (hplay : m.play (ofSource line source).program constants inputs limit = (.finished, m')) :
    m'.Idle := by
  obtain ⟨rs, bs, hsound⟩ := exists_isSound h hroom
  obtain ⟨regions, main, hr, -⟩ := exists_routed h
  obtain ⟨n, i, m₁, -, hsteps, hhalt⟩ := Program.run_eq_finished.1 hplay
  obtain ⟨fs, k, rfl, hstands, hparameters⟩ :=
    hsound.handed_steps hr (.start (m := m.prepare constants inputs) hm.records hm.returns)
      hm.parameters hsteps
  obtain ⟨hrecords, hreturns⟩ := hstands.halted hr hhalt
  obtain ⟨rfl, -⟩ := Program.step_halted hhalt
  rw [hsound.passed_of_halted hr.program hhalt] at hparameters
  exact ⟨hrecords, hreturns, hparameters⟩

end Symphony
