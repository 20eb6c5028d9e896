import Symphony.Proofs.Calls
import Symphony.Proofs.Cells

/-!
# Frames

What a call does to the suspended calls, whatever code is executed. Nothing is assumed of the quads
or of the functions: jumps may lead anywhere, and a function may be left at the end of another one.

Only two operations touch the suspended calls (`Program.step_calls`). So while a call is open, what
its caller has suspended lies unchanged under what is suspended since (`Machine.Above`), and the
step that ends it takes exactly that away.

**Theorem (`Program.call_frame`).** A call that ends goes on after the quad that made it, and the
suspended calls and local cells are as they were, but for the cell in which the function that was
left has its result.
-/

namespace Symphony

variable {i j : Int} {m : Machine} {p : Program}

/-! ## The cell of a result -/

/-- The local cell in which a function leaves its result. -/
def Function.LeavesIn (f : Function) (t : Ty) (s : Slot) : Prop :=
  f.result.bind Kind.ty? = some t ∧ ∃ a, f.returnPlace = some (.num a) ∧
    Slot.order (.ofInt a) s = .eq

namespace Routine

variable {f : Function} {callee saved : Bank} {t : Ty} {s : Slot}

/-- The cell of the result holds what the function has put there, if it has. -/
theorem restored_of_leavesIn (h : f.LeavesIn t s) :
    ((restored f callee saved).get t)[s]? = ((callee.get t)[s]?).or (saved.get t)[s]? := by
  obtain ⟨hresult, a, hplace, hs⟩ := h
  have hcell : (callee.get t)[Slot.ofInt a]? = (callee.get t)[s]? := Std.TreeMap.getElem?_congr hs
  have hleft : leftBehind f callee = ((callee.get t)[s]?).map (t, a, ·) := by
    rw [leftBehind, hresult, hplace, ← hcell]
  unfold restored
  rw [hleft]
  cases (callee.get t)[s]? with
  | none => rfl
  | some v =>
    rw [Option.map_some, Option.some_or, Bank.getElem?_set_put_slot, if_pos ⟨rfl, hs⟩]

/-- All other cells are those of the caller. -/
theorem restored_of_not_leavesIn (h : ¬f.LeavesIn t s) :
    ((restored f callee saved).get t)[s]? = (saved.get t)[s]? := by
  unfold restored
  split
  case h_2 => rfl
  case h_1 u a v hleft =>
    unfold leftBehind at hleft
    split at hleft
    case h_2 => cases hleft
    case h_1 u' a' hresult hplace =>
      obtain ⟨w, -, heq⟩ := Option.map_eq_some_iff.1 hleft
      cases heq
      rw [Bank.getElem?_set_put_slot, if_neg]
      rintro ⟨rfl, hs⟩
      exact h ⟨hresult, a, hplace, hs⟩

end Routine

/-! ## Steps -/

namespace Program

variable {k l : Int} {m' m'' inner : Machine}

theorem ofName?_gosub {name : String} (h : Routine.ofName? name = some .gosub) :
    name = "GOSUB" := by
  unfold Routine.ofName? at h
  split at h <;> cases h
  rfl

theorem ofName?_endproc {name : String} (h : Routine.ofName? name = some .endproc) :
    name = "ENDPROC" := by
  unfold Routine.ofName? at h
  split at h <;> cases h
  rfl

/-- What a step does to the suspended calls: nothing, or it suspends the caller of a function, or it
goes back to it. -/
theorem step_calls (h : p.step i m = .next j m') :
    m'.calls = m.calls ∨
    (∃ name rest, p.quad? i = some ("GOSUB" :: name :: rest) ∧
      m'.records = m.memory.locals :: m.records ∧ m'.returns = i :: m.returns) ∨
    ∃ name rest f saved records caller returns, p.quad? i = some ("ENDPROC" :: name :: rest) ∧
      p.function? name = some f ∧ m.records = saved :: records ∧ m.returns = caller :: returns ∧
      j = caller + 1 ∧
      m' = { m with
        memory := { m.memory with locals := Routine.restored f m.memory.locals saved }, records,
          returns } := by
  obtain ⟨name, fields, next, hq, hexec, rfl⟩ := step_next h
  rcases execute_ok hexec with ⟨o, -, -, hperform⟩ | ⟨-, r, hr, hperform⟩
  · left
    have hcalls := o.calls_perform fields m
    rwa [hperform] at hcalls
  · by_cases hcall : r ≠ .gosub ∧ r ≠ .endproc
    · left
      have hcalls : (((r.perform p i name fields).runFrom m).2).calls = m.calls :=
        Routine.calls_perform hcall name fields m
      rwa [hperform] at hcalls
    · right
      have hr' : r = .gosub ∨ r = .endproc := by tauto
      have hsingle : ∀ fields : List String, fields.length ≠ 1 →
          r.attempt p i fields = throw .mismatch :=
        Routine.attempt_of_length_ne_one (hr'.imp_right Or.inl)
      cases fields with
      | nil =>
        -- Without a field neither of the two can be performed.
        rw [show r.perform p i name [] = r.attemptBare p i from rfl, Routine.attemptBare,
          hsingle [] (by decide)] at hperform
        cases hperform
      | cons a rest =>
        rcases hr' with rfl | rfl
        · left
          obtain rfl := ofName?_gosub hr
          obtain ⟨j, -, henter⟩ := Routine.perform_gosub hperform
          obtain ⟨f, -, -, hm'⟩ := Routine.enter_ok henter
          exact ⟨a, rest, hq, by rw [hm'], by rw [hm']⟩
        · right
          obtain rfl := ofName?_endproc hr
          obtain ⟨j, rfl, hleave⟩ := Routine.perform_endproc hperform
          obtain ⟨f, saved, records, caller, returns, hf, hrecords, hreturns, hj, hm'⟩ :=
            Routine.leave_ok hleave
          exact ⟨a, rest, f, saved, records, caller, returns, hq, hf, hrecords, hreturns, hj, hm'⟩

end Program

/-! ## Open calls -/

/-- A call that was made at an index is open: its caller is suspended, under as many others as have
been since. -/
def Machine.Above (m : Machine) (k : Int) (m' : Machine) : Prop :=
  ∃ bs as, bs.length = as.length ∧ m'.records = bs ++ m.memory.locals :: m.records ∧
    m'.returns = as ++ k :: m.returns

namespace Machine.Above

variable {k l : Int} {m' m'' inner : Machine}

theorem lt (h : m.Above k m') : m.records.length < m'.records.length := by
  obtain ⟨bs, -, -, hrecords, -⟩ := h
  rw [hrecords, List.length_append, List.length_cons]
  omega

/-- A step leaves a call open, or it ends it. -/
theorem step (h : m.Above k inner) (hstep : p.step l inner = .next j m') :
    m.Above k m' ∨ ∃ name rest f, p.quad? l = some ("ENDPROC" :: name :: rest) ∧
      p.function? name = some f ∧ j = k + 1 ∧ m' = m.returned inner f := by
  obtain ⟨bs, as, hlength, hrecords, hreturns⟩ := h
  rcases Program.step_calls hstep with hcalls | ⟨-, -, -, hrecords', hreturns'⟩ |
    ⟨name, rest, f, saved, records, caller, returns, hq, hf, hrec, hret, rfl, rfl⟩
  · left
    obtain ⟨hrecords', hreturns'⟩ := Prod.mk.inj hcalls
    exact ⟨bs, as, hlength, hrecords'.trans hrecords, hreturns'.trans hreturns⟩
  · left
    refine ⟨inner.memory.locals :: bs, l :: as, by rw [List.length_cons, List.length_cons, hlength],
      ?_, ?_⟩
    · rw [hrecords', hrecords, List.cons_append]
    · rw [hreturns', hreturns, List.cons_append]
  · rw [hrec] at hrecords
    rw [hret] at hreturns
    cases bs with
    | nil =>
      right
      obtain rfl := List.eq_nil_of_length_eq_zero hlength.symm
      obtain ⟨rfl, rfl⟩ := List.cons.inj hrecords
      obtain ⟨rfl, rfl⟩ := List.cons.inj hreturns
      exact ⟨name, rest, f, hq, hf, rfl, rfl⟩
    | cons b bs =>
      left
      obtain ⟨a, as, rfl⟩ := List.exists_cons_of_length_eq_add_one hlength.symm
      obtain ⟨-, rfl⟩ := List.cons.inj hrecords
      obtain ⟨-, rfl⟩ := List.cons.inj hreturns
      exact ⟨bs, as, Nat.succ.inj hlength, rfl, rfl⟩

/-- A call stays open as long as more calls are suspended than when it was made. -/
theorem within (h : m.Above k m') (hwithin : p.Within m.records.length i m' l inner) :
    m.Above k inner := by
  induction hwithin with
  | refl => exact h
  | step _ hstep hrest ih =>
    rcases h.step hstep with habove | ⟨-, -, f, -, -, -, rfl⟩
    · exact ih habove
    · exact absurd hrest.lt (Nat.lt_irrefl _)

/-- The step that suspends a caller opens a call. -/
theorem entered (hstep : p.step k m = .next i m') (hlt : m.records.length < m'.records.length) :
    (∃ name rest, p.quad? k = some ("GOSUB" :: name :: rest)) ∧ m.Above k m' := by
  rcases Program.step_calls hstep with hcalls | ⟨name, rest, hq, hrecords, hreturns⟩ |
    ⟨_, _, _, _, records, _, _, -, -, hrecords, -, -, rfl⟩
  · rw [(Prod.mk.inj hcalls).1] at hlt
    exact absurd hlt (Nat.lt_irrefl _)
  · exact ⟨⟨name, rest, hq⟩, [], [], rfl, hrecords, hreturns⟩
  · have hlt : m.records.length < records.length := hlt
    rw [hrecords, List.length_cons] at hlt
    omega

end Machine.Above

namespace Program

/-- A call in any code, from the step that suspends the caller to the first one after which no more
calls are suspended than before. -/
theorem call_frame {p : Program} {k l j : Int} {m inner m' : Machine}
    (h : p.Call k m l inner j m') :
    (∃ name rest, p.quad? k = some ("GOSUB" :: name :: rest)) ∧
    (∀ i₁ m₁ i m₂, p.step k m = .next i₁ m₁ → p.Within m.records.length i₁ m₁ i m₂ → m.Above k m₂) ∧
    ∃ g rest f, p.quad? l = some ("ENDPROC" :: g :: rest) ∧ p.function? g = some f ∧
      j = k + 1 ∧ m'.records = m.records ∧ m'.returns = m.returns ∧
      (∀ t s, f.LeavesIn t s → (m'.memory.locals.get t)[s]? =
        ((inner.memory.locals.get t)[s]?).or (m.memory.locals.get t)[s]?) ∧
      ∀ t s, ¬f.LeavesIn t s → (m'.memory.locals.get t)[s]? = (m.memory.locals.get t)[s]? := by
  obtain ⟨i₁, m₁, hfirst, hwithin, hlast, hlength⟩ := h
  obtain ⟨hgosub, habove⟩ := Machine.Above.entered hfirst hwithin.lt
  refine ⟨hgosub, ?_, ?_⟩
  · intro i₁' m₁' i m₂ hfirst' hwithin'
    exact (Machine.Above.entered hfirst' hwithin'.lt).2.within hwithin'
  · rcases (habove.within hwithin).step hlast with hopen | ⟨g, rest, f, hq, hf, hj, rfl⟩
    · exact absurd hopen.lt (hlength ▸ Nat.lt_irrefl _)
    · refine ⟨g, rest, f, hq, hf, hj, rfl, rfl, ?_, ?_⟩
      · intro t s hs
        exact Routine.restored_of_leavesIn hs
      · intro t s hs
        exact Routine.restored_of_not_leavesIn hs

theorem step_of_run (h : (p.run 1 i m).1 = .unfinished j) :
    p.step i m = .next j (p.run 1 i m).2 := by
  have hsteps := run_eq_unfinished.1 (Prod.ext h rfl : p.run 1 i m =
      (.unfinished j, (p.run 1 i m).2))
  cases hsteps with
  | succ hstep hzero =>
    cases hzero
    exact hstep

/-- The function `f` calls `g`, and its result is the cell in which it finds its argument. -/
theorem call_frame_nested :
    let p : Program := ⟨#[["GOSUB", "f"], ["GOSUB", "g"], ["ENDPROC", "f"], ["ENDPROC", "g"]],
      [⟨some "g", none, 3, [], [], none, none, []⟩,
        ⟨some "f", some (.value .int), 1, [.value .int], [250000], none, some (.num 250000), []⟩]⟩
    let m : Machine := {
      memory := { Memory.empty with
        constants := PerTy.set Bank.empty .int (Cells.put ∅ (.ofInt 200000) (.int 5))
        locals := PerTy.set Bank.empty .int (Cells.put ∅ (.ofInt 250000) (.int 7)) }
      parameters := ["200000"] }
    ∃ inner m', p.Call 0 m 2 inner 1 m' ∧ m'.records = [] ∧ m'.returns = [] ∧
      (m'.memory.locals.get .int)[Slot.ofInt 250000]? = some (.int 5) := by
  intro p m
  let m₁ := (p.run 1 0 m).2
  let m₂ := (p.run 1 1 m₁).2
  let inner := (p.run 1 3 m₂).2
  have hcall : p.Call 0 m 2 inner 1 (p.run 1 2 inner).2 :=
    ⟨1, m₁, step_of_run (by decide +kernel),
      .step (by decide +kernel) (step_of_run (j := 3) (by decide +kernel))
        (.step (by decide +kernel) (step_of_run (by decide +kernel)) (.refl (by decide +kernel))),
      step_of_run (by decide +kernel), by decide +kernel⟩
  obtain ⟨-, -, g, rest, f, hq, hf, -, hrecords, hreturns, hresult, -⟩ := call_frame hcall
  obtain ⟨rfl, rfl⟩ : g = "f" ∧ rest = [] := by
    have hquad : p.quad? 2 = some ["ENDPROC", "f"] := by decide +kernel
    simpa [eq_comm] using hquad.symm.trans hq
  obtain rfl : f = ⟨some "f", some (.value .int), 1, [.value .int], [250000], none,
      some (.num 250000), []⟩ :=
    Option.some.inj (hf.symm.trans (by decide +kernel))
  refine ⟨inner, (p.run 1 2 inner).2, hcall, hrecords, hreturns, ?_⟩
  rw [hresult .int (.ofInt 250000) ⟨by decide, 250000, rfl, Slot.order_ofInt.2 rfl⟩]
  decide +kernel

end Program

end Symphony
