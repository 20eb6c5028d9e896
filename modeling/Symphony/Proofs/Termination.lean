import Symphony.Proofs.Nesting
import Symphony.Proofs.Parts

/-!
# Termination without loops

**Theorem (`Compiled.halts`).** A source without loops, none of whose functions calls itself, ends
on every machine, for every input: if it has `n` quads, it executes fewer than `2 ^ (n + 1)` of
them.

**Jumps.** Only the end of a loop emits a jump that goes back (`RunsBy.forward`).

**Calls.** A function that is called has been ended before the call is compiled, unless it calls
itself, so that its region lies before the call (`Routed.stop_le_of_call`).

**The bound** (`remaining`). Up to the end of a region at `n`, from the index `k` on, fewer than `2
^ (n + 1) - 2 ^ k` quads are executed, calls included: one quad costs `2 ^ k`, and a call from `k`
goes to a region that ends before `k`.
-/

namespace Symphony

variable {e : Event} {j : Nat} {q : Quad}

namespace Event

/-- The function being defined after an event. -/
def scopeAfter (scope : Scope) : Event → Scope
  | .defineFunction _ name => some name
  | .endFunction => none
  | _ => scope

/-- A call of the function being defined. -/
def isSelfCall (scope : Scope) : Event → Bool
  | .endCall name => scope == some name
  | _ => false

/-- Whether a function calls itself in some events, the first of which stands in the given
function. -/
def selfCalling (scope : Scope) : List Event → Bool
  | [] => false
  | e :: es => e.isSelfCall scope || selfCalling (e.scopeAfter scope) es

end Event

/-! ## Jumps go forward -/

namespace Quad

theorem not_jumpsTo_of_word {w : String} {fs : List Field} (h : w ≠ "GOTO" ∧ w ≠ "GOTOF") :
    ¬JumpsTo (.word w :: fs) j := by
  rintro (hq | ⟨x, hq⟩)
  · exact h.1 (Field.word.inj (List.cons.inj hq).1)
  · exact h.2 (Field.word.inj (List.cons.inj hq).1)

theorem Plain.not_jumpsTo (h : q.Plain) (j : Nat) : ¬q.JumpsTo j := by
  obtain ⟨w, fs, rfl, h₁, h₂, -⟩ := h
  exact not_jumpsTo_of_word ⟨h₁, h₂⟩

theorem Waits.not_jumpsTo (h : q.Waits) (j : Nat) : ¬q.JumpsTo j := by
  rcases h with rfl | ⟨x, rfl⟩ <;> simp [JumpsTo]

theorem mem_of_map_num {j : Int} {ts : List Int} (h : [Field.num j] = ts.map .num) : j ∈ ts := by
  cases ts with
  | nil => cases h
  | cons t ts =>
    obtain rfl := Field.num.inj (List.cons.inj h).1
    exact List.mem_cons_self

/-- A jump that waits has only the targets that it gets. -/
theorem Waits.mem_of_jumpsTo (h : q.Waits) {ts : List Int} (hj : JumpsTo (q ++ ts.map .num) j) :
    (j : Int) ∈ ts := by
  rcases h with rfl | ⟨x, rfl⟩ <;> rcases hj with hj | ⟨y, hj⟩
  · exact mem_of_map_num (List.cons.inj hj).2.symm
  · simp at hj
  · simp at hj
  · exact mem_of_map_num (List.cons.inj (List.cons.inj hj).2).2.symm

end Quad

namespace Compiler

variable {c c' : Compiler}

/-- A jump was there before an event, or it goes on after its quads, or it goes back to the
condition of a loop. -/
theorem Acts.jump_cases (ha : Acts e c c') (ht : c.Tidy e) {i : Nat} (hq : c'.quads[i]? = some q)
    (hj : q.JumpsTo j) :
    c.quads[i]? = some q ∨ e.isQuiet ≠ true ∧
      (j = c'.quads.size ∨ e = .closeLoop ∧ j ∈ c.jumps) := by
  by_cases he : e.isQuiet = true
  · obtain ⟨qs, hqs, hplain⟩ := (ha.quiet he).quads
    rcases Nat.lt_or_ge i c.quads.size with hi | hi
    · exact .inl (getElem?_before_append hqs hi hq)
    · exact absurd hj (Quad.Plain.not_jumpsTo (Adds.of_getElem? ⟨qs, hqs, hplain⟩ hi hq) j)
  · obtain ⟨added, ps, hcode, hadded, hps⟩ := ha.code_tidy ht he
    rw [hcode] at hq
    obtain ⟨q₀, hq₀, -⟩ := Option.map_eq_some_iff.1 ((getElem?_completeAll _ _ _).symm.trans hq)
    rcases completeAll_cases hps hq₀ with hsame | ⟨hwaits, n, hgrown⟩ | ⟨-, fs, gs, -, hcopy⟩
    · obtain rfl := Option.some.inj (hsame.symm.trans hq)
      rcases Nat.lt_or_ge i c.quads.size with hi | hi
      · exact .inl (getElem?_before_append Array.toList_appendList hi hq₀)
      · have hadds : Adds (Marks e c) c (c.emitAll added.toList) :=
          ⟨_, Array.toList_appendList, fun q hq => hadded q (Option.mem_toList.1 hq)⟩
        cases hadds.of_getElem? hi hq₀ with
        | goto => exact absurd hj (Quad.Waits.not_jumpsTo (.inl rfl) j)
        | gotof => exact absurd hj (Quad.Waits.not_jumpsTo (.inr ⟨_, rfl⟩) j)
        | @back k hloop hk =>
          have hjk : (j : Int) ∈ [(k : Int)] := Quad.Waits.mem_of_jumpsTo (q := [.word "GOTO"])
              (.inl rfl) hj
          obtain rfl : j = k := by simpa using hjk
          exact .inr ⟨he, .inr ⟨hloop, hk⟩⟩
        | endproc => exact absurd hj (Quad.not_jumpsTo_of_word (by decide))
    · obtain rfl := Option.some.inj (hgrown.symm.trans hq)
      exact .inr ⟨he, .inl (by exact_mod_cast List.eq_of_mem_replicate (hwaits.mem_of_jumpsTo hj))⟩
    · obtain rfl := Option.some.inj (hcopy.symm.trans hq)
      exact absurd hj (Quad.not_jumpsTo_of_word (by decide))

/-- All complete jumps go forward. -/
def Forward (qs : Array Quad) : Prop :=
  ∀ (i j : Nat) (q : Quad), qs[i]? = some q → q.JumpsTo j → i < j

theorem Acts.forward (ha : Acts e c c') (ht : c.Tidy e) (he : e ≠ .closeLoop)
    (h : Forward c.quads) :
    Forward c'.quads := by
  intro i j q hq hj
  rcases ha.jump_cases ht hq hj with hold | ⟨-, rfl | ⟨hloop, -⟩⟩
  · exact h i j q hold hj
  · exact (Array.getElem?_eq_some_iff.1 hq).1
  · exact absurd hloop he

theorem RunsBy.forward {es : List Event} (hr : TidyRuns es c c') (hes : .closeLoop ∉ es)
    (h : Forward c.quads) : Forward c'.quads := by
  induction hr with
  | nil => exact h
  | cons ha _ ih =>
    rw [List.mem_cons, not_or] at hes
    exact ih hes.2 (ha.1.forward ha.2 (Ne.symm hes.1) h)

/-! ## Calls go back -/

theorem Acts.scope_eq (ha : Acts e c c') : c'.scope = e.scopeAfter c.scope := by
  rcases ha.scope with h | ⟨result, name, rfl, -, h⟩ | ⟨rfl, h⟩
  · cases e with
    | defineFunction | endFunction =>
      cases ha
      rfl
    | _ => exact h
  · exact h
  · exact h

theorem RunsBy.not_selfCalling {xs ys : List Event} (hr : TidyRuns xs c c')
    (h : Event.selfCalling c.scope (xs ++ ys) = false) : Event.selfCalling c'.scope ys = false := by
  induction hr with
  | nil => exact h
  | cons ha _ ih =>
    rw [List.cons_append, Event.selfCalling, Bool.or_eq_false_iff, ← ha.1.scope_eq] at h
    exact ih h.2

/-- All functions but the current one have been ended. -/
def Ended (c : Compiler) : Prop :=
  ∀ (name : String) (start : Int), (some name, start) ∈ c.heads → c.scope ≠ some name →
    ∃ k : Nat, c.quads[k]? = some [.word "ENDPROC", .word name]

theorem Acts.ended (ha : Acts e c c' ∧ c.Tidy e) (h : Ended c) : Ended c' := by
  intro name start hmem hscope
  have hkept : (some name, start) ∈ c.heads → c.scope ≠ some name →
      ∃ k : Nat, c'.quads[k]? = some [.word "ENDPROC", .word name] := fun hm hs => by
    obtain ⟨k, hk⟩ := h name start hm hs
    exact ⟨k, RunsBy.kept (runs_singleton.2 ha) (by decide) hk⟩
  rcases ha.1.heads with hheads | ⟨result, new, rfl, hheads⟩
  · rw [hheads] at hmem
    by_cases hcurrent : c.scope = some name
    · rcases ha.1.scope with hsame | ⟨result, new, rfl, -⟩ | ⟨rfl, -⟩
      · exact absurd (hsame.trans hcurrent) hscope
      · exact absurd (ha.2.symm.trans hcurrent) (by simp)
      · cases ha.1 with
        | endFunction =>
          refine ⟨c.quads.size, ?_⟩
          simp [close, emit, updateCurrent, name_current, hcurrent, Scope.text]
    · exact hkept hmem hcurrent
  · -- no function is current before another one is defined
    have hnone : c.scope = none := ha.2
    rw [hheads] at hmem
    rcases List.mem_append.1 hmem with hmem | hmem
    · exact hkept hmem (by simp [hnone])
    · cases List.mem_singleton.1 hmem
      exact absurd ha.1.scope_eq hscope

theorem RunsBy.ended {es : List Event} (hr : TidyRuns es c c') (h : Ended c) : Ended c' := by
  induction hr with
  | nil => exact h
  | cons ha _ ih => exact ih (Acts.ended ha h)

theorem ended_empty : Ended {} := by
  intro name start hmem
  simp [heads, Function.opened] at hmem

end Compiler

open Compiler

variable {rs fs gs : List Region} {main k : Nat} {c : Compiler} {p : Program} {m m' : Machine}

/-- A region is known by its name. -/
theorem Routed.eq_of_name (h : Routed rs main c p) {r s : Region} (hr : r ∈ rs) (hs : s ∈ rs)
    (hname : r.name = s.name) : r = s :=
  List.inj_on_of_nodup_map h.laidOut.names hr hs hname

/-- A function that does not call itself stands before the calls of it. -/
theorem Routed.stop_le_of_call {t : Tree} (h : Routed rs main c p) (hruns : TidyRuns t.events {} c)
    (hself : Event.selfCalling none t.events = false) {r : Region} (hr : r ∈ rs)
    (hq : c.quads[k]? = some [.word "GOSUB", .word r.name]) : r.stop ≤ k := by
  obtain ⟨e, xs, ys, c₁, c₂, hsplit, hxs, he, hys, hlo, hhi⟩ :=
    hruns.born (Nat.zero_le k) (Array.getElem?_eq_some_iff.1 hq).1
  have hbefore : TidyRuns (xs ++ [e]) {} c₂ := runs_append.2 ⟨c₁, hxs, runs_singleton.2 he⟩
  obtain ⟨ss, bs, hplaced⟩ := hbefore.exists_placed
  have hq₂ := hys.quad_before hplaced (by decide) hhi hq
  obtain ⟨w, rfl⟩ := he.1.endCall_of_call hlo hq₂
  obtain ⟨s, f, hs, hf, htext, -⟩ := he.1.copy_of_call hlo hq₂
  -- the function that is entered is the one that is written
  have hnested := t.nested []
  rw [hsplit, List.foldlM_append] at hnested
  obtain ⟨due, hdue, hnested⟩ := Option.bind_eq_some_iff.1 hnested
  rw [List.foldlM_cons] at hnested
  obtain ⟨due', hdue', -⟩ := Option.bind_eq_some_iff.1 hnested
  have hcalled := hxs.plain.called (show _ = [].map Event.callee from rfl) hdue
  have hw : s = some w := by
    rw [Event.nest] at hdue'
    split at hdue'
    case isTrue hhead =>
      rw [hcalled, List.head?_map, hhead] at hs
      exact (Option.some.inj hs).symm
    case isFalse => cases hdue'
  subst hw
  have hname : r.name = w := by simpa [Scope.text] using htext
  -- and it is not the current one
  rw [hsplit] at hself
  have hnot := hxs.not_selfCalling hself
  rw [Event.selfCalling, Bool.or_eq_false_iff] at hnot
  have hscope : c₁.scope ≠ some w := by simpa [Event.isSelfCall] using hnot.1
  obtain ⟨l, hl⟩ := hxs.ended ended_empty w f.start (mem_heads_of_function? hf) hscope
  have hlast := RunsBy.kept (RunsBy.cons he hys) (by decide) hl
  obtain ⟨r', hr', hstop, hr'name⟩ := h.ends_region hlast
  obtain rfl := h.eq_of_name hr hr' (by simpa [hname] using hr'name)
  rw [← hstop]
  exact Nat.le_trans (Array.getElem?_eq_some_iff.1 hl).1 hlo

/-! ## The bound -/

/-- Bounds how many quads are executed from an index up to the end of the innermost call, with the
calls that they make. -/
def remaining (main : Nat) (c : Compiler) (fs : List Region) (k : Nat) : Nat :=
  2 ^ ((zone main c fs).2 + 1) - 2 ^ k

/-- Bounds how many quads are executed up to the end of the run. -/
def allRemaining (main : Nat) (c : Compiler) : List Region → Nat → List Int → Nat
  | r :: fs, k, a :: as => remaining main c (r :: fs) k + allRemaining main c fs (a.toNat + 1) as
  | fs, k, _ => remaining main c fs k

theorem allRemaining_start : allRemaining main c [] 0 [] = 2 ^ (c.quads.size + 1) - 1 := rfl

theorem remaining_succ (hk : k ≤ (zone main c fs).2) :
    remaining main c fs k = remaining main c fs (k + 1) + 2 ^ k := by
  have hle : 2 ^ k ≤ 2 ^ (zone main c fs).2 := Nat.pow_le_pow_right (by decide) hk
  have hpos := Nat.two_pow_pos k
  rw [remaining, remaining, Nat.pow_succ, Nat.pow_succ]
  omega

theorem allRemaining_succ (hk : k ≤ (zone main c fs).2) (as : List Int) :
    allRemaining main c fs k as = allRemaining main c fs (k + 1) as + 2 ^ k := by
  have h : remaining main c fs k = _ := remaining_succ hk
  cases fs with
  | nil => exact h
  | cons r fs =>
    cases as with
    | nil => exact h
    | cons a as =>
      rw [allRemaining, allRemaining, h]
      omega

theorem allRemaining_lt (hkj : k < j) (hj : j ≤ (zone main c fs).2) (as : List Int) :
    allRemaining main c fs j as < allRemaining main c fs k as := by
  induction j with
  | zero => omega
  | succ j ih =>
    have hpos := Nat.two_pow_pos j
    have hsucc : allRemaining main c fs j as = _ := allRemaining_succ (by omega) as
    rcases Nat.lt_or_eq_of_le (Nat.le_of_lt_succ hkj) with hlt | rfl
    · have := ih hlt (by omega)
      omega
    · omega

/-- Every step makes the bound smaller. -/
theorem Moves.allRemaining_lt (hr : Routed rs main c p) (h : Stands rs main c fs k m)
    (hforward : Forward c.quads)
    (hcalls : ∀ (k : Nat), ∀ r ∈ rs, c.quads[k]? = some [.word "GOSUB", .word r.name] → r.stop ≤ k)
    (hmove : Moves rs main c p fs k m gs j m') :
    allRemaining main c gs j m'.returns < allRemaining main c fs k m.returns := by
  cases hmove with
  | stay hlo hhi hsame hgoes =>
    rw [show m'.returns = m.returns from (Prod.mk.inj hsame).2]
    refine Symphony.allRemaining_lt ?_ hhi _
    rcases hgoes with rfl | ⟨q, hq, hjump⟩
    · exact Nat.lt_succ_self k
    · exact hforward k j q hq hjump
  | @call r _ _ hmem hq hlo hhi _ hm' =>
    rw [show m'.returns = (k : Int) :: m.returns by rw [hm'], allRemaining, Int.toNat_natCast,
      allRemaining_succ (Nat.le_of_lt hhi)]
    have hstop : r.stop - 1 + 1 ≤ k := by
      have := (hr.laidOut.laid r hmem).lt
      have := hcalls k r hmem hq
      omega
    have hpow : 2 ^ (r.stop - 1 + 1) ≤ 2 ^ k := Nat.pow_le_pow_right (by decide) hstop
    have hpos := Nat.two_pow_pos r.start
    have hpos' := Nat.two_pow_pos k
    rw [remaining, show (zone main c (r :: fs)).2 = r.stop - 1 from rfl]
    omega
  | @close r gs f saved records j returns hfs _ _ _ hreturns =>
    subst hfs
    have hin : k ≤ (zone main c (r :: gs)).2 := (h.inside.resolve_left (by simp)).2
    rw [hreturns, allRemaining, Int.toNat_natCast, remaining_succ hin]
    have hpos := Nat.two_pow_pos k
    show allRemaining main c gs (j + 1) returns < _
    omega

/-- A run is not longer than the bound. -/
theorem Stands.length_le (hr : Routed rs main c p) (h : Stands rs main c fs k m)
    (hforward : Forward c.quads)
    (hcalls : ∀ (k : Nat), ∀ r ∈ rs, c.quads[k]? = some [.word "GOSUB", .word r.name] → r.stop ≤ k)
    {n : Nat} {l : Int} (hsteps : p.Steps n k m l m') : n ≤ allRemaining main c fs k m.returns := by
  induction n generalizing fs k m with
  | zero => exact Nat.zero_le _
  | succ n ih =>
    cases hsteps with
    | succ hstep hrest =>
      obtain ⟨gs, j, rfl, hmove⟩ := h.moves hr hstep
      have hlt := hmove.allRemaining_lt hr h hforward hcalls
      exact Nat.lt_of_le_of_lt (ih (h.move hr hmove) hrest) hlt

/-- Without loops and self calls every run ends, on every machine on which no call is open. -/
theorem Compiled.halts {line : Nat} {source : String}
    (h : (Compiled.ofSource line source).rejection = none)
    (hloops : Event.closeLoop ∉ (Trace.ofSource line source).events)
    (hself : Event.selfCalling none (Trace.ofSource line source).events = false) (m : Machine)
    (hrecords : m.records = []) (hreturns : m.returns = []) (constants : Bank)
    (inputs : Array String) (limit : Nat)
    (hlimit : 2 ^ ((Compiled.ofSource line source).state.quads.size + 1) ≤ limit) :
    let result := m.play (Compiled.ofSource line source).program constants inputs limit
    result.1 = .finished ∨ ∃ f, result.1 = .fault f := by
  obtain ⟨t, ht, hruns⟩ := Compiled.exists_runs h
  obtain ⟨rs, main, hr, -⟩ := Compiled.exists_routed h
  have htidy := (t.laidOut hruns).1
  rw [← ht] at hloops hself
  have hforward := htidy.forward hloops (by simp [Forward])
  have hstands : Stands rs main (Compiled.ofSource line source).state [] 0
      (m.prepare constants inputs) :=
    Stands.start hrecords hreturns
  cases hplay : (m.play (Compiled.ofSource line source).program constants inputs limit).1 with
  | finished => exact .inl hplay
  | fault f => exact .inr ⟨f, hplay⟩
  | unfinished i =>
    have hsteps := Program.run_eq_unfinished.1 (Prod.ext hplay rfl)
    have hle := hstands.length_le hr hforward (fun k r hmem hq =>
        hr.stop_le_of_call htidy hself hmem hq)
      hsteps
    rw [show (m.prepare constants inputs).returns = [] from hreturns, allRemaining_start] at hle
    have hpos := Nat.two_pow_pos ((Compiled.ofSource line source).state.quads.size + 1)
    omega

theorem Compiled.halts_calls :
    let source :=
      "program p; fun void f() { } fun void g() { f(); } if (true) { g(); } else { f(); }"
    (Compiled.ofSource 1 source).rejection = none ∧
      ∀ m : Machine, m.records = [] → m.returns = [] → ∀ constants inputs,
        ∃ limit, (m.play (Compiled.ofSource 1 source).program constants inputs limit).1 =
          .finished ∨
          ∃ f, (m.play (Compiled.ofSource 1 source).program constants inputs limit).1 =
            .fault f := by
  intro source
  have haccepted : (Compiled.ofSource 1 source).rejection = none := by decide +kernel
  have hloops : Event.closeLoop ∉ (Trace.ofSource 1 source).events := by decide +kernel
  have hself : Event.selfCalling none (Trace.ofSource 1 source).events = false := by decide +kernel
  exact ⟨haccepted, fun m hrecords hreturns constants inputs =>
    ⟨_, Compiled.halts haccepted hloops hself m hrecords hreturns constants inputs _
      (Nat.le_refl _)⟩⟩

end Symphony
