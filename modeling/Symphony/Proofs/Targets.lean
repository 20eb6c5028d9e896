import Symphony.Proofs.Parts
import Symphony.Proofs.Stacks

/-!
# Targets of jumps

A jump is emitted without its target where that is not known yet, and the compiler keeps its index
until it is: `jumps` has those of conditionals and loops, `breaks` those of breaks.

**Theorem (`Compiled.jumps_complete`).** In an accepted source every jump has got exactly one
target. It lies in the part of the program in which the jump stands, where the main part includes
the first quad and the index after the last one. At the end of each function and of the program no
jump waits for its target, and no loop is open.

That jumps have targets is known from the layout (`LaidOut`). That none waits is counted: events add
as many jumps as they take away (`RunsBy.length_jumps`), as no branch follows a last branch.
-/

namespace Symphony

open Event Region

variable {fs : List Field} {p : Tree}

theorem FunctionTree.extrasOf_append (fs gs : List FunctionTree) :
    extrasOf (fs ++ gs) = extrasOf fs + extrasOf gs := by
  induction fs with
  | nil => simp [extrasOf]
  | cons f fs ih => rw [List.cons_append, extrasOf, ih, extrasOf, Nat.add_assoc]

namespace Compiler

variable {rs : List Region} {main i t : Nat} {c c' : Compiler}

/-- Nothing waits to be completed or closed. -/
structure IsSettled (c : Compiler) : Prop where
  jumps : c.jumps = []
  breaks : c.breaks = []
  openLoops : c.openLoops = 0

/-- Two indices are in the same function or in the main part. The first quad and the index after the
last one belong to the main part. -/
inductive SamePart (rs : List Region) (main size : Nat) (i t : Nat) : Prop
  | function {r : Region} :
      r ∈ rs → r.start ≤ i → i < r.stop → r.start ≤ t → t < r.stop → SamePart rs main size i t
  | main : i = 0 ∨ main ≤ i → main ≤ t → t ≤ size → SamePart rs main size i t

/-! ## Jumps have targets -/

/-- A jump that stays between two indices has one target there, and one condition if it has any. -/
theorem fields_of_staysWithin {lo hi : Nat} {w : String}
    (h : Quad.StaysWithin lo hi (.word w :: fs)) (hw : w = "GOTO" ∨ w = "GOTOF") :
    ∃ t : Nat, lo ≤ t ∧ t ≤ hi ∧ (w = "GOTO" → fs = [.num t]) ∧
      (w = "GOTOF" → ∃ condition, fs = [condition, .num t]) := by
  rcases h with ⟨_, _, hq, hne⟩ | h
  · cases hq
    rcases hw with rfl | rfl <;> simp at hne
  · cases h with
    | goto hlo hhi => exact ⟨_, hlo, hhi, fun _ => rfl, fun h => absurd h (by decide)⟩
    | gotof hlo hhi => exact ⟨_, hlo, hhi, fun h => absurd h (by decide), fun _ => ⟨_, rfl⟩⟩

/-- Every jump has one target, in the part where it stands. -/
theorem LaidOut.target (h : LaidOut rs main c) {w : String}
    (hq : c.quads[i]? = some (.word w :: fs)) (hw : w = "GOTO" ∨ w = "GOTOF") :
    ∃ t : Nat, t ≤ c.quads.size ∧ SamePart rs main c.quads.size i t ∧ (w = "GOTO" → fs = [.num t]) ∧
      (w = "GOTOF" → ∃ condition, fs = [condition, .num t]) := by
  by_cases hmain : main ≤ i
  · obtain ⟨t, hlo, hhi, hfs⟩ := fields_of_staysWithin (h.stays i _ hmain hq) hw
    exact ⟨t, hhi, .main (.inr hmain) hlo hhi, hfs⟩
  · rcases Nat.eq_zero_or_pos i with rfl | hi
    · -- the first quad goes to the main part
      cases h.first.symm.trans hq
      exact ⟨main, h.main_le, .main (.inl rfl) (Nat.le_refl _) h.main_le, fun _ => rfl,
        fun h => absurd h (by decide)⟩
    · obtain ⟨r, hr, hlo, hhi⟩ := h.contiguous.exists_mem hi (Nat.lt_of_not_le hmain)
      have hlaid := h.laid r hr
      have hlast : i + 1 < r.stop := by
        -- the last quad of a function ends it
        refine Nat.lt_of_le_of_ne hhi fun heq => ?_
        have hends := hlaid.ends
        rw [← heq, Nat.add_sub_cancel, hq] at hends
        cases hends
        rcases hw with hw | hw <;> simp at hw
      obtain ⟨t, htlo, hthi, hfs⟩ := fields_of_staysWithin (hlaid.stays i _ hlo hlast hq) hw
      have hstop := hlaid.stop_le
      exact ⟨t, by omega, .function hr hlo hhi htlo (by omega), hfs⟩

/-- The condition of a jump is a value that is stored somewhere. -/
theorem Placed.condition {N : Scope → Prop} {ss : List Reservation} {bs : List Int}
    (h : Placed N ss bs c) {condition : Field}
    (hq : c.quads[i]? = some (.word "GOTOF" :: condition :: fs)) :
    ∃ a, condition = .num a ∨ condition = .pointer a := by
  obtain ⟨_, ⟨ty, hgiven⟩, _, -, heq⟩ := ((h.quads i _ hq).shape (by decide)).tells.gotof rfl
  obtain ⟨rfl, -⟩ := List.cons.inj heq
  cases hgiven with
  | num => exact ⟨_, .inl rfl⟩
  | pointer => exact ⟨_, .inr rfl⟩

/-! ## No jump waits at the end -/

/-- After some functions nothing waits. -/
theorem Between.isSettled {fs : List FunctionTree}
    (hr : Runs (p.opening ++ fs.flatMap FunctionTree.events) {} c)
    (hx : FunctionTree.extrasOf fs = 0) : c.IsSettled := by
  obtain ⟨c₁, h₁, h₂⟩ := runs_append.1 hr
  obtain ⟨-, rs, hrs, -⟩ := (between_of_globals h₁).functions h₂ hx
  refine ⟨?_, hrs.breaks, hrs.openLoops⟩
  have hlength : (c.jumps.length : Int) = 0 + balanceOf
      (p.opening ++ fs.flatMap FunctionTree.events) :=
    hr.length_jumps
  have hbalance := FunctionTree.balance_add_extras fs
  simp only [Tree.opening, balanceOf_append, balanceOf_sizesOf, balanceOf_cons, balanceOf_nil,
    Event.balance] at hlength
  exact List.length_eq_zero_iff.1 (by omega)

/-- After the main part nothing waits. -/
theorem Between.settled_main (h : Between rs c) (hjumps : c.jumps = []) (hr : Runs p.closing c c')
    (hx : p.main.extras = 0) : c'.IsSettled := by
  obtain ⟨c₁, h₁, hr⟩ := runs_cons.1 hr
  obtain ⟨c₂, h₂, h₃⟩ := runs_append.1 hr
  cases h₁ with
  | enterMain =>
    have ho := open_here (c := c.complete 0 [.num c.quads.size])
      (fun q hq => (h.selfCalls q hq).modify _ _) h.breaks h.openLoops
    have hproceeds := p.main.proceeds h₂ hx ho
    have hloops := hproceeds.openLoops.trans h.openLoops
    cases runs_singleton.1 h₃ with
    | finish => exact ⟨hproceeds.jumps.trans hjumps, hproceeds.isOpen.breaks hloops, hloops⟩

end Compiler

open Compiler

namespace Tree

variable {c d : Compiler}

theorem isSettled (h : Runs p.events {} c) : c.IsSettled := by
  obtain ⟨hx₁, hx₂⟩ : FunctionTree.extrasOf p.functions = 0 ∧ p.main.extras = 0 := by
    simpa [Tree.extras] using p.extras_eq_zero h
  rw [p.events_eq, ← List.append_assoc] at h
  obtain ⟨c₁, h₁, h₂⟩ := runs_append.1 h
  obtain ⟨c₀, hglobals, hfunctions⟩ := runs_append.1 h₁
  obtain ⟨-, rs, hrs, -⟩ := (between_of_globals hglobals).functions hfunctions hx₁
  exact hrs.settled_main (Between.isSettled h₁ hx₁).jumps h₂ hx₂

/-- Where a function ends nothing waits. -/
theorem isSettled_of_endFunction {before later : List Event} (h : Runs p.events {} c)
    (hsplit : p.events = before ++ .endFunction :: later) (hd : Runs before {} d) :
    d.IsSettled := by
  obtain ⟨xs, f, ys, hf, rfl⟩ := Tree.exists_function_of_split hsplit
  have hx : FunctionTree.extrasOf (xs ++ [f]) = 0 := by
    have hall := p.extras_eq_zero h
    rw [Tree.extras, hf, FunctionTree.extrasOf_append, FunctionTree.extrasOf] at hall
    rw [FunctionTree.extrasOf_append, FunctionTree.extrasOf, FunctionTree.extrasOf]
    omega
  rw [hsplit] at h
  obtain ⟨d', hd', hlater⟩ := runs_append.1 h
  obtain rfl := RunsBy.unique hd hd'
  obtain ⟨c₁, hend, -⟩ := runs_cons.1 hlater
  have hruns : Runs (p.opening ++ (xs ++ [f]).flatMap FunctionTree.events) {} c₁ := by
    simpa [FunctionTree.events_eq] using runs_append.2 ⟨d, hd, runs_singleton.2 hend⟩
  obtain ⟨hjumps, hbreaks, hloops⟩ := Between.isSettled hruns hx
  cases hend with
  | endFunction => exact ⟨hjumps, hbreaks, hloops⟩

end Tree

namespace Compiled

/-- Whether steps are rejected does not depend on the line after them. -/
theorem rejection_ofSteps_last (ending : Ending) (last last' : Nat) (steps : List Step)
    (c : Compiler) :
    (ofSteps ending last steps c).rejection = (ofSteps ending last' steps c).rejection := by
  induction steps generalizing c with
  | nil => rfl
  | cons s steps ih =>
    simp only [ofSteps]
    split
    · exact ih _
    · rfl

/-- The compiler has taken the events of every part of an accepted source from its start. -/
theorem runs_before {line : Nat} {source : String} (h : (ofSource line source).rejection = none)
    {before after : List Step} (hsteps : (Trace.ofSource line source).steps = before ++ after)
    (last : Nat) :
    Compiler.Runs (before.map Step.event) {} (ofSteps .accepted last before {}).state := by
  have haccepted := (runs_ofSteps h).1
  rw [ofSource, ofTrace, haccepted, hsteps, rejection_ofSteps_last _ _ last] at h
  exact (runs_ofSteps (rejection_ofSteps_append h)).2

/-- **Every jump is completed**, once and with a target in its own part of the program. -/
theorem jumps_complete {line : Nat} {source : String}
    (h : (ofSource line source).rejection = none) :
    let c := (ofSource line source).state
    (∃ rs main, Contiguous 1 main rs ∧ main ≤ c.quads.size ∧ c.heads = headsOf rs ∧
      (∀ r ∈ rs, c.quads[r.stop - 1]? = some [.word "ENDPROC", .word r.name]) ∧
      (∀ i fs, c.quads[i]? = some (.word "GOTO" :: fs) → ∃ t : Nat, fs = [.num t] ∧
        t ≤ c.quads.size ∧ SamePart rs main c.quads.size i t) ∧
      ∀ i fs, c.quads[i]? = some (.word "GOTOF" :: fs) → ∃ condition,
        ∃ t : Nat, fs = [condition, .num t] ∧ (∃ a, condition = .num a ∨ condition = .pointer a) ∧
        t ≤ c.quads.size ∧ SamePart rs main c.quads.size i t) ∧
    c.IsSettled ∧
    ∀ before s after last, (Trace.ofSource line source).steps = before ++ s :: after →
      s.event = .endFunction → (ofSteps .accepted last before {}).state.IsSettled := by
  obtain ⟨p, hp, hruns⟩ := exists_runs h
  obtain ⟨htidy, rs, main, hlaid, -⟩ := p.laidOut hruns
  refine ⟨⟨rs, main, hlaid.contiguous, hlaid.main_le, hlaid.heads,
    fun r hr => (hlaid.laid r hr).ends, fun i fs hq => ?_,
    fun i fs hq => ?_⟩, Tree.isSettled hruns, ?_⟩
  · obtain ⟨t, hsize, hpart, hfs, -⟩ := hlaid.target hq (.inl rfl)
    exact ⟨t, hfs rfl, hsize, hpart⟩
  · obtain ⟨t, hsize, hpart, -, hfs⟩ := hlaid.target hq (.inr rfl)
    obtain ⟨condition, rfl⟩ := hfs rfl
    obtain ⟨_, _, hplaced⟩ := htidy.exists_placed
    exact ⟨condition, t, rfl, hplaced.condition hq, hsize, hpart⟩
  · intro before s after last hsteps hs
    have hsplit : p.events = before.map Step.event ++ .endFunction :: after.map Step.event := by
      rw [hp, Trace.events, hsteps, List.map_append, List.map_cons, hs]
    exact Tree.isSettled_of_endFunction hruns hsplit (runs_before h hsteps last)

/-- A loop that is left by a break, in a function, and a main part that ends with a conditional: its
jump goes to the index after the last quad. -/
theorem jumps_complete_break :
    let source := "program p; fun void f() { while (true) { break; } } if (true) { f(); }"
    (ofSource 1 source).rejection = none ∧ (ofSource 1 source).state.IsSettled ∧
      ∃ rs main, SamePart rs main (ofSource 1 source).state.quads.size 5 7 := by
  intro source
  have haccepted : (ofSource 1 source).rejection = none := by
    decide +kernel
  have hjump : (ofSource 1 source).state.quads[5]? =
      some [.word "GOTOF", .num 230000, .num 7] := by
    decide +kernel
  obtain ⟨⟨rs, main, _, _, _, _, _, hgotof⟩, hsettled, _⟩ := jumps_complete haccepted
  obtain ⟨condition, t, hfields, _, _, hpart⟩ := hgotof 5 _ hjump
  have ht := Field.num.inj (List.cons.inj (List.cons.inj hfields).2).1
  obtain rfl : 7 = t := by exact_mod_cast ht
  exact ⟨haccepted, hsettled, rs, main, hpart⟩

end Compiled

end Symphony
