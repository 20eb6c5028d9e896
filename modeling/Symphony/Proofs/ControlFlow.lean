import Mathlib
import Symphony.Proofs.Flow
import Symphony.Proofs.Regions
import Symphony.Proofs.Words
import Symphony.Session

/-!
# Control flow

A run of an accepted source never leaves the regions of its functions but by calls and returns.

**Theorem (`Compiled.control_flow`).** The quads are laid out in regions. At every point of every
run there is a stack of open calls: one saved record and one stored index for each of them, the run
is in the region of the innermost, and each stored index is that of the quad that made the call, in
the region of the caller.

The stack of open calls is the invariant (`Stands`); a step enters a function, leaves it, or stays
in its region (`Stands.step`).
-/

namespace Symphony

variable {hi k lo : Nat} {q : Quad} {c : Compiler} {j : Int} {p : Program} {rs : List Region}
  {xs : List Field}

namespace Compiled

/-- The program that a source is compiled to. -/
def program (c : Compiled) : Program :=
  .ofText (Quad.program c.state.quads) c.state.functions

/-- Plays a compiled source on a new machine, with a supply of random numbers and some input. -/
def play (c : Compiled) (randoms : Nat → Value) (inputs : Array String) (limit : Nat) :
    Outcome × Machine :=
  Machine.play { randoms := randoms } c.program (.ofPools c.state.constants) inputs limit

end Compiled

/-- A new session plays what it has compiled on a new machine. -/
theorem Session.playCompiled_compile (randoms : Nat → Value) (source : String)
    (inputs : Array String) (limit : Nat) :
    let s := (({} : Session).supply randoms).compile source
    (s.2.playCompiled inputs limit).1 =
        ((Compiled.ofSource 1 source).play randoms inputs limit).1.failure? ∧
      (s.2.playCompiled inputs limit).2.machine =
        ((Compiled.ofSource 1 source).play randoms inputs limit).2 := by
  rw [Session.compile, Session.supply]
  generalize Compiled.ofSource _ source = c
  exact ⟨rfl, rfl⟩

/-! ## Programs and their quads -/

/-- A program that was written from the quads of a compiler. -/
structure Program.IsOf (p : Program) (c : Compiler) : Prop where
  code : p.code = c.quads.map (·.map Field.text)
  functions : p.functions = c.functions

namespace Program.IsOf

theorem quad? (h : p.IsOf c) (k : Nat) : p.quad? k = (c.quads[k]?).map (·.map Field.text) := by
  rw [Program.quad?, if_pos (Int.natCast_nonneg k), Int.toNat_natCast, h.code, Array.getElem?_map]

theorem quad?_eq_some (h : p.IsOf c) (hq : c.quads[k]? = some q) :
    p.quad? k = some (q.map Field.text) := by
  rw [h.quad?, hq]
  rfl

theorem step_next (h : p.IsOf c) {m m' : Machine} (hstep : p.step k m = .next j m') :
    ∃ q, c.quads[k]? = some q := by
  obtain ⟨name, fields, -, hq, -⟩ := Program.step_next hstep
  rw [h.quad?] at hq
  obtain ⟨q, hq, -⟩ := Option.map_eq_some_iff.1 hq
  exact ⟨q, hq⟩

end Program.IsOf

/-- A jump goes where it was written to go. -/
theorem Text.eq_of_readInteger?_toString {n : Int} (h : readInteger? (toString n) = some j) :
    j = n := by
  rw [readInteger?_toString] at h
  split at h
  · exact (Option.some.inj h).symm
  · cases h

/-! ## The stack of open calls -/

section

variable {fs : List Region} {main : Nat} {m m' : Machine}

/-- Where a run is while calls are open, innermost first: from the first quad of a region up to its
last. -/
def zone (main : Nat) (c : Compiler) : List Region → Nat × Nat
  | [] => (main, c.quads.size)
  | r :: _ => (r.start, r.stop - 1)

/-- The stored indices are those of the calls. -/
def Returned (main : Nat) (c : Compiler) : List Region → List Int → Prop
  | [], [] => True
  | r :: fs, a :: as =>
    (∃ k : Nat, a = k ∧ c.quads[k]? = some [.word "GOSUB", .word r.name] ∧
      (zone main c fs).1 ≤ k ∧ k < (zone main c fs).2) ∧ Returned main c fs as
  | _, _ => False

theorem Returned.length {as : List Int} (h : Returned main c fs as) : as.length = fs.length := by
  fun_induction Returned main c fs as with
  | case1 => rfl
  | case2 r fs a as ih => simp [ih h.2]
  | case3 => exact h.elim

/-- A run stands at an index with some open calls. -/
structure Stands (rs : List Region) (main : Nat) (c : Compiler) (fs : List Region) (k : Nat)
    (m : Machine) : Prop where
  mem : ∀ r ∈ fs, r ∈ rs
  inside : (fs = [] ∧ k = 0) ∨ ((zone main c fs).1 ≤ k ∧ k ≤ (zone main c fs).2)
  records : m.records.length = fs.length
  returns : Returned main c fs m.returns

/-- A call names one function. -/
theorem Quad.At.of_gosub {N : Scope → Prop} {ss : List Reservation} {bs : List Int}
    {qs : Array Quad} (h : Quad.At N ss bs qs k (.word "GOSUB" :: xs)) :
    ∃ name, N (some name) ∧ ((k + 1 : Nat) : Int) ∈ bs ∧ xs = [.word name] := by
  generalize hq : Field.word "GOSUB" :: xs = q at h
  cases h with
  | plain h =>
    rw [← hq] at h
    exact absurd rfl h.tells.ne_gosub
  | gosub hs hk => exact ⟨_, hs, hk, (List.cons.inj hq).2⟩
  | access => simp at hq

theorem Quad.StaysWithin.exists_cons (h : q.StaysWithin lo hi) : ∃ f fs, q = f :: fs := by
  rcases h with ⟨w, fs, rfl, -⟩ | h
  · exact ⟨_, _, rfl⟩
  · cases h <;> exact ⟨_, _, rfl⟩

theorem Quad.StaysWithin.ne_endproc {fs : List Field} :
    ¬Quad.StaysWithin lo hi (.word "ENDPROC" :: fs) := by
  rintro (⟨w, ys, hys, hw⟩ | h)
  · cases hys
    exact absurd rfl hw.2.2
  · generalize hq : Field.word "ENDPROC" :: fs = q at h
    cases h <;> simp at hq

/-- The quads of a program in its regions. -/
structure Routed (rs : List Region) (main : Nat) (c : Compiler) (p : Program) : Prop where
  laidOut : c.LaidOut rs main
  program : p.IsOf c
  calls : ∀ (k : Nat) (fs : List Field), c.quads[k]? = some (.word "GOSUB" :: fs) →
    ∃ name, fs = [.word name]

namespace Routed

/-- A function that is found is that of a region. -/
theorem region_of_function (h : Routed rs main c p) {name : String} {f : Function}
    (hf : p.function? name = some f) : ∃ r ∈ rs, r.name = name ∧ (r.start : Int) = f.start := by
  rw [Program.function?, h.program.functions] at hf
  have hname : f.name = some name := by simpa using List.find?_some hf
  have hhead : (f.name, f.start) ∈ c.heads :=
    List.mem_map.2 ⟨f, List.mem_of_find?_eq_some hf, rfl⟩
  rw [h.laidOut.heads, Compiler.headsOf, hname] at hhead
  simpa using hhead

/-- Quads in a zone stay in it. -/
theorem staysWithin (h : Routed rs main c p) (hfs : ∀ r ∈ fs, r ∈ rs) (hlo : (zone main c fs).1 ≤ k)
    (hhi : k < (zone main c fs).2) (hq : c.quads[k]? = some q) :
    q.StaysWithin (zone main c fs).1 (zone main c fs).2 := by
  cases fs with
  | nil => exact h.laidOut.stays k q hlo hq
  | cons r fs =>
    have hr := h.laidOut.laid r (hfs r List.mem_cons_self)
    exact hr.stays k q hlo (Nat.add_lt_of_lt_sub hhi) hq

/-- The quad at the end of a zone, if there is one, ends the function. -/
theorem quad_end (h : Routed rs main c p) (hfs : ∀ r ∈ fs, r ∈ rs)
    (hq : c.quads[(zone main c fs).2]? = some q) :
    ∃ r gs, fs = r :: gs ∧ q = [.word "ENDPROC", .word r.name] := by
  cases fs with
  | nil => simp [zone] at hq
  | cons r fs =>
    have hends := (h.laidOut.laid r (hfs r List.mem_cons_self)).ends
    exact ⟨r, fs, rfl, Option.some.inj (hq.symm.trans hends)⟩

end Routed

/-- A complete jump and its target. -/
def Quad.JumpsTo (q : Quad) (j : Nat) : Prop :=
  q = [.word "GOTO", .num j] ∨ ∃ x, q = [.word "GOTOF", x, .num j]

/-- A quad that neither opens nor closes a call goes on to the next one or to its target. -/
def Compiler.GoesOn (c : Compiler) (k j : Nat) : Prop :=
  j = k + 1 ∨ ∃ q, c.quads[k]? = some q ∧ q.JumpsTo j

/-- What a step does to the open calls: it goes on in the same function, opens a call or closes the
innermost one. -/
inductive Moves (rs : List Region) (main : Nat) (c : Compiler) (p : Program)
    (fs : List Region) (k : Nat) (m : Machine) : List Region → Nat → Machine → Prop
  | stay {j : Nat} {m' : Machine} :
      (zone main c fs).1 ≤ j → j ≤ (zone main c fs).2 → m'.calls = m.calls → c.GoesOn k j →
      Moves rs main c p fs k m fs j m'
  | call {r : Region} {f : Function} {m' : Machine} :
      r ∈ rs → c.quads[k]? = some [.word "GOSUB", .word r.name] → (zone main c fs).1 ≤ k →
      k < (zone main c fs).2 → p.function? r.name = some f →
      m' = { m with
        memory := { m.memory with locals := m'.memory.locals }
        records := m.memory.locals :: m.records
        returns := k :: m.returns
        parameters := [] } →
      Moves rs main c p fs k m (r :: fs) r.start m'
  | close {r : Region} {gs : List Region} {f : Function} {saved : Bank}
      {records : List Bank} {j : Nat}
      {returns : List Int} :
      fs = r :: gs → c.quads[k]? = some [.word "ENDPROC", .word r.name] →
        p.function? r.name = some f →
      m.records = saved :: records → m.returns = (j : Int) :: returns →
      Moves rs main c p fs k m gs (j + 1) { m with
        memory := { m.memory with locals := Routine.restored f m.memory.locals saved }
        records
        returns }

namespace Stands

/-- Every step is one of the moves. -/
theorem moves (hr : Routed rs main c p) (h : Stands rs main c fs k m) {i : Int}
    (hstep : p.step k m = .next i m') :
    ∃ gs j, i = (j : Nat) ∧ Moves rs main c p fs k m gs j m' := by
  obtain ⟨q, hq⟩ := hr.program.step_next hstep
  have hquad := hr.program.quad?_eq_some hq
  rcases h.inside with ⟨rfl, rfl⟩ | ⟨hlo, hhi⟩
  · -- the first quad goes to the main part
    obtain rfl := Option.some.inj (hr.laidOut.first.symm.trans hq)
    obtain ⟨ht, rfl⟩ := Program.step_goto hquad hstep
    exact ⟨[], main, Text.eq_of_readInteger?_toString ht,
      .stay (Nat.le_refl _) hr.laidOut.main_le rfl
      (.inr ⟨_, hq, .inl rfl⟩)⟩
  · rcases Nat.lt_or_eq_of_le hhi with hlt | rfl
    · -- inside of a region: a call, a step to the next quad or a jump
      rcases hr.staysWithin h.mem hlo hlt hq with ⟨w, xs, rfl, hw⟩ | hjump
      · by_cases hcall : w = "GOSUB"
        · subst hcall
          obtain ⟨name, rfl⟩ := hr.calls k xs hq
          obtain ⟨f, hf, rfl, hm'⟩ := Program.step_gosub hquad hstep
          obtain ⟨r, hmem, rfl, hstart⟩ := hr.region_of_function hf
          exact ⟨r :: fs, r.start, hstart.symm, .call hmem hq hlo hlt hf hm'⟩
        · obtain ⟨rfl, hcalls⟩ := Program.step_other hquad ⟨hw.1, hw.2.1, hcall, hw.2.2⟩ hstep
          exact ⟨fs, k + 1, rfl, .stay (Nat.le_succ_of_le hlo) hlt hcalls (.inl rfl)⟩
      · cases hjump with
        | goto h₁ h₂ =>
          obtain ⟨ht, rfl⟩ := Program.step_goto hquad hstep
          exact ⟨fs, _, Text.eq_of_readInteger?_toString ht,
            .stay h₁ h₂ rfl (.inr ⟨_, hq, .inl rfl⟩)⟩
        | gotof h₁ h₂ =>
          obtain ⟨rfl, v, -, ⟨-, rfl⟩ | ⟨-, ht⟩⟩ := Program.step_gotof hquad hstep
          · exact ⟨fs, k + 1, rfl, .stay (Nat.le_succ_of_le hlo) hlt rfl (.inl rfl)⟩
          · exact ⟨fs, _, Text.eq_of_readInteger?_toString ht,
              .stay h₁ h₂ rfl (.inr ⟨_, hq, .inr ⟨_, rfl⟩⟩)⟩
    · -- only the end of a function has a quad there
      obtain ⟨r, gs, rfl, rfl⟩ := hr.quad_end h.mem hq
      obtain ⟨f, saved, records, a, as, hf, hrecords, hreturns, rfl, rfl⟩ :=
        Program.step_endproc hquad hstep
      have hreturned := h.returns
      rw [hreturns] at hreturned
      obtain ⟨⟨j, rfl, -⟩, -⟩ := hreturned
      exact ⟨gs, j + 1, rfl, .close rfl hq hf hrecords hreturns⟩

/-- Every move keeps the discipline of calls. -/
theorem move {gs : List Region} {j : Nat} (hr : Routed rs main c p) (h : Stands rs main c fs k m)
    (hmove : Moves rs main c p fs k m gs j m') : Stands rs main c gs j m' := by
  cases hmove with
  | stay hlo hhi hcalls =>
    refine ⟨h.mem, .inr ⟨hlo, hhi⟩, ?_, ?_⟩
    · rw [show m'.records = m.records from (Prod.mk.inj hcalls).1, h.records]
    · rw [show m'.returns = m.returns from (Prod.mk.inj hcalls).2]
      exact h.returns
  | @call r _ _ hmem hq hlo hhi _ hm' =>
    refine ⟨List.forall_mem_cons.2 ⟨hmem, h.mem⟩,
      .inr ⟨Nat.le_refl _, Nat.le_sub_one_of_lt (hr.laidOut.laid r hmem).lt⟩, ?_, ?_⟩
    · rw [hm', List.length_cons, h.records, List.length_cons]
    · rw [hm']
      exact ⟨⟨k, rfl, hq, hlo, hhi⟩, h.returns⟩
  | close hfs _ _ hrecords hreturns =>
    subst hfs
    have hreturned := h.returns
    rw [hreturns] at hreturned
    obtain ⟨⟨j', hj', -, hlo, hhi⟩, hrest⟩ := hreturned
    obtain rfl := Int.ofNat.inj hj'
    refine ⟨fun s hs => h.mem s (List.mem_cons_of_mem _ hs), .inr ⟨Nat.le_succ_of_le hlo, hhi⟩, ?_,
      hrest⟩
    simpa [hrecords] using h.records

/-- One step keeps the discipline of calls. -/
theorem step (hr : Routed rs main c p) (h : Stands rs main c fs k m) {i : Int}
    (hstep : p.step k m = .next i m') : ∃ gs j, i = (j : Nat) ∧ Stands rs main c gs j m' := by
  obtain ⟨gs, j, rfl, hmove⟩ := h.moves hr hstep
  exact ⟨gs, j, rfl, h.move hr hmove⟩

theorem start (hrecords : m.records = []) (hreturns : m.returns = []) :
    Stands rs main c [] 0 m where
  mem := List.forall_mem_nil _
  inside := .inl ⟨rfl, rfl⟩
  records := congrArg List.length hrecords
  returns := by
    rw [hreturns]
    trivial

/-- A whole run keeps the discipline of calls. -/
theorem steps (hr : Routed rs main c p) (h : Stands rs main c fs k m) {n : Nat}
    (hsteps : p.Steps n k m j m') : ∃ fs' k', j = (k' : Nat) ∧ Stands rs main c fs' k' m' := by
  have hstep : ∀ {i j m m'}, p.step i m = .next j m' →
      (∃ fs' k', i = (k' : Nat) ∧ Stands rs main c fs' k' m) →
      ∃ fs' k', j = (k' : Nat) ∧ Stands rs main c fs' k' m' := by
    rintro _ j m m' hstep ⟨fs, k, rfl, h⟩
    exact h.step hr hstep
  exact hsteps.invariant hstep ⟨fs, k, rfl, h⟩

/-- A function is only ever ended for the innermost open call. -/
theorem innermost (hr : Routed rs main c p) (h : Stands rs main c fs k m)
    (hq : c.quads[k]? = some (.word "ENDPROC" :: xs)) :
    ∃ r gs, fs = r :: gs ∧ xs = [.word r.name] := by
  rcases h.inside with ⟨-, rfl⟩ | ⟨hlo, hhi⟩
  · simp [hr.laidOut.first] at hq
  · rcases Nat.lt_or_eq_of_le hhi with hlt | rfl
    · exact absurd (hr.staysWithin h.mem hlo hlt hq) Quad.StaysWithin.ne_endproc
    · obtain ⟨r, gs, rfl, hxs⟩ := hr.quad_end h.mem hq
      exact ⟨r, gs, rfl, (List.cons.inj hxs).2⟩

/-- There is a quad wherever a run is in a function. -/
theorem exists_quad {r : Region} (hr : Routed rs main c p) (h : Stands rs main c (r :: fs) k m) :
    ∃ name fields, p.quad? k = some (name :: fields) := by
  have hlaid := hr.laidOut.laid r (h.mem r List.mem_cons_self)
  have hin : r.start ≤ k ∧ k ≤ r.stop - 1 := h.inside.resolve_left (by simp)
  have hsize : k < c.quads.size := Nat.lt_of_lt_of_le (by have := hlaid.lt; omega) hlaid.stop_le
  have hq := Array.getElem?_eq_getElem hsize
  obtain ⟨f, fs, hcons⟩ : ∃ f fs, c.quads[k] = f :: fs := by
    rcases Nat.lt_or_eq_of_le hin.2 with hlt | rfl
    · exact (hlaid.stays k _ hin.1 (by omega) hq).exists_cons
    · exact ⟨_, _, Option.some.inj (hq.symm.trans hlaid.ends)⟩
  rw [hcons] at hq
  exact ⟨_, _, hr.program.quad?_eq_some hq⟩

/-- A run halts only when no call is open. -/
theorem halted (hr : Routed rs main c p) (h : Stands rs main c fs k m)
    (hhalt : p.step k m = .halted m') : m'.records = [] ∧ m'.returns = [] := by
  obtain ⟨rfl, hnone⟩ := Program.step_halted hhalt
  cases fs with
  | nil =>
    exact ⟨List.eq_nil_of_length_eq_zero h.records, List.eq_nil_of_length_eq_zero h.returns.length⟩
  | cons r fs =>
    obtain ⟨name, fields, hq⟩ := h.exists_quad hr
    exact absurd hq (hnone name fields)

end Stands

end

/-! ## Whole programs -/

/-- The function that an event defines. -/
def Event.defined? : Event → Option String
  | .defineFunction _ name => some name
  | _ => none

/-- What is taken only from definitions of functions is taken in the order in which they stand. -/
theorem Tree.filterMap_events {α : Type} {f : Event → Option α}
    (hf : ∀ e : Event, e.defined? = none → f e = none) (p : Tree) :
    p.events.filterMap f = p.functions.filterMap fun g => f (.defineFunction g.result g.name) := by
  have hinner : ∀ es : List Event, (∀ e ∈ es, e.isInner = true) → es.filterMap f = [] := by
    intro es hes
    refine List.filterMap_eq_nil_iff.2 fun e he => hf e ?_
    have := hes e he
    cases e <;> first | rfl | cases this
  have hfunctions : ∀ fs : List FunctionTree, (fs.flatMap FunctionTree.events).filterMap f =
      fs.filterMap fun g => f (.defineFunction g.result g.name) := by
    intro fs
    induction fs with
    | nil => rfl
    | cons g fs ih =>
      simp [FunctionTree.events, FunctionTree.innerEvents, hf (.declareLocals _ _) rfl,
        hf .endFunction rfl, List.filterMap_cons, ih, hinner _ (sizesOf_isInner g.vars),
        hinner _ g.body.isInner]
  simp [Tree.events, hf (.declareGlobals _) rfl, hf .enterMain rfl, hf .finish rfl, hfunctions,
    hinner _ (sizesOf_isInner p.globals), hinner _ p.main.isInner]

theorem Tree.defined (p : Tree) :
    p.events.filterMap Event.defined? = p.functions.map FunctionTree.name :=
  (p.filterMap_events fun _ h => h).trans (congrFun List.filterMap_eq_map' _)

/-- Contiguous regions leave nothing out. -/
theorem Region.Contiguous.exists_mem (h : Region.Contiguous lo hi rs) (hlo : lo ≤ k)
    (hhi : k < hi) :
    ∃ r ∈ rs, r.start ≤ k ∧ k < r.stop := by
  induction rs generalizing lo with
  | nil =>
    subst h
    omega
  | cons s rs ih =>
    obtain ⟨rfl, h⟩ := h
    by_cases hk : k < s.stop
    · exact ⟨s, List.mem_cons_self, hlo, hk⟩
    · obtain ⟨r, hr, hin⟩ := ih h (Nat.le_of_not_lt hk)
      exact ⟨r, List.mem_cons_of_mem _ hr, hin⟩

namespace Routed

variable {main : Nat}

/-- A function ends at the last quad of its region only. -/
theorem ends_region (h : Routed rs main c p) (hq : c.quads[k]? = some (.word "ENDPROC" :: xs)) :
    ∃ r ∈ rs, k + 1 = r.stop ∧ xs = [.word r.name] := by
  have hk : k ≠ 0 := by
    rintro rfl
    simp [h.laidOut.first] at hq
  have hmain : k < main := by
    by_contra hge
    exact Quad.StaysWithin.ne_endproc (h.laidOut.stays k _ (Nat.le_of_not_lt hge) hq)
  obtain ⟨r, hr, hlo, hhi⟩ := h.laidOut.contiguous.exists_mem (Nat.pos_of_ne_zero hk) hmain
  have hlaid := h.laidOut.laid r hr
  have hlast : k + 1 = r.stop := by
    by_contra hne
    exact Quad.StaysWithin.ne_endproc (hlaid.stays k _ hlo (by omega) hq)
  refine ⟨r, hr, hlast, ?_⟩
  have hends := hlaid.ends
  rw [← hlast, Nat.add_sub_cancel, hq] at hends
  exact (List.cons.inj (Option.some.inj hends)).2

end Routed

/-- The quads of an accepted source are laid out in regions, and the machine reads them as
written. -/
theorem Compiled.exists_routed {line : Nat} {source : String}
    (h : (Compiled.ofSource line source).rejection = none) :
    ∃ rs main, Routed rs main (Compiled.ofSource line source).state
        (Compiled.ofSource line source).program ∧
      rs.map Region.name = (Trace.ofSource line source).events.filterMap Event.defined? := by
  obtain ⟨p, hp, hruns⟩ := Compiled.exists_runs h
  obtain ⟨htidy, rs, main, hlaid, hnames⟩ := p.laidOut hruns
  have hne : (Compiled.ofSource line source).state.quads ≠ #[] := by
    intro hempty
    simpa [hempty] using hlaid.first
  obtain ⟨ss, bs, hplaced⟩ := htidy.exists_placed
  refine ⟨rs, main, ⟨hlaid, ⟨p.code_ofText htidy hne, rfl⟩, fun k fs hq => ?_⟩, ?_⟩
  · obtain ⟨s, -, -, rfl⟩ := (hplaced.quads k _ hq).of_gosub
    exact ⟨_, rfl⟩
  · rw [hnames, ← hp, p.defined]

/-- Control flow of an accepted source: its quads are in regions, and every run has a stack of open
calls that its records, its stored indices and its position follow. -/
theorem Compiled.control_flow {line : Nat} {source : String}
    (h : (Compiled.ofSource line source).rejection = none) :
    let c := (Compiled.ofSource line source).state
    ∃ rs main, c.LaidOut rs main ∧
      rs.map Region.name = (Trace.ofSource line source).events.filterMap Event.defined? ∧
      (∀ k xs, c.quads[k]? = some (.word "ENDPROC" :: xs) →
        ∃ r ∈ rs, k + 1 = r.stop ∧ xs = [.word r.name]) ∧
      ∀ randoms inputs n,
        (∀ i m, (Compiled.ofSource line source).play randoms inputs n = (.unfinished i, m) →
          ∃ fs k, i = (k : Nat) ∧ Stands rs main c fs k m ∧ m.returns.length = fs.length ∧
            ∀ xs, c.quads[k]? = some (.word "ENDPROC" :: xs) →
              ∃ r gs, fs = r :: gs ∧ xs = [.word r.name]) ∧
        ∀ m, (Compiled.ofSource line source).play randoms inputs n = (.finished, m) →
          m.records = [] ∧ m.returns = [] := by
  obtain ⟨rs, main, hr, hnames⟩ := Compiled.exists_routed h
  refine ⟨rs, main, hr.laidOut, hnames, fun k xs => hr.ends_region,
    fun randoms inputs n => ⟨?_, ?_⟩⟩
  · intro i m hplay
    obtain ⟨fs, k, rfl, hstands⟩ :=
      (Stands.start rfl rfl).steps hr (Program.run_eq_unfinished.1 hplay)
    exact ⟨fs, k, rfl, hstands, hstands.returns.length, fun xs => hstands.innermost hr⟩
  · intro m hplay
    obtain ⟨k, j, m₁, -, hsteps, hhalt⟩ := Program.run_eq_finished.1 hplay
    obtain ⟨fs, k, rfl, hstands⟩ := (Stands.start rfl rfl).steps hr hsteps
    exact hstands.halted hr hhalt

theorem Compiled.control_flow_call :
    let source := "program p; fun void f() { } f();"
    (Compiled.ofSource 1 source).rejection = none ∧
      ∃ rs main, (Compiled.ofSource 1 source).state.LaidOut rs main ∧ rs.map Region.name =
        ["f"] := by
  intro source
  have haccepted : (Compiled.ofSource 1 source).rejection = none := by
    decide +kernel
  obtain ⟨rs, main, hlaid, hnames, -⟩ := Compiled.control_flow haccepted
  refine ⟨haccepted, rs, main, hlaid, hnames.trans ?_⟩
  cbv

end Symphony
