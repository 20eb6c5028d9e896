import Symphony.Proofs.Readiness

/-!
# Where a break goes

A break is a jump that waits for its target. All breaks wait in one list. Whenever a loop ends,
those in the list get the quad after that loop, and the list is emptied. So a break does not wait
for the loop around it, but for the loop that ends next.

**Loops in events** (`Event.Looped`). In the events of a tree every loop that begins also ends. A
break is in a loop, so the innermost loop around it ends after it, and what is in between has whole
loops only.

**Theorem (`Compiled.break_target`).** A break has one target, the quad after the loop that ends
next. This is the quad after the innermost loop around the break if and only if no loop follows the
break in the body of that loop.
-/

namespace Symphony

/-! ## Whole loops -/

namespace Event

/-- The events that loops consist of. -/
def isLoop : Event → Bool
  | .markLoop | .testLoop | .closeLoop | .leaveLoop => true
  | _ => false

/-- Events in which every loop that begins also ends: its condition is read and tested, then its
body comes. -/
inductive Looped : List Event → Prop
  | nil : Looped []
  | cons {e : Event} {es : List Event} : e.isLoop = false → Looped es → Looped (e :: es)
  | loop {qs xs ys : List Event} : (∀ e ∈ qs, e.isQuiet = true) → Looped xs → Looped ys →
      Looped (.markLoop :: (qs ++ .testLoop :: (xs ++ .closeLoop :: .leaveLoop :: ys)))

variable {e f : Event} {xs ys es before after rest : List Event}

theorem isLoop_of_isQuiet (h : e.isQuiet = true) : e.isLoop = false := by
  cases e <;> first | rfl | cases h

theorem Looped.append (hx : Looped xs) (hy : Looped ys) : Looped (xs ++ ys) := by
  induction hx with
  | nil => exact hy
  | cons he _ ih => exact .cons he ih
  | @loop qs xs zs hq hx _ _ ih =>
    have h := Looped.loop hq hx ih
    rwa [show Event.markLoop :: (qs ++ .testLoop ::
      (xs ++ .closeLoop :: .leaveLoop :: (zs ++ ys))) =
      .markLoop :: (qs ++ .testLoop :: (xs ++ .closeLoop :: .leaveLoop :: zs)) ++ ys by simp] at h

theorem looped_of_isQuiet (h : ∀ e ∈ es, e.isQuiet = true) : Looped es := by
  induction es with
  | nil => exact .nil
  | cons e es ih =>
    obtain ⟨he, hes⟩ := List.forall_mem_cons.1 h
    exact .cons (isLoop_of_isQuiet he) (ih hes)

theorem looped_singleton (h : e.isLoop = false) : Looped [e] :=
  .cons h .nil

/-- Where a condition has been tested, none is being read. -/
theorem Looped.foldl_marks (h : Looped es) : es.foldl marks false = false := by
  induction h with
  | nil => rfl
  | @cons e _ he _ ih =>
    have hmark : e.marks false = false := by
      cases e <;> first | rfl | cases he
    rwa [List.foldl_cons, hmark]
  | loop hq _ _ ihx ihy =>
    have hmarks := (tested_of_isQuiet (b := true) hq).2
    simp [marks, hmarks, ihx, ihy]

/-- Two ways to split a list, at different elements. -/
theorem split_of_ne (hne : e ≠ f) (h : xs ++ f :: rest = before ++ e :: after) :
    (∃ ys, xs = before ++ e :: ys ∧ after = ys ++ f :: rest) ∨
      ∃ ys, before = xs ++ f :: ys ∧ rest = ys ++ e :: after := by
  rcases List.append_eq_append_iff.1 h with ⟨ys, rfl, hys⟩ | ⟨ys, rfl, hys⟩
  · cases ys with
    | nil => exact absurd (List.cons.inj hys).1.symm hne
    | cons y ys =>
      obtain ⟨rfl, rfl⟩ := List.cons.inj hys
      exact .inr ⟨ys, rfl, rfl⟩
  · cases ys with
    | nil => exact absurd (List.cons.inj hys).1 hne
    | cons y ys =>
      obtain ⟨rfl, rfl⟩ := List.cons.inj hys
      exact .inl ⟨ys, rfl, rfl⟩

/-- A break is in no loop, or there is an innermost one around it. -/
theorem Looped.around_break (hes : Looped es) (h : es = before ++ .breakLoop :: after) :
    (Looped before ∧ Looped after) ∨
      ∃ us qs vs zs ws : List Event, before = us ++ .markLoop :: (qs ++ .testLoop :: vs) ∧
        (∀ e ∈ qs, e.isQuiet = true) ∧
        Looped vs ∧ after = zs ++ .closeLoop :: .leaveLoop :: ws ∧ Looped zs := by
  induction hes generalizing before after with
  | nil => simp at h
  | @cons e es he hes ih =>
    cases before with
    | nil =>
      obtain ⟨rfl, rfl⟩ := List.cons.inj h
      exact .inl ⟨.nil, hes⟩
    | cons b before =>
      obtain ⟨rfl, htail⟩ := List.cons.inj h
      rcases ih htail with ⟨hbefore, hafter⟩ | ⟨us, qs, vs, zs, ws, rfl, hrest⟩
      · exact .inl ⟨.cons he hbefore, hafter⟩
      · exact .inr ⟨e :: us, qs, vs, zs, ws, rfl, hrest⟩
  | @loop qs xs ys hq hx hy ihx ihy =>
    cases before with
    | nil => cases (List.cons.inj h).1
    | cons b before =>
      obtain ⟨rfl, htail⟩ := List.cons.inj h
      rcases split_of_ne (e := .breakLoop) (f := .testLoop) (by simp) htail with
        ⟨rest, rfl, -⟩ | ⟨inner, rfl, hinner⟩
      · -- there is no break in a condition
        cases hq .breakLoop (by simp)
      rcases split_of_ne (e := .breakLoop) (f := .closeLoop) (by simp) hinner with
        ⟨rest, hxs, rfl⟩ | ⟨outer, rfl, houter⟩
      · -- the break is in the body of this loop
        rcases ihx hxs with ⟨hbefore, hafter⟩ | ⟨us, qs', vs, zs, ws, rfl, hqs', hvs, rfl, hzs⟩
        · exact .inr ⟨[], qs, inner, rest, ys, rfl, hq, hbefore, rfl, hafter⟩
        · exact .inr ⟨.markLoop :: (qs ++ .testLoop :: us), qs', vs, zs,
            ws ++ .closeLoop :: .leaveLoop :: ys, by simp, hqs', hvs, by simp, hzs⟩
      · -- the break comes after this loop
        cases outer with
        | nil => cases (List.cons.inj houter).1
        | cons a outer =>
          obtain ⟨rfl, hys⟩ := List.cons.inj houter
          rcases ihy hys with ⟨hbefore, hafter⟩ | ⟨us, qs', vs, zs, ws, rfl, hrest⟩
          · exact .inl ⟨.loop hq hx hbefore, hafter⟩
          · exact .inr ⟨.markLoop :: (qs ++ .testLoop :: (xs ++ .closeLoop :: .leaveLoop :: us)),
              qs', vs, zs, ws, by simp, hrest⟩

end Event

open Event

theorem looped_sizesOf (gs : List Group) : Looped (sizesOf gs) :=
  looped_of_isQuiet (quiet_sizesOf gs)

theorem composes_looped : Stmt.Composes Looped where
  nil := .nil
  append := .append
  expr e := looped_of_isQuiet e.quiet
  single e he := looped_singleton (by cases e <;> first | rfl | cases he)
  loop condition _ h := .loop condition.quiet h .nil

theorem Expr.looped (e : Expr) : Looped e.events :=
  composes_looped.expr e

theorem Stmt.looped (s : Stmt) : Looped s.events :=
  s.composed composes_looped

theorem Block.looped (b : Block) : Looped b.events :=
  b.composed composes_looped

theorem Branches.looped (b : Branches) : Looped b.events :=
  b.composed composes_looped

theorem FunctionTree.looped (fs : List FunctionTree) : Looped (fs.flatMap events) :=
  composed composes_looped looped_sizesOf (fun e he =>
    looped_singleton (by cases e <;> first | rfl | cases he)) fs

/-- In a tree every loop ends. -/
theorem Tree.looped (p : Tree) : Looped p.events :=
  p.composed composes_looped looped_sizesOf fun e he =>
    looped_singleton (by cases e <;> first | rfl | cases he)

/-! ## What waits in the list of breaks -/

namespace Compiler

variable {c c' : Compiler} {e : Event} {es : List Event} {i : Nat}

theorem Acts.openLoops (ha : Acts e c c') (he : e.isLoop = false) : c'.openLoops = c.openLoops := by
  by_cases hquiet : e.isQuiet = true
  · exact (ha.quiet hquiet).openLoops
  · cases ha with
    | declareGlobals hv => exact (tabulates_globals (.declareGlobals hv)).openLoops
    | declareLocals hp hv => exact (tabulates_locals (.declareLocals hp hv)).openLoops
    | giveBack =>
      rw [completeAll_eq]
      rfl
    | enterMain | finish | defineFunction | endFunction | breakLoop | testIf | closeIf
    | elseBranch => rfl
    | markLoop | testLoop | closeLoop | leaveLoop => cases he
    | _ => exact absurd rfl hquiet

/-- After whole loops, as many loops are open as before. -/
theorem RunsBy.openLoops (hr : Runs es c c') (hes : Looped es) : c'.openLoops = c.openLoops := by
  induction hes generalizing c c' with
  | nil => rw [runs_nil.1 hr]
  | cons he _ ih =>
    obtain ⟨d, hd, hrest⟩ := runs_cons.1 hr
    exact (ih hrest).trans (hd.openLoops he)
  | @loop qs xs ys hq _ _ ihx ihy =>
    obtain ⟨c₁, hmark, hrest⟩ := runs_cons.1 hr
    obtain ⟨c₂, hqs, hrest⟩ := runs_append.1 hrest
    obtain ⟨c₃, htest, hrest⟩ := runs_cons.1 hrest
    obtain ⟨c₄, hxs, hrest⟩ := runs_append.1 hrest
    obtain ⟨c₅, hclose, hrest⟩ := runs_cons.1 hrest
    obtain ⟨c₆, hleave, hys⟩ := runs_cons.1 hrest
    have h₁ : c₁.openLoops = c.openLoops := by
      cases hmark
      rfl
    have h₂ : c₂.openLoops = c₁.openLoops := (hqs.quiet hq).openLoops
    have h₃ : c₃.openLoops = c₂.openLoops + 1 := by
      cases htest
      rfl
    have h₄ := ihx hxs
    have h₅ : c₅.openLoops = c₄.openLoops := by
      cases hclose
      rw [completeAll_eq]
      rfl
    have h₆ : c₆.openLoops = c₅.openLoops + -1 := by
      cases hleave
      rfl
    have h₇ := ihy hys
    omega

/-- Quad number `i` is completed by no event, unless it waits in the list of breaks. -/
structure OnlyBreaks (i : Nat) (c : Compiler) : Prop where
  pos : 0 < i
  lt_size : i < c.quads.size
  jumps : i ∉ c.jumps
  selfCalls : ∀ p ∈ c.selfCalls, p.1 ≠ i

theorem OnlyBreaks.mono (h : OnlyBreaks i c) (hsize : c.quads.size ≤ c'.quads.size)
    (hjumps : ∀ j ∈ c'.jumps, j ∈ c.jumps ∨ j = c.quads.size)
    (hself : ∀ p ∈ c'.selfCalls, p ∈ c.selfCalls ∨ c.quads.size ≤ p.1) : OnlyBreaks i c' where
  pos := h.pos
  lt_size := Nat.lt_of_lt_of_le h.lt_size hsize
  jumps hi := by
    rcases hjumps i hi with hi | hi
    · exact h.jumps hi
    · exact Nat.ne_of_lt h.lt_size hi
  selfCalls p hp := by
    rcases hself p hp with hp | hp
    · exact h.selfCalls p hp
    · exact Nat.ne_of_gt (Nat.lt_of_lt_of_le h.lt_size hp)

theorem Acts.onlyBreaks (ha : Acts e c c') (h : OnlyBreaks i c) : OnlyBreaks i c' := by
  refine h.mono ha.size_le ?_ ?_
  · exact fun j hj => ha.mem_jumps hj
  · intro p hp
    rcases ha.selfCalls with hsame | ⟨j, a, _, _, hadded, hj, -⟩
    · exact .inl (hsame ▸ hp)
    · rcases List.mem_append.1 (hadded ▸ hp) with hp | hp
      · exact .inl hp
      · rw [List.mem_singleton.1 hp]
        exact .inr hj

/-- Only the end of a loop takes breaks from the list. -/
theorem Acts.count_breaks (ha : Acts e c c') (h : OnlyBreaks i c) (he : e ≠ .closeLoop) :
    c'.breaks.count i = c.breaks.count i := by
  by_cases hquiet : e.isQuiet = true
  · rw [(ha.quiet hquiet).breaks]
  · cases ha with
    | declareGlobals hv => rw [(tabulates_globals (.declareGlobals hv)).breaks]; rfl
    | declareLocals hp hv => rw [(tabulates_locals (.declareLocals hp hv)).breaks]
    | giveBack => rw [completeAll_eq]; rfl
    | breakLoop =>
      have hne : c.quads.size ≠ i := Nat.ne_of_gt h.lt_size
      simp [emit, hne]
    | closeLoop => exact absurd rfl he
    | enterMain | finish | defineFunction | endFunction | testIf | closeIf | elseBranch
    | markLoop | testLoop
    | leaveLoop => rfl
    | _ => exact absurd rfl hquiet

/-- Quad number `i` changes only if it waits in the list of breaks and a loop ends. -/
theorem Acts.getElem?_of_onlyBreaks (ha : Acts e c c') (h : OnlyBreaks i c)
    (he : e = .closeLoop → i ∉ c.breaks) : c'.quads[i]? = c.quads[i]? := by
  obtain ⟨q, hq⟩ : ∃ q, c.quads[i]? = some q := ⟨_, Array.getElem?_eq_getElem h.lt_size⟩
  rw [hq]
  by_cases hquiet : e.isQuiet = true
  · obtain ⟨qs, hqs, -⟩ := (ha.quiet hquiet).quads
    exact getElem?_of_append hqs hq
  · obtain ⟨added, ps, hcode, -, hps⟩ := ha.code hquiet
    rw [hcode, getElem?_completeAll_of_not_mem fun p hp => ?_]
    · exact getElem?_of_append Array.toList_appendList hq
    · rintro rfl
      cases hps p hp with
      | main => exact absurd h.pos (Nat.lt_irrefl 0)
      | branch _ _ hjumps => exact h.jumps (hjumps ▸ List.mem_cons_self)
      | leave _ hloop hi => exact he hloop hi
      | result _ _ hy => exact h.selfCalls _ hy rfl

/-- What a quad gets if all of these quads get one more field. -/
theorem fields_of_completed (is : List Nat) (i : Nat) (x : Field) :
    ((is.map (·, [x])).filter (·.1 == i)).flatMap Prod.snd = List.replicate (is.count i) x := by
  induction is with
  | nil => rfl
  | cons j is ih =>
    by_cases hj : j = i
    · subst hj
      simp [ih, List.replicate_succ]
    · simp [ih, hj]

/-- What waits gets the quad after the loop as often as it waits. -/
theorem Acts.closeLoop_of_onlyBreaks (ha : Acts .closeLoop c c') (h : OnlyBreaks i c) {q : Quad}
    (hq : c.quads[i]? = some q) :
    c'.quads[i]? = some (q ++ List.replicate (c.breaks.count i) (.num c'.quads.size)) ∧
      c'.breaks = [] := by
  cases ha with
  | @closeLoop _ test condition rest hjumps =>
    have hne : test ≠ i := by
      rintro rfl
      exact h.jumps (hjumps ▸ List.mem_cons_self)
    have hcount : (test :: c.breaks).count i = c.breaks.count i := List.count_cons_of_ne hne
    have hsize : ∀ ps, (({ c with jumps := rest }.emit [.word "GOTO", .num condition]).completeAll
        ps).quads.size = c.quads.size + 1 := by
      intro ps
      simp [emit]
    refine ⟨?_, rfl⟩
    show (completeAll _ _).quads[i]? =
      some (q ++ List.replicate _ (.num (completeAll _ _).quads.size))
    rw [getElem?_completeAll, fields_of_completed, hcount, hsize, emit,
      getElem?_of_append Array.toList_push hq]
    rfl

/-- Until a loop ends, what waits keeps waiting. -/
theorem RunsBy.waits (hr : Runs es c c') (hes : .closeLoop ∉ es) (h : OnlyBreaks i c) :
    OnlyBreaks i c' ∧ c'.breaks.count i = c.breaks.count i ∧ c'.quads[i]? = c.quads[i]? := by
  induction hr with
  | nil => exact ⟨h, rfl, rfl⟩
  | cons ha _ ih =>
    obtain ⟨hne, hes⟩ := not_or.1 (mt List.mem_cons.2 hes)
    obtain ⟨hfree, hcount, hquad⟩ := ih hes (ha.onlyBreaks h)
    refine ⟨hfree, ?_, ?_⟩
    · rw [hcount, ha.count_breaks h (Ne.symm hne)]
    · rw [hquad, ha.getElem?_of_onlyBreaks h fun he => absurd he.symm hne]

/-- What does not wait does not change any more. -/
theorem RunsBy.settles (hr : Runs es c c') (h : OnlyBreaks i c) (hi : i ∉ c.breaks) :
    c'.quads[i]? = c.quads[i]? := by
  induction hr with
  | nil => rfl
  | @cons e es c d c' ha _ ih =>
    have hd : i ∉ d.breaks := by
      by_cases he : e = .closeLoop
      · subst he
        rw [(ha.closeLoop_of_onlyBreaks h (Array.getElem?_eq_getElem h.lt_size)).2]
        exact List.not_mem_nil
      · rw [← List.count_eq_zero, ha.count_breaks h he]
        exact List.count_eq_zero.2 hi
    rw [ih (ha.onlyBreaks h) hd, ha.getElem?_of_onlyBreaks h fun _ => hi]

theorem RunsBy.bounded {b : Bool} (hr : Runs es c c') (h : Bounded b c) :
    Bounded (es.foldl marks b) c' := by
  induction hr generalizing b with
  | nil => exact h
  | cons ha _ ih => exact ih (ha.bounded h)

/-- A new break waits. -/
theorem Acts.onlyBreaks_of_breakLoop (ha : Acts .breakLoop c c') (hb : Bounded false c)
    (hpos : 0 < c.quads.size) :
    OnlyBreaks c.quads.size c' ∧ c'.breaks.count c.quads.size = 1 ∧
      c'.quads[c.quads.size]? = some [.word "GOTO"] := by
  cases ha with
  | breakLoop =>
    have hnew : c.quads.size ∉ c.breaks := fun h => Nat.lt_irrefl _ (hb.breaks _ h)
    refine ⟨⟨hpos, by simp [emit], fun h => Nat.lt_irrefl _ (hb.jumps _ h), fun p hp => ?_⟩, ?_, ?_⟩
    · exact Nat.ne_of_lt (hb.selfCalls p hp)
    · simp [emit, List.count_eq_zero.2 hnew]
    · simp [emit]

/-- A break goes to the quad after the loop that ends next. -/
theorem RunsBy.target_of_break {us vs : List Event} {d₁ d₂ d₃ : Compiler}
    (hbreak : Acts .breakLoop c d₁) (hus : Runs us d₁ d₂) (hclose : Acts .closeLoop d₂ d₃)
    (hvs : Runs vs d₃ c') (hnot : .closeLoop ∉ us) (hb : Bounded false c)
    (hpos : 0 < c.quads.size) :
    c'.quads[c.quads.size]? = some [.word "GOTO", .num d₃.quads.size] := by
  obtain ⟨h₁, hcount₁, hquad₁⟩ := hbreak.onlyBreaks_of_breakLoop hb hpos
  obtain ⟨h₂, hcount₂, hquad₂⟩ := hus.waits hnot h₁
  obtain ⟨hquad₃, hempty⟩ := hclose.closeLoop_of_onlyBreaks h₂ (hquad₂.trans hquad₁)
  rw [hvs.settles (hclose.onlyBreaks h₂) (by simp [hempty]), hquad₃, hcount₂, hcount₁]
  rfl

theorem Acts.size_of_closeLoop (ha : Acts .closeLoop c c') : c'.quads.size = c.quads.size + 1 := by
  cases ha with
  | closeLoop => simp [emit]

/-- What a break in a loop finds: it is not in a condition, and there are quads already. -/
theorem RunsBy.in_loop {us qs vs : List Event}
    (hr : TidyRuns (us ++ .markLoop :: (qs ++ .testLoop :: vs)) {} c) (hvs : Looped vs) :
    Bounded false c ∧ 0 < c.quads.size := by
  have hempty : Bounded false {} :=
    ⟨List.forall_mem_nil _, List.forall_mem_nil _, List.forall_mem_nil _⟩
  have hbounded := hr.plain.bounded hempty
  refine ⟨by simpa [marks, hvs.foldl_marks] using hbounded, ?_⟩
  obtain ⟨c₁, -, hr⟩ := runs_append.1 hr
  obtain ⟨c₂, -, hr⟩ := runs_cons.1 hr
  obtain ⟨c₃, -, hr⟩ := runs_append.1 hr
  obtain ⟨c₄, ⟨htest, -⟩, hr⟩ := runs_cons.1 hr
  refine Nat.lt_of_lt_of_le ?_ hr.size_le
  cases htest with
  | testLoop => simp [emit]

/-- The next quad after some events has this number. -/
def NextQuad (es : List Event) (n : Nat) : Prop :=
  ∃ c, Runs es {} c ∧ c.quads.size = n

end Compiler

open Compiler

/-- The break between these events has one target, the quad after the loop that ends next. This is
the quad after the innermost loop around the break if and only if no loop follows the break
there. -/
def Compiled.LeavesAtNextEnd (line : Nat) (source : String) (before after : List Event) : Prop :=
  ∃ (i target last : Nat) (zs ws : List Event), NextQuad before i ∧
    (Compiled.ofSource line source).state.quads[i]? = some [.word "GOTO", .num target] ∧
    (∃ us vs : List Event, after = us ++ .closeLoop :: vs ∧ .closeLoop ∉ us ∧
      NextQuad (before ++ .breakLoop :: (us ++ [.closeLoop])) target) ∧
    after = zs ++ .closeLoop :: .leaveLoop :: ws ∧ Looped zs ∧
    NextQuad (before ++ .breakLoop :: (zs ++ [.closeLoop])) last ∧
    (target = last ↔ .closeLoop ∉ zs)

theorem Compiled.break_target {line : Nat} {source : String} {before after : List Event}
    (h : (Compiled.ofSource line source).rejection = none)
    (hsplit : (Trace.ofSource line source).events = before ++ .breakLoop :: after) :
    LeavesAtNextEnd line source before after := by
  obtain ⟨p, hp, hruns⟩ := Compiled.exists_runs h
  have hevents := hp.trans hsplit
  have htidy := (p.laidOut hruns).1
  rw [hevents] at htidy
  obtain ⟨d, hbefore, hrest⟩ := runs_append.1 htidy
  obtain ⟨d₁, ⟨hbreak, -⟩, hafter⟩ := runs_cons.1 hrest
  have hopen : d.openLoops ≠ 0 := by
    cases hbreak
    assumption
  have hplain : ∀ {es c c'}, TidyRuns es c c' → Runs es c c' :=
    fun hr => hr.imp fun _ _ _ ha => ha.1
  rcases p.looped.around_break hevents with ⟨hloops, -⟩ | ⟨us, qs, vs, zs, ws, rfl, -,
    hvs, rfl, hzs⟩
  · exact absurd ((hplain hbefore).openLoops hloops) hopen
  obtain ⟨hb, hpos⟩ := hbefore.in_loop hvs
  obtain ⟨d₂, hinside, hrest⟩ := runs_append.1 hafter
  obtain ⟨d₃, ⟨hclose, -⟩, hlater⟩ := runs_cons.1 hrest
  have hnext : ∀ {es c c'}, Runs es d₁ c → Acts .closeLoop c c' →
      NextQuad (us ++ .markLoop :: (qs ++ .testLoop :: vs) ++ .breakLoop :: (es ++ [.closeLoop]))
        c'.quads.size :=
    fun hes hend => ⟨_, runs_append.2 ⟨d, hplain hbefore, .cons hbreak
      (runs_append.2 ⟨_, hes, runs_singleton.2 hend⟩)⟩, rfl⟩
  by_cases hmem : .closeLoop ∈ zs
  · -- another loop ends before the one around the break
    obtain ⟨xs, ys, rfl, hxs⟩ := List.eq_append_cons_of_mem hmem
    obtain ⟨e₁, hfirst, hrest⟩ := runs_append.1 hinside
    obtain ⟨e₂, ⟨hend, -⟩, hsecond⟩ := runs_cons.1 hrest
    have hremaining : Runs (ys ++ .closeLoop :: .leaveLoop :: ws) e₂
        (Compiled.ofSource line source).state :=
      runs_append.2 ⟨d₂, hplain hsecond, .cons hclose (hplain hlater)⟩
    have hle := hsecond.size_le
    have hlt := hclose.size_of_closeLoop
    exact ⟨_, _, _, _, ws, ⟨d, hplain hbefore, rfl⟩,
      RunsBy.target_of_break hbreak (hplain hfirst) hend hremaining hxs hb hpos,
      ⟨xs, ys ++ .closeLoop :: .leaveLoop :: ws, by simp, hxs, hnext (hplain hfirst) hend⟩, rfl,
      hzs, hnext (hplain hinside) hclose,
      fun heq => by omega, fun hnot => absurd hmem hnot⟩
  · exact ⟨_, _, _, _, ws, ⟨d, hplain hbefore, rfl⟩,
      RunsBy.target_of_break hbreak (hplain hinside) hclose (hplain hlater) hmem hb hpos,
      ⟨zs, _, rfl, hmem, hnext (hplain hinside) hclose⟩, rfl, hzs, hnext (hplain hinside) hclose,
      fun _ => hmem, fun _ => rfl⟩

/-- A loop follows the break. -/
theorem Compiled.break_target_before_loop :
    let source := "program p; while (true) { break; while (false) { } }"
    (Compiled.ofSource 1 source).rejection = none ∧
      ∃ before after, (Trace.ofSource 1 source).events = before ++ .breakLoop :: after ∧
        LeavesAtNextEnd 1 source before after := by
  intro source
  have hcompiled : (Compiled.ofSource 1 source).rejection = none := by
    decide +kernel
  let before : List Event :=
    [.declareGlobals [], .enterMain, .markLoop, .constant .bool (.bool true), .testLoop]
  let after : List Event := [.markLoop, .constant .bool (.bool false), .testLoop, .closeLoop,
    .leaveLoop, .closeLoop, .leaveLoop, .finish]
  have hsplit : (Trace.ofSource 1 source).events = before ++ .breakLoop :: after := by
    decide +kernel
  exact ⟨hcompiled, _, _, hsplit, Compiled.break_target hcompiled hsplit⟩

end Symphony
