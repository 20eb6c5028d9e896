import Symphony.Proofs.Blocks
import Symphony.Proofs.Preservation

/-!
# Intermediate results across calls

An intermediate result has one temporal cell for each place in the source, whatever the number of
open calls, and a call saves no temporal cells. Yet the cells of the caller are safe from every
function but itself: a function calls only functions that are defined before it
(`Compiler.CallsBack`), and their quads name only cells that were handed out before those of the
caller (`Compiler.Phase.not_names`).

**Theorem (`Compiled.temporals_across_calls`).** When a call has returned, the intermediate results
of the caller are as they were, unless a function has called itself and has come to a quad that
names their cell.
-/

namespace Symphony

variable {i k main : Nat} {es : List Event} {q : Quad} {a : Int} {bs : List Int} {c : Compiler}
  {r s : Region} {rs : List Reservation} {N : Scope → Prop} {fs : List Field} {isGlobal : Bool}
  {name : String} {p : Tree} {regions : List Region}

/-- Regions do not overlap. -/
theorem Region.Contiguous.separate {lo hi : Nat} {rs : List Region} (h : Contiguous lo hi rs)
    (hlt : ∀ r ∈ rs, r.start < r.stop) (hr : r ∈ rs) (hs : s ∈ rs) :
    r = s ∨ r.stop ≤ s.start ∨ s.stop ≤ r.start := by
  induction rs generalizing lo with
  | nil => cases hr
  | cons g rs ih =>
    have hlt' : ∀ r ∈ rs, r.start < r.stop := fun r hr => hlt r (List.mem_cons_of_mem _ hr)
    obtain ⟨-, hbounds⟩ := h.2.bounds hlt'
    rcases List.mem_cons.1 hr with hr | hr <;> rcases List.mem_cons.1 hs with hs | hs
    · exact .inl (hr.trans hs.symm)
    · exact .inr (.inl (hr ▸ (hbounds s hs).1))
    · exact .inr (.inr (hs ▸ (hbounds r hr).1))
    · exact ih h.2 hlt' hr hs

/-- The cells that a quad names have been handed out. -/
theorem Quad.At.handed {qs : Array Quad} (h : q.At N rs bs qs k) (hr : Roomy rs) (ha : q.Names a) :
    (Counters.after rs).Handed a := by
  rcases ha with ha | ⟨base, x, rfl⟩
  · obtain ⟨t, hgiven⟩ := h.stored _ ha
    exact hgiven.handed hr
  · obtain ⟨_, _, _, _, _, before, later, -, -, rfl, -, -, hfs⟩ := h.of_access
    rw [Field.num.inj (List.cons.inj (List.cons.inj (List.cons.inj hfs).2).2).1]
    exact hr.handed (Int.le_refl _) (Int.lt_succ _)

namespace Compiler

open Quad

/-! ## Cells for results -/

theorem mem_of_target? (h : q.target? = some a) : Field.num a ∈ q := by
  unfold target? at h
  split at h
  case h_4 => cases h
  all_goals
    split at h
    · cases h
      simp
    · cases h

variable {e : Event} {c' : Compiler}

/-- The cell for the result of a quad is handed out by the event that adds the quad. -/
theorem Emitted.newTemporal (h : Emitted e c c' q) (ha : q.target? = some a) :
    NewTemporal c c' a := by
  cases h with
  | @binary o _ _ d _ hnew =>
    obtain rfl : d = a := by simpa [target?, BinOp.ofSymbol?_symbol] using ha
    exact hnew
  | @unary o _ d ho hnew =>
    obtain rfl : d = a := by simpa [target?, isSign_mnemonic ho] using ha
    exact hnew
  | update _ _ ho =>
    rw [target?_eq_none (isIdle_mnemonic ho)] at ha
    cases ha
  | @access _ _ _ d _ hnew =>
    obtain rfl : d = a := by simpa [target?] using ha
    exact hnew
  | special as _ hnew =>
    have hmem : Field.num a ∈ as.map Field.num := by simpa using mem_of_target? ha
    obtain ⟨d, hd, ⟨⟩⟩ := List.mem_map.1 hmem
    exact hnew a hd
  | _ =>
    rw [target?_eq_none (by decide)] at ha
    cases ha

theorem Acts.newTemporal (h : Acts e c c') (hk : c.quads.size ≤ k) (hq : c'.quads[k]? = some q)
    (ha : q.target? = some a) : NewTemporal c c' a := by
  by_cases he : e.isQuiet = true
  · exact ((h.emitted he).of_getElem? hk hq).newTemporal ha
  · -- jumps and ends of functions have no result
    obtain ⟨w, fs, rfl, -⟩ := isFinal_of_target? ha
    rcases h.word_of_not_isQuiet he hk hq with rfl | rfl | rfl <;>
      (rw [target?_eq_none (by decide)] at ha; cases ha)

/-- Quads that are added after a state have cells for their results that are handed out after it. -/
theorem Reached.newTemporal (h : Reached (fun _ => True) rs c) (hr : TidyRuns es c c')
    (hpos : Event.Sized es) (hk : c.quads.size ≤ k) (hq : c'.quads[k]? = some q)
    (ha : q.target? = some a) : NewTemporal c c' a := by
  obtain ⟨e, xs, ys, d, d', rfl, hd, he, hd', hlo, hhi⟩ :=
    hr.born hk (Array.getElem?_eq_some_iff.1 hq).1
  obtain ⟨hxs, hes⟩ := List.forall_mem_append.1 hpos
  obtain ⟨hone, hys⟩ := List.forall_mem_cons.1 hes
  -- the counters before and after the event that adds the quad
  obtain ⟨ss, h₁⟩ := h.runs hd trivial (fun _ _ _ => trivial) hxs
  obtain ⟨ss', h₂⟩ := h₁.runs (runs_singleton.2 he) trivial (fun _ _ _ => trivial)
    (List.forall_mem_singleton.2 hone)
  obtain ⟨ss'', h₃⟩ := h₂.runs hd' trivial (fun _ _ _ => trivial) hys
  obtain ⟨⟨bs, hp, -⟩, -⟩ := id h₂
  obtain ⟨w, fs, rfl, hw, -⟩ := isFinal_of_target? ha
  obtain ⟨t, hfrom, hto⟩ := he.1.newTemporal hlo (hd'.quad_before hp hw hhi hq) ha
  exact ⟨t, Int.le_trans (h.next_le h₁ .temporals t) hfrom,
    Int.lt_of_lt_of_le hto (h₂.next_le h₃ .temporals t)⟩

/-! ## Cells of the code of a function -/

/-- Copies that wait for no result stay as they are. -/
theorem RunsBy.copy_kept (h : TidyRuns es c c') (hq : c.quads[k]? = some (.word "=" :: fs))
    (hself : ∀ y ∈ c.selfCalls, y.1 ≠ k) : c'.quads[k]? = some (.word "=" :: fs) := by
  induction h with
  | nil => exact hq
  | cons h _ ih =>
    refine ih (h.1.kept h.2 hq (by simp [Quad.Waits]) fun _ => hself) fun y hy => ?_
    rcases h.1.selfCalls with hs | ⟨i, a, _, _, hs, hi, -⟩
    · exact hself y (hs ▸ hy)
    · rw [hs] at hy
      rcases List.mem_append.1 hy with hy | hy
      · exact hself y hy
      · rw [List.mem_singleton.1 hy]
        have hlt := (Array.getElem?_eq_some_iff.1 hq).1
        exact Nat.ne_of_gt (Nat.lt_of_lt_of_le hlt hi)

theorem length_copyFields (places : List Field) (a : Int) :
    (copyFields places a).length = 2 * places.length := by
  induction places with
  | nil => rfl
  | cons p places ih =>
    rw [copyFields, List.flatMap_cons, List.length_append, List.length_cons, ← copyFields, ih]
    simp only [List.length_cons, List.length_nil]
    omega

/-- When no result is owed, a copy with two operands has them already. -/
theorem RunsBy.copy_complete (h : TidyRuns es c c') (hself : SelfCopies c) (howes : ¬c.OwesResult)
    {gs : List Field} (hq : c.quads[k]? = some (.word "=" :: fs))
    (hq' : c'.quads[k]? = some (.word "=" :: (fs ++ gs))) (hlength : (fs ++ gs).length = 2) :
    gs = [] := by
  by_cases hmem : ∃ y ∈ c.selfCalls, y.1 = k
  · obtain ⟨y, hy, rfl⟩ := hmem
    obtain ⟨place, places, hcopy⟩ := hself.filled howes hy
    obtain rfl : fs = copyFields (place :: places) y.2 :=
      (List.cons.inj (Option.some.inj (hq.symm.trans hcopy))).2
    rw [List.length_append, length_copyFields, List.length_cons] at hlength
    exact List.eq_nil_of_length_eq_zero (by omega)
  · have hkept := h.copy_kept hq fun y hy hyk => hmem ⟨y, hy, hyk⟩
    have heq := (List.cons.inj (Option.some.inj (hq'.symm.trans hkept))).2
    exact List.append_right_eq_self.1 heq

/-- What a quad is completed with is no operand, but for the results of calls of a function by
itself, which it gets before the function ends. -/
theorem RunsBy.names_before (h : TidyRuns es c c') (hp : Placed N rs bs c) (hself : SelfCopies c)
    (howes : ¬c.OwesResult) (hk : k < c.quads.size) (hq : c'.quads[k]? = some q) (ha : q.Names a) :
    ∃ q₀, c.quads[k]? = some q₀ ∧ q₀.Names a := by
  obtain ⟨q₀, hq₀⟩ : ∃ q₀, c.quads[k]? = some q₀ := ⟨_, Array.getElem?_eq_getElem hk⟩
  have hat := hp.quads k q₀ hq₀
  obtain ⟨w, fs, rfl⟩ := hat.exists_word
  refine ⟨_, hq₀, ?_⟩
  by_cases hw : IsFinal w
  · rwa [Option.some.inj ((h.kept hw hq₀).symm.trans hq)]
  · obtain ⟨gs, hgs⟩ := h.grown hq₀
    obtain rfl := Option.some.inj (hq.symm.trans hgs)
    have hcases : w = "GOTO" ∨ w = "GOTOF" ∨ w = "=" := by
      simp only [IsFinal] at hw
      tauto
    rw [List.cons_append] at hq ha
    rcases ha with ha | ⟨base, x, hacc⟩
    · rcases hcases with rfl | rfl | rfl
      · exact absurd ha List.not_mem_nil
      · obtain ⟨x, -, ts, -, rfl⟩ := (hat.shape (by decide)).tells.gotof rfl
        exact .inl ha
      · by_cases hlength : (fs ++ gs).length = 2
        · obtain rfl := h.copy_complete hself howes hq₀ hq hlength
          rw [List.append_nil] at ha
          exact .inl ha
        · rw [Quad.operands, if_neg (by decide), if_neg (by decide),
            if_pos (.inr (.inr (.inr ⟨rfl, hlength⟩)))] at ha
          exact absurd ha List.not_mem_nil
    · rcases hcases with rfl | rfl | rfl <;> simp at hacc

/-- The quads up to the end of a function name only cells that were handed out up to there. -/
theorem RunsBy.handed_of_names (h : TidyRuns es c c') (hp : Placed N rs bs c) (hr : Roomy rs)
    (hself : SelfCopies c) (howes : ¬c.OwesResult) (hk : k < c.quads.size)
    (hq : c'.quads[k]? = some q) (ha : q.Names a) : (Counters.after rs).Handed a := by
  obtain ⟨q₀, hq₀, ha₀⟩ := h.names_before hp hself howes hk hq ha
  exact (hp.quads k q₀ hq₀).handed hr ha₀

/-! ## Functions and what they call -/

theorem RunsBy.heads_of_define (h : TidyRuns es c c') {result : Option Ty}
    (he : .defineFunction result name ∈ es) : ∃ start, (some name, start) ∈ c'.heads := by
  induction h with
  | nil => cases he
  | @cons e es c₁ c₂ c₃ ha hrest ih =>
    rcases List.mem_cons.1 he with rfl | he
    · cases ha.1 with
      | defineFunction =>
        refine ⟨c₁.quads.size, hrest.mem_heads ?_⟩
        rw [heads_define]
        exact List.mem_append_right _ List.mem_cons_self
    · exact ih he

/-- Functions call themselves and functions that are defined before them. -/
def CallsBack (c : Compiler) (rs : List Region) : Prop :=
  ∀ r ∈ rs, ∀ s ∈ rs, ∀ k < r.stop, c.quads[k]? = some [.word "GOSUB", .word s.name] →
    s.stop ≤ r.stop

namespace Phase

variable {xs ys : List FunctionTree} {f : FunctionTree} {c₁ c₂ c₃ : Compiler}

theorem upTo (h : Phase p xs f ys c₁ c₂ c₃ c) :
    TidyRuns ((p.opening ++ xs.flatMap FunctionTree.events) ++ (f.head ++ f.body.events)) {} c₃ :=
  runs_append.2 ⟨c₁, h.before, runs_append.2 ⟨c₂, h.head, h.body⟩⟩

/-- A function that is called up to the end of another one starts before that end. -/
theorem start_of_call (h : Phase p xs f ys c₁ c₂ c₃ c)
    (hpos : Event.Sized p.events) (hk : k < c₃.quads.size)
    (hq : c.quads[k]? = some [.word "GOSUB", .word name]) :
    ∃ start : Int, (some name, start) ∈ c.heads ∧ start ≤ c₃.quads.size := by
  obtain ⟨r₁, r₂, r₃, -, -, -, ⟨⟨bs, hp, -⟩, -⟩, -⟩ := h.reached hpos
  obtain ⟨name', hknown, -, hname⟩ :=
    (hp.quads k _ (h.after.quad_before hp (by decide) hk hq)).of_gosub
  obtain rfl : name = name' := by simpa using hname
  rcases hknown with hnone | ⟨g, hg, hname⟩
  · cases hnone
  · obtain rfl := Option.some.inj hname
    have hdefine : .defineFunction g.result g.name ∈
        (p.opening ++ xs.flatMap FunctionTree.events) ++ (f.head ++ f.body.events) := by
      rcases List.mem_append.1 hg with hg | hg
      · refine List.mem_append_left _ (List.mem_append_right _ (List.mem_flatMap.2 ⟨g, hg, ?_⟩))
        exact List.mem_cons_self
      · rw [List.mem_singleton.1 hg]
        exact List.mem_append_right _ (List.mem_append_left _ List.mem_cons_self)
    obtain ⟨start, hstart⟩ := h.upTo.heads_of_define hdefine
    refine ⟨start, h.after.mem_heads hstart, ?_⟩
    obtain ⟨F, hF, heq⟩ := List.mem_map.1 hstart
    rw [← (Prod.mk.inj heq).2]
    exact hp.bound _ (hp.starts F hF)

end Phase

namespace Phase

variable {xs ys : List FunctionTree} {f : FunctionTree} {c₁ c₂ c₃ : Compiler} {program : Program}

theorem stop_of_call (h : Phase p xs f ys c₁ c₂ c₃ c)
    (hpos : Event.Sized p.events) (hr : Routed regions main c program)
    (hmem : r ∈ regions) (hname : r.name = f.name) (hs : s ∈ regions) (hk : k < r.stop)
    (hq : c.quads[k]? = some [.word "GOSUB", .word s.name]) : s.stop ≤ r.stop := by
  obtain ⟨-, hstop⟩ := h.region hr hmem hname
  have hk' : k < c₃.quads.size := by
    refine Nat.lt_of_le_of_ne (by omega) ?_
    rintro rfl
    simp [h.ends] at hq
  obtain ⟨start, hhead, hle⟩ := h.start_of_call hpos hk' hq
  rw [hr.laidOut.heads, headsOf] at hhead
  rcases List.mem_cons.1 hhead with hhead | hhead
  · cases hhead
  · obtain ⟨s', hs', heq⟩ := List.mem_map.1 hhead
    obtain ⟨hname', hstart⟩ := Prod.mk.inj heq
    obtain rfl : s' = s := List.inj_on_of_nodup_map hr.laidOut.names hs' hs (Option.some.inj hname')
    have hlt := (hr.laidOut.laid r hmem).lt
    rcases hr.laidOut.contiguous.separate (fun r hr' =>
      (hr.laidOut.laid r hr').lt) hs hmem with rfl | hsep | hsep
    · exact Nat.le_refl _
    · omega
    · omega

/-- The quads of a function, and those before it, name no cells that later quads have for their
results. -/
theorem not_names (h : Phase p xs f ys c₁ c₂ c₃ c) (hpos : Event.Sized p.events)
    (hfits : c.Fits) {q' : Quad} (hk : k ≤ c₃.quads.size) (hq : c.quads[k]? = some q)
    (hi : c₃.quads.size ≤ i) (hq' : c.quads[i]? = some q') (ha : q'.target? = some a) :
    ¬q.Names a ∧ ∃ t, Sector.locate? a = some (.temporals, t) := by
  obtain ⟨r₁, r₂, r₃, r₄, -, -, h₃, h₄⟩ := h.reached hpos
  have hafter : Event.Sized (.endFunction :: (ys.flatMap FunctionTree.events ++ p.closing)) :=
    fun e he => hpos e (by
      simp only [p.events_eq, h.functions, List.flatMap_append, List.flatMap_cons, f.events_eq,
        List.mem_append, List.mem_cons] at he ⊢
      tauto)
  obtain ⟨t, hlo, hhi⟩ :=
    (h₃.weaken fun _ _ => trivial).newTemporal h.after hafter hi hq' ha
  have hloc := h₃.locate hfits hlo hhi
  refine ⟨fun hnames => ?_, t, hloc⟩
  have hroomy := h₃.roomy (h₃.fits h₄ hfits)
  obtain ⟨⟨bs, hp, -⟩, -⟩ := h₃
  rcases Nat.lt_or_eq_of_le hk with hlt | rfl
  · have hself : SelfCopies c₃ := h.upTo.selfCopies_of_empty
    obtain ⟨d, ⟨hend, -⟩, -⟩ := runs_cons.1 h.after
    have howes : ¬c₃.OwesResult := by
      cases hend with
      | endFunction hend => exact not_owesResult_of_endFunction hp hend
    have hhanded := h.after.handed_of_names hp hroomy hself howes hlt hq hnames
    refine hhanded.not_free ⟨_, _, hloc, ?_⟩
    rwa [← hp.counters]
  · rw [h.ends] at hq
    obtain rfl := Option.some.inj hq
    rcases hnames with hnames | ⟨_, _, hnames⟩
    · exact absurd hnames List.not_mem_nil
    · simp at hnames

end Phase

theorem exists_phase_of_region (h : TidyRuns p.events {} c)
    (hnames : regions.map Region.name = p.events.filterMap Event.defined?) (hmem : r ∈ regions) :
    ∃ xs f ys c₁ c₂ c₃, Phase p xs f ys c₁ c₂ c₃ c ∧ r.name = f.name := by
  rw [p.defined] at hnames
  obtain ⟨f, hf, hname⟩ := List.mem_map.1 (hnames ▸ List.mem_map_of_mem hmem)
  obtain ⟨xs, ys, hsplit⟩ := List.append_of_mem hf
  obtain ⟨c₁, c₂, c₃, hphase⟩ := exists_phase h hsplit
  exact ⟨xs, f, ys, c₁, c₂, c₃, hphase, hname.symm⟩

end Compiler

open Compiler

/-! ## Calls -/

section

variable {fs gs : List Region} {p : Program} {m inner m' : Machine}

/-- While a call is open, a run is not beyond the region of the function. -/
theorem Returned.zone_lt (hback : c.CallsBack regions) (hlt : ∀ r ∈ regions, r.start < r.stop)
    (hmem : ∀ g ∈ gs ++ r :: fs, g ∈ regions) {as : List Int}
    (h : Returned main c (gs ++ r :: fs) as) : (zone main c (gs ++ r :: fs)).2 < r.stop := by
  have hr : r ∈ regions := hmem r (by simp)
  have hstop : ∀ g ∈ regions, g.stop ≤ r.stop → g.stop - 1 < r.stop := by
    intro g hg hle
    have := hlt g hg
    omega
  induction gs generalizing as with
  | nil => exact hstop r hr (Nat.le_refl _)
  | cons g gs ih =>
    cases as with
    | nil => exact h.elim
    | cons b as =>
      obtain ⟨⟨j, -, hq, -, hj⟩, hrest⟩ := h
      have hg : g ∈ regions := hmem g (by simp)
      have hzone := ih (fun g hg => hmem g (List.mem_cons_of_mem _ hg)) hrest
      exact hstop g hg (hback r hr g hg j (Nat.lt_trans hj hzone) hq)

theorem Inside.lt_stop (hback : c.CallsBack regions) (hlt : ∀ r ∈ regions, r.start < r.stop)
    (h : Inside regions main c fs k m r gs i inner) : i < r.stop := by
  rcases h.stands.inside with ⟨hnil, -⟩ | ⟨-, hhi⟩
  · simp at hnil
  · exact Nat.lt_of_le_of_lt hhi (h.stands.returns.zone_lt hback hlt h.stands.mem)

/-- The quad at an index is run during a call. -/
def Program.During (p : Program) (i : Int) (m : Machine) (l : Int) (inner : Machine) (x : Int) :
    Prop :=
  ∃ j m₁ m₂, p.step i m = .next j m₁ ∧ p.Within m.records.length j m₁ x m₂ ∧
    p.Within m.records.length x m₂ l inner

variable {l j : Int} {t : Ty}

/-- A temporal cell keeps its value in steps of quads that do not name it. -/
theorem Live.read_within (h : c.IsSafe rs bs) (hr : Routed regions main c p)
    (hstands : Stands regions main c fs k m) (hlive : Live c rs k m) {d : Nat}
    (hwithin : p.Within d k m l m') (hloc : Sector.locate? a = some (.temporals, t))
    (hpassed : .num a ∉ Quad.passed c.quads k)
    (hnot : ∀ i n q, p.Within d k m i n → p.Within d i n l m' → c.quads[i.toNat]? = some q →
      ¬q.Names a) :
    m'.memory.read (.ofInt a) = m.memory.read (.ofInt a) := by
  generalize hi : (k : Int) = i at hwithin hnot
  induction hwithin generalizing k fs with
  | refl => rfl
  | @step i j l m m₁ m' hd hstep hrest ih =>
    subst hi
    obtain ⟨q, hq⟩ := hr.program.step_next hstep
    have hnames : ¬q.Names a := hnot k m q (.refl hd) (.step hd hstep hrest) (by simpa using hq)
    have hchanges := (h.step_effect hr.program hq hlive).1
    rw [hstep] at hchanges
    have hread : m₁.memory.read (.ofInt a) = m.memory.read (.ofInt a) :=
      hchanges.memory.read_eq hloc (not_or.2 ⟨hnames, hpassed⟩)
    obtain ⟨gs, j, rfl, hmoves, hlive'⟩ := hlive.step h hr hstands hstep
    have hpassed' : .num a ∉ Quad.passed c.quads j := by
      rw [(h.passed_move hr hstands hq hmoves).1]
      cases hpasses : q.passes? with
      | none => exact List.not_mem_nil
      | some x =>
        rintro (_ | ⟨_, hmem⟩)
        · exact hnames (.inl (Quad.mem_operands_of_passes? hpasses))
        · exact hpassed hmem
    rw [ih (hstands.move hr hmoves) hlive' hpassed' rfl
      fun i n q hw hw' => hnot i n q (.step hd hstep hw) hw', hread]

/-- A call changes no temporal cell but those that are named by quads that are run during the
call. -/
theorem Program.Call.read (h : c.IsSafe rs bs) (hr : Routed regions main c p)
    (hstands : Stands regions main c fs k m) (hlive : Live c rs k m)
    (hcall : p.Call k m l inner j m') (hloc : Sector.locate? a = some (.temporals, t))
    (hnot : ∀ i q, p.During k m l inner i → c.quads[i.toNat]? = some q → ¬q.Names a) :
    m'.memory.read (.ofInt a) = m.memory.read (.ofInt a) := by
  obtain ⟨s, hmem, -, -, -, -, -, m₁, hstep, hwithin, hm₁, hinside⟩ := hcall.entered hr hstands
  obtain ⟨_, -, f, -, -, -, rfl, -⟩ := hcall.returned hr hstands
  obtain ⟨gs, i, hi, -, hlive₁⟩ := hlive.step h hr hstands hstep
  obtain rfl := Int.ofNat.inj hi
  have hnone : .num a ∉ Quad.passed c.quads s.start := by
    rw [(h.start hr.laidOut hmem).2]
    exact List.not_mem_nil
  calc (m.returned inner f).memory.read (.ofInt a)
      = inner.memory.read (.ofInt a) := Memory.read_congr hloc rfl
    _ = m₁.memory.read (.ofInt a) := hlive₁.read_within h hr hinside.stands hwithin hloc hnone
        fun i n q hw hw' => hnot i q ⟨_, m₁, n, hstep, hw, hw'⟩
    _ = m.memory.read (.ofInt a) := by
        rw [hm₁]
        exact Memory.read_congr hloc rfl

end

/-! ## Sources -/

/-- The function that the quad at an index belongs to. Quads of the main part belong to none. -/
def Region.owner? (rs : List Region) (k : Int) : Option String :=
  (rs.find? fun r => decide (r.start ≤ k ∧ k < r.stop)).map Region.name

theorem Region.of_owner? {rs : List Region} {k : Int} (h : owner? rs k = some name) :
    ∃ r ∈ rs, r.name = name ∧ r.start ≤ k ∧ k < r.stop := by
  obtain ⟨r, hr, hname⟩ := Option.map_eq_some_iff.1 h
  exact ⟨r, List.mem_of_find?_eq_some hr, hname, by simpa using List.find?_some hr⟩

/-- Quads of the part that makes a call stand after the function that is called, unless it calls
itself. -/
theorem Compiler.LaidOut.stop_le {rs : List Region} (h : c.LaidOut rs main) (hback : c.CallsBack rs)
    (hs : s ∈ rs) (hq : c.quads[k]? = some [.word "GOSUB", .word s.name])
    (howner : Region.owner? rs i = Region.owner? rs k) (hother : Region.owner? rs k ≠ some s.name)
    (hi : i ≠ 0) : s.stop ≤ i := by
  have hlt : ∀ r ∈ rs, r.start < r.stop := fun r hr => (h.laid r hr).lt
  cases hk : Region.owner? rs k with
  | none =>
    have hmain : main ≤ i := by
      by_contra hnot
      obtain ⟨r, hr, hlo, hhi⟩ := h.contiguous.exists_mem (k := i) (by omega) (by omega)
      rw [hk, Region.owner?, Option.map_eq_none_iff, List.find?_eq_none] at howner
      exact howner r hr (by simp; omega)
    exact Nat.le_trans ((h.contiguous.bounds hlt).2 s hs).2 hmain
  | some name =>
    obtain ⟨r, hr, rfl, hlo, hhi⟩ := Region.of_owner? hk
    obtain ⟨r', hr', hname, hlo', -⟩ := Region.of_owner? (howner.trans hk)
    obtain rfl : r' = r := List.inj_on_of_nodup_map h.names hr' hr hname
    have hle := hback r' hr s hs k (by omega) hq
    have := hlt s hs
    rcases h.contiguous.separate hlt hs hr with rfl | hsep | hsep
    · exact absurd hk hother
    · omega
    · omega

/-- In every run of a source and for every call in it that returns: a temporal cell holds what it
held before the call, unless a quad that names the cell was run during the call. If the function
that was called is not the caller itself, this is so for the cells of all intermediate results of
the caller. -/
def Compiled.KeepsTemporals (line : Nat) (source : String) (randoms : Nat → Value) : Prop :=
  let c := (Compiled.ofSource line source).state
  let p := (Compiled.ofSource line source).program
  ∃ rs main, c.LaidOut rs main ∧
    rs.map Region.name = (Trace.ofSource line source).events.filterMap Event.defined? ∧
    ∀ inputs n k m, (Compiled.ofSource line source).play randoms inputs n = (.unfinished k, m) →
    ∀ l inner j m', p.Call k m l inner j m' →
      ∃ name, c.quads[k.toNat]? = some [.word "GOSUB", .word name] ∧ j = k + 1 ∧
        (∀ a t, Sector.locate? a = some (.temporals, t) →
          (∀ i q, p.During k m l inner i → c.quads[i.toNat]? = some q → ¬q.Names a) →
          m'.memory.read (.ofInt a) = m.memory.read (.ofInt a)) ∧
        ∀ (i : Nat) q a, c.quads[i]? = some q → q.target? = some a →
          Region.owner? rs i = Region.owner? rs k → Region.owner? rs k ≠ some name →
          m'.memory.read (.ofInt a) = m.memory.read (.ofInt a)

/-- Intermediate results are kept across calls, unless a function calls itself and comes to their
quads again. -/
theorem Compiled.temporals_across_calls {line : Nat} {source : String}
    (h : (ofSource line source).rejection = none) (hroom : HasRoom line source)
    (hpow : HasNoPower line source) {randoms : Nat → Value}
    (hrandoms : ∀ n, (randoms n).HasTy .dec) :
    KeepsTemporals line source randoms := by
  obtain ⟨tree, htree, hruns⟩ := exists_runs h
  obtain ⟨rs, main, hr, hnames⟩ := exists_routed h
  obtain ⟨reservations, bs, hsafe⟩ := exists_isSafe h hroom hpow
  have htidy := (tree.laidOut hruns).1
  have hpos : Event.Sized tree.events := htree ▸ hroom.sizes
  have hphases : ∀ r ∈ rs, ∃ xs f ys c₁ c₂ c₃,
      Phase tree xs f ys c₁ c₂ c₃ (ofSource line source).state ∧ r.name = f.name := fun r hmem =>
    exists_phase_of_region htidy (by rw [htree, hnames]) hmem
  -- Functions call themselves or earlier ones only.
  have hback : CallsBack (ofSource line source).state rs := by
    intro r hmem s hs k hk hq
    obtain ⟨xs, f, ys, c₁, c₂, c₃, hphase, hname⟩ := hphases r hmem
    exact hphase.stop_of_call hpos hr hmem hname hs hk hq
  have hlt : ∀ r ∈ rs, r.start < r.stop := fun r hmem => (hr.laidOut.laid r hmem).lt
  refine ⟨rs, main, hr.laidOut, hnames, ?_⟩
  intro inputs n k m hplay l inner j m' hcall
  have hstart : Live _ reservations 0 _ := .start (isPlain h hpow) hrandoms inputs
  obtain ⟨fs, k, rfl, hstands, hlive⟩ :=
    hstart.steps hsafe hr (Stands.start rfl rfl) (Program.run_eq_unfinished.1 hplay)
  obtain ⟨s, hmem, f, hq, -, -, -, m₁, hstep, -, -, hinside⟩ := hcall.entered hr hstands
  obtain ⟨_, -, -, -, -, hj, -, -⟩ := hcall.returned hr hstands
  refine ⟨s.name, by simpa using hq, hj, fun a t => hcall.read hsafe hr hstands hlive, ?_⟩
  intro i q a hqi ha howner hother
  have hi : i ≠ 0 := by
    rintro rfl
    rw [hr.laidOut.first] at hqi
    obtain rfl := Option.some.inj hqi
    rw [Quad.target?_eq_none (by decide)] at ha
    cases ha
  have hstop := hr.laidOut.stop_le hback hmem hq howner hother hi
  obtain ⟨xs, f, ys, c₁, c₂, c₃, hphase, hname⟩ := hphases s hmem
  obtain ⟨-, hend⟩ := hphase.region hr hmem hname
  obtain ⟨-, t, hloc⟩ := hphase.not_names hpos hroom.fits (Nat.le_refl _) hphase.ends
    (by omega) hqi ha
  -- No quad of the call is in the region of the owner, so none names its temporal cell.
  refine hcall.read hsafe hr hstands hlive hloc fun x q' hduring hq' => ?_
  obtain ⟨_, _, _, hstep', hwithin, -⟩ := hduring
  obtain ⟨rfl, rfl⟩ := StepResult.next.inj (hstep'.symm.trans hstep)
  obtain ⟨gs, x, rfl, hinner⟩ := hinside.within hr hwithin
  have hx := hinner.lt_stop hback hlt
  exact (hphase.not_names hpos hroom.fits (by omega) hq' (by omega) hqi ha).1

theorem Compiled.temporals_across_calls_array :
    let source :=
      "program p; int a[2]; fun int f(int n) { return n * 2; } a[f(0)] = (1 + 2) * f(3);"
    (ofSource 1 source).rejection = none ∧ HasRoom 1 source ∧ HasNoPower 1 source ∧
      (∀ n : Nat, ((fun _ => .dec 0.5 : Nat → Value) n).HasTy .dec) ∧
      KeepsTemporals 1 source fun _ => .dec 0.5 := by
  intro source
  refine ⟨?accepted, ?room, ?power, ?randoms,
    temporals_across_calls ?accepted ?room ?power ?randoms⟩
  case randoms => exact fun _ => trivial
  all_goals decide +kernel

end Symphony
