import Symphony.Proofs.Layout

/-!
# The regions of a program

**Theorem (`Tree.laidOut`).** The quads of an accepted source are a jump to the main part, one
region for each function in the order of definition, and the main part. A region starts where its
function does. Its last quad, and no other, ends the function; all jumps stay in it.

The regions are followed from one function to the next (`Between`). Later functions change quads of
earlier ones only by adding fields to copies (`Quad.Alike`), which no property here depends on.
-/

namespace Symphony

variable {c : Compiler} {qs : Array Quad} {rs : List Region} {lo : Nat} {r : Region}

/-- The quads of a function, from the first to the one after the last. -/
structure Region where
  name : String
  start : Nat
  stop : Nat

namespace Region

/-- What the quads of a function are like. -/
structure IsLaid (r : Region) (qs : Array Quad) : Prop where
  lt : r.start < r.stop
  stays : ∀ i q, r.start ≤ i → i + 1 < r.stop → qs[i]? = some q →
    q.StaysWithin r.start (r.stop - 1)
  ends : qs[r.stop - 1]? = some [.word "ENDPROC", .word r.name]

/-- Regions follow each other from one index to another. -/
def Contiguous (lo hi : Nat) : List Region → Prop
  | [] => lo = hi
  | r :: rs => r.start = lo ∧ Contiguous r.stop hi rs

theorem IsLaid.stop_le (h : r.IsLaid qs) : r.stop ≤ qs.size := by
  have h₁ := (Array.getElem?_eq_some_iff.1 h.ends).1
  have h₂ := h.lt
  omega

theorem IsLaid.alike {qs' : Array Quad} (h : r.IsLaid qs) (ha : Quad.AlikeBelow r.stop qs qs') :
    r.IsLaid qs' := by
  have hlt := h.lt
  refine ⟨hlt, fun i q hlo hi hq => ?_, ?_⟩
  · have hsize : i < qs.size := Nat.lt_of_lt_of_le (by omega) h.stop_le
    obtain ⟨q', hq', hqq'⟩ := ha i (by omega) _ (Array.getElem?_eq_getElem hsize)
    rw [hq] at hq'
    cases hq'
    exact hqq'.staysWithin (h.stays i _ hlo hi (Array.getElem?_eq_getElem hsize))
  · obtain ⟨q', hq', hqq'⟩ := ha (r.stop - 1) (by omega) _ h.ends
    rcases hqq' with rfl | ⟨fs, fs', hfs, -⟩
    · exact hq'
    · simp at hfs

/-- A region depends only on its own quads. -/
theorem IsLaid.of_agree {qs' : Array Quad} (h : r.IsLaid qs)
    (ha : ∀ i, r.start ≤ i → qs'[i]? = qs[i]?) : r.IsLaid qs' := by
  have hlt := h.lt
  refine ⟨hlt, fun i q hlo hi hq => h.stays i q hlo hi ?_, ?_⟩
  · rw [← ha i hlo, hq]
  · rw [ha _ (by omega), h.ends]

theorem Contiguous.append {mid : Nat} (h : Contiguous lo mid rs) (r : Region) (hr : r.start = mid) :
    Contiguous lo r.stop (rs ++ [r]) := by
  induction rs generalizing lo with
  | nil =>
    subst h
    exact ⟨hr, rfl⟩
  | cons s rs ih => exact ⟨h.1, ih h.2⟩

theorem Contiguous.bounds {hi : Nat} (h : Contiguous lo hi rs) (hlt : ∀ r ∈ rs, r.start < r.stop) :
    lo ≤ hi ∧ ∀ r ∈ rs, lo ≤ r.start ∧ r.stop ≤ hi := by
  induction rs generalizing lo with
  | nil =>
    subst h
    simp
  | cons s rs ih =>
    obtain ⟨rfl, h⟩ := h
    obtain ⟨hle, hrs⟩ := ih h fun r hr => hlt r (by simp [hr])
    have hs := hlt s (by simp)
    refine ⟨by omega, fun r hr => ?_⟩
    rcases List.mem_cons.1 hr with rfl | hr
    · exact ⟨Nat.le_refl _, hle⟩
    · have := hrs r hr
      omega

end Region

namespace Compiler

open Region

/-- The names and first quads of the main part and of regions. -/
def headsOf (rs : List Region) : List (Scope × Int) :=
  (none, 0) :: rs.map fun r => (some r.name, (r.start : Int))

/-- The state after some functions have been compiled. -/
structure Between (rs : List Region) (c : Compiler) : Prop where
  first : c.quads[0]? = some [.word "GOTO"]
  contiguous : Contiguous 1 c.quads.size rs
  laid : ∀ r ∈ rs, r.IsLaid c.quads
  heads : c.heads = headsOf rs
  names : (rs.map Region.name).Nodup
  selfCalls : ∀ p ∈ c.selfCalls, IsCopy c.quads p.1
  breaks : c.breaks = []
  openLoops : c.openLoops = 0
  scope : c.scope = none

section

variable {c' : Compiler} {is : List Nat}

theorem mem_sizes {ns : List (String × Option Int)} {e : Event} (h : e ∈ Group.sizes ns) :
    e = .dropSize ∨ ∃ t v, e = .constant t v := by
  fun_induction Group.sizes ns with
  | case1 => simp at h
  | case2 _ rest ih => exact ih h
  | case3 _ n rest ih =>
    rcases List.mem_cons.1 h with rfl | h
    · exact .inr ⟨_, _, rfl⟩
    · rcases List.mem_cons.1 h with rfl | h
      · exact .inl rfl
      · exact ih h

/-- Sizes of arrays leave no quads. -/
theorem RunsBy.quads_of_sizes {es : List Event} (h : Runs es c c')
    (hes : ∀ e ∈ es, e = .dropSize ∨ ∃ t v, e = .constant t v) : c'.quads = c.quads := by
  induction h with
  | nil => rfl
  | cons h _ ih =>
    refine (ih fun e he => hes e (by simp [he])).trans ?_
    rcases hes _ (List.mem_cons_self ..) with rfl | ⟨t, v, rfl⟩ <;> cases h <;> rfl

theorem RunsBy.quads_sizesOf {gs : List Group} (h : Runs (sizesOf gs) c c') :
    c'.quads = c.quads := by
  refine h.quads_of_sizes fun e he => ?_
  obtain ⟨g, -, hg⟩ := List.mem_flatMap.1 he
  exact mem_sizes hg

theorem Open.tabulates (h : Open lo is c) (ht : Tabulates c c') :
    Open lo is c' ∧ Advances lo c c' := by
  refine ⟨⟨?_, ?_, ?_, ?_, ?_⟩, ⟨?_, ?_, ht.scope, ht.heads⟩⟩
  · rw [ht.quads]
    exact h.size
  · rw [ht.quads, ht.breaks]
    exact h.pending
  · rw [ht.quads, ht.selfCalls]
    exact h.selfCalls
  · rw [ht.openLoops]
    exact h.openLoops
  · rw [ht.openLoops, ht.breaks]
    exact h.breaks
  · exact Nat.le_of_eq (by rw [ht.quads])
  · rw [ht.quads]
    exact .refl _ _

/-- A region that starts at the end of the quads is open. -/
theorem open_here (hself : ∀ p ∈ c.selfCalls, IsCopy c.quads p.1) (hbreaks : c.breaks = [])
    (hloops : c.openLoops = 0) : Open c.quads.size [] c := by
  refine ⟨Nat.le_refl _, ?_, hself, by omega, fun _ => hbreaks⟩
  rw [hbreaks]
  refine ⟨by simp, by simp, fun i q hi _ hq => ?_⟩
  exact absurd (Array.getElem?_eq_some_iff.1 hq).1 (by omega)

/-- A function with a new name has a name that no region has. -/
theorem Between.new_name (h : Between rs c) {name : String}
    (hnew : c.function? (some name) = none) :
    name ∉ rs.map Region.name := by
  intro hmem
  obtain ⟨r, hr, rfl⟩ := List.mem_map.1 hmem
  have hhead : (some r.name, (r.start : Int)) ∈ c.heads := by
    rw [h.heads]
    exact List.mem_cons_of_mem _ (List.mem_map.2 ⟨r, hr, rfl⟩)
  obtain ⟨f, hf, hfr⟩ := List.mem_map.1 hhead
  have hname : f.name = some r.name := (Prod.mk.inj hfr).1
  simpa [hname] using List.find?_eq_none.1 hnew f hf

theorem Between.lt_size (h : Between rs c) : 0 < c.quads.size :=
  (Array.getElem?_eq_some_iff.1 h.first).1

/-- Laid quads stay as they are while a later region is open. -/
theorem Between.alike (h : Between rs c) (ha : Quad.AlikeBelow c.quads.size c.quads qs) :
    qs[0]? = some [.word "GOTO"] ∧ ∀ r ∈ rs, r.IsLaid qs := by
  refine ⟨?_, fun r hr => (h.laid r hr).alike (ha.mono (h.laid r hr).stop_le)⟩
  obtain ⟨q, hq, rfl | ⟨fs, fs', hfs, -⟩⟩ := ha 0 h.lt_size _ h.first
  · exact hq
  · simp at hfs

/-- The end of a function closes its region. -/
theorem Open.endFunction {name : String} (h : Open lo [] c) (hbreaks : c.breaks = [])
    (hscope : c.scope = some name) (ha : Acts .endFunction c c') :
    IsLaid ⟨name, lo, c'.quads.size⟩ c'.quads := by
  cases ha with
  | endFunction =>
    have hlo := h.size
    have hpending := h.pending
    rw [hbreaks] at hpending
    refine ⟨?_, fun i q hlo hi hq => ?_, ?_⟩
    · simpa [close, emit, updateCurrent] using Nat.lt_succ_of_le hlo
    · simp only [close, emit, updateCurrent, Array.size_push] at hi hq ⊢
      rw [Array.getElem?_push, if_neg (by omega)] at hq
      exact hpending.stays i q hlo (by simp) hq
    · simp [close, emit, updateCurrent, name_current, hscope, Scope.text]

theorem heads_define (c : Compiler) (result : Option Ty) (name : String) :
    (c.define result name).heads = c.heads ++ [(some name, (c.quads.size : Int))] := by
  simp [heads, define, Function.opened]

theorem heads_close (c : Compiler) : c.close.heads = c.heads := by
  have h : Tabulates c (c.updateCurrent fun f => { f with declared := [] }) :=
    tabulates_updateCurrent c fun _ => ⟨rfl, rfl⟩
  exact h.heads

/-- The region of a function that has been compiled. -/
theorem Between.function (h : Between rs c) (f : FunctionTree) (hr : Runs f.events c c')
    (hx : f.body.extras = 0) :
    Between (rs ++ [⟨f.name, c.quads.size, c'.quads.size⟩]) c' ∧ TidyRuns f.events c c' := by
  obtain ⟨c₁, h₁, hr⟩ := runs_cons.1 hr
  obtain ⟨c₂, h₂, hr⟩ := runs_append.1 hr
  obtain ⟨c₃, h₃, hr⟩ := runs_cons.1 hr
  obtain ⟨c₄, h₄, h₅⟩ := runs_append.1 hr
  have hend := runs_singleton.1 h₅
  cases h₁ with
  | defineFunction hnew =>
    have ho : Open c.quads.size [] (c.define f.result f.name) :=
      open_here (c := c.define f.result f.name) h.selfCalls h.breaks h.openLoops
    have p₁ := ho.proceeds h₂ (quiet_sizesOf _)
    have ht : Tabulates c₂ c₃ := by
      cases h₃ with
      | declareLocals hp hv =>
        exact ((tabulates_markFirst c₂).trans hp.tabulates).trans hv.tabulates
    obtain ⟨ho₂, ha₂⟩ := p₁.isOpen.tabulates ht
    have p₃ := f.body.proceeds h₄ hx ho₂
    have hadv := (p₁.advances.trans ha₂).trans p₃.advances
    have hloops : c₄.openLoops = 0 :=
      ((p₃.openLoops.trans ht.openLoops).trans p₁.openLoops).trans h.openLoops
    have hlaid := p₃.isOpen.endFunction (p₃.isOpen.breaks hloops) hadv.scope hend
    refine ⟨?_, .cons ⟨.defineFunction hnew, h.scope⟩ (runs_append.2 ⟨c₂, p₁.tidy,
      .cons ⟨h₃, trivial⟩ (runs_append.2 ⟨c₄, p₃.tidy, runs_singleton.2 ⟨hend, trivial⟩⟩)⟩)⟩
    cases hend with
    | endFunction =>
      -- The quads of the regions before have not been touched.
      have hpush : Quad.AlikeBelow c.quads.size c₄.quads c₄.close.quads :=
        alikeBelow_of_append Array.toList_push c.quads.size
      obtain ⟨hfirst, hold⟩ := h.alike (hadv.below.trans hpush)
      refine ⟨hfirst, h.contiguous.append ⟨f.name, c.quads.size, _⟩ rfl,
        fun r hr => ?_, ?_, ?_,
        fun p hp => (p₃.isOpen.selfCalls p hp).push _, p₃.isOpen.breaks hloops, hloops, rfl⟩
      · rcases List.mem_append.1 hr with hr | hr
        · exact hold r hr
        · rw [List.mem_singleton.1 hr]
          exact hlaid
      · rw [heads_close, hadv.heads, heads_define, h.heads, headsOf, headsOf, List.map_append]
        rfl
      · rw [List.map_append]
        exact List.nodup_append.2 ⟨h.names, by simp, fun a ha b hb hab => by
          obtain rfl : b = f.name := by simpa using hb
          exact h.new_name hnew (hab ▸ ha)⟩

theorem Between.functions {fs : List FunctionTree} (h : Between rs c)
    (hr : Runs (fs.flatMap FunctionTree.events) c c') (hx : FunctionTree.extrasOf fs = 0) :
    TidyRuns (fs.flatMap FunctionTree.events) c c' ∧
      ∃ rs', Between (rs ++ rs') c' ∧ rs'.map Region.name = fs.map FunctionTree.name := by
  induction fs generalizing c rs with
  | nil =>
    obtain rfl := runs_nil.1 hr
    exact ⟨.nil _, [], by rwa [List.append_nil], rfl⟩
  | cons f fs ih =>
    obtain ⟨hx₁, hx₂⟩ : f.body.extras = 0 ∧ FunctionTree.extrasOf fs = 0 := by
      simpa [FunctionTree.extrasOf] using hx
    obtain ⟨c₁, h₁, h₂⟩ := runs_append.1 hr
    obtain ⟨hf, ht₁⟩ := h.function f h₁ hx₁
    obtain ⟨ht₂, rs', hrs', hnames⟩ := ih hf h₂ hx₂
    refine ⟨runs_append.2 ⟨c₁, ht₁, ht₂⟩, ⟨f.name, c.quads.size, c₁.quads.size⟩ :: rs', ?_, ?_⟩
    · rwa [List.append_assoc] at hrs'
    · rw [List.map_cons, List.map_cons, hnames]

end

/-- The quads of a whole program. -/
structure LaidOut (rs : List Region) (main : Nat) (c : Compiler) : Prop where
  first : c.quads[0]? = some [.word "GOTO", .num main]
  contiguous : Contiguous 1 main rs
  laid : ∀ r ∈ rs, r.IsLaid c.quads
  main_le : main ≤ c.quads.size
  stays : ∀ i q, main ≤ i → c.quads[i]? = some q → q.StaysWithin main c.quads.size
  heads : c.heads = headsOf rs
  names : (rs.map Region.name).Nodup

/-- The state before the first function. -/
theorem between_of_globals {gs : List Group} {ds : List Declaration}
    (h : Runs (sizesOf gs ++ [.declareGlobals ds]) {} c) : Between [] c := by
  obtain ⟨c₁, h₁, h₂⟩ := runs_append.1 h
  have hq := h₁.quiet (quiet_sizesOf gs)
  have hquads : c₁.quads = #[] := h₁.quads_sizesOf
  have hself : c₁.selfCalls = [] := by
    refine List.eq_nil_iff_forall_not_mem.2 fun p hp => ?_
    rcases hq.selfCalls p hp with hp | hp
    · simp at hp
    · simp [hquads] at hp
  cases runs_singleton.1 h₂ with
  | declareGlobals hd =>
    have ht := (tabulates_markFirst _).trans hd.tabulates
    refine ⟨?_, ?_, by simp, ?_, by simp, ?_, ?_, ?_, ?_⟩
    · simp [ht.quads, emit, hquads]
    · simp [ht.quads, emit, hquads, Contiguous]
    · rw [ht.heads]
      simp [emit, heads, hq.functions, headsOf, Function.opened]
    · simp [ht.selfCalls, emit, hself]
    · simp [ht.breaks, emit, hq.breaks]
    · simp [ht.openLoops, emit, hq.openLoops]
    · simp [ht.scope, emit, hq.scope]

/-- The main part of a program. -/
theorem Between.main {c' : Compiler} {b : Block} (h : Between rs c)
    (hr : Runs (.enterMain :: (b.events ++ [.finish])) c c') (hx : b.extras = 0) :
    LaidOut rs c.quads.size c' ∧ TidyRuns (.enterMain :: (b.events ++ [.finish])) c c' := by
  obtain ⟨c₁, h₁, hr⟩ := runs_cons.1 hr
  obtain ⟨c₂, h₂, h₃⟩ := runs_append.1 hr
  have hfinish := runs_singleton.1 h₃
  have hmain : c.Tidy .enterMain := ⟨_, h.first, .inl rfl⟩
  have henter := h₁
  cases h₁ with
  | enterMain =>
    have hcopies : ∀ p ∈ c.selfCalls, IsCopy (c.complete 0 [.num c.quads.size]).quads p.1 :=
      fun p hp => (h.selfCalls p hp).modify _ _
    have ho := open_here (c := c.complete 0 [.num c.quads.size]) hcopies h.breaks h.openLoops
    have p₁ := b.proceeds h₂ hx ho
    refine ⟨?_, .cons ⟨henter, hmain⟩ (runs_append.2 ⟨c₂, p₁.tidy,
      runs_singleton.2 ⟨hfinish, trivial⟩⟩)⟩
    cases hfinish with
    | finish =>
      have ho₁ := p₁.isOpen
      have hpending := ho₁.pending
      rw [ho₁.breaks (p₁.openLoops.trans h.openLoops)] at hpending
      rw [Compile.size_complete] at ho₁ hpending
      have hbelow : Quad.AlikeBelow c.quads.size (c.complete 0 [.num c.quads.size]).quads
          c₂.quads := by
        have hbelow := p₁.advances.below
        rwa [Compile.size_complete] at hbelow
      -- The first quad now jumps to here.
      have hfirst : (c.complete 0 [.num c.quads.size]).quads[0]? =
          some [.word "GOTO", .num c.quads.size] := by
        rw [complete, Array.getElem?_modify, if_pos rfl, h.first]
        rfl
      refine ⟨?_, h.contiguous, fun r hr => ?_, ho₁.size, fun i q hi hq => ?_, ?_, h.names⟩
      · obtain ⟨q, hq, rfl | ⟨fs, fs', hfs, -⟩⟩ := hbelow 0 h.lt_size _ hfirst
        · exact hq
        · simp at hfs
      · -- the first quad is not part of a region
        have hlo := ((h.contiguous.bounds fun r hr => (h.laid r hr).lt).2 r hr).1
        refine IsLaid.alike ?_ (hbelow.mono (h.laid r hr).stop_le)
        exact (h.laid r hr).of_agree fun i hi => by
          rw [complete, Array.getElem?_modify, if_neg (by omega)]
      · exact hpending.stays i q hi (by simp) hq
      · exact p₁.advances.heads.trans h.heads

end Compiler

open Compiler

/-- The quads of an accepted program are in regions, one for each function, and its events were
taken in a tidy way. -/
theorem Tree.laidOut {p : Tree} (h : Runs p.events {} c) :
    TidyRuns p.events {} c ∧
      ∃ rs main, LaidOut rs main c ∧ rs.map Region.name = p.functions.map FunctionTree.name := by
  obtain ⟨hx₁, hx₂⟩ : FunctionTree.extrasOf p.functions = 0 ∧ p.main.extras = 0 := by
    simpa [Tree.extras] using p.extras_eq_zero h
  obtain ⟨c₁, h₁, h₂⟩ := runs_append.1 h
  obtain ⟨c₂, h₂, h₃⟩ := runs_cons.1 h₂
  obtain ⟨c₃, h₃, h₄⟩ := runs_append.1 h₃
  have hglobals := between_of_globals (runs_append.2 ⟨c₁, h₁, runs_singleton.2 h₂⟩)
  obtain ⟨ht, rs, hrs, hnames⟩ := hglobals.functions h₃ hx₁
  obtain ⟨hmain, ht'⟩ := hrs.main h₄ hx₂
  exact ⟨runs_append.2 ⟨c₁, h₁.tidy (quiet_sizesOf _), .cons ⟨h₂, trivial⟩
    (runs_append.2 ⟨c₃, ht, ht'⟩)⟩, rs, c₃.quads.size, hmain, hnames⟩

end Symphony
