import Symphony.Proofs.Places

/-!
# How code grows

Quads are added at the end and do not change any more, but for two sorts: a jump waits for its
target, and the copy after a call that a function makes to itself waits for the place of the result.

**Theorem (`RunsBy.born`).** A quad that is there after some events was added by one of them.

**Theorem (`Acts.kept`).** All quads stay as they are, but for jumps that wait and for these copies,
which get their operands when a result is given back.
-/

namespace Symphony

variable {isGlobal : Bool} {N : Scope → Prop} {bs : List Int} {ds : List Declaration}
  {l o : Operand} {rs : List Reservation} {change : Function → Function} {i : Nat} {name : String}
  {ps : List (Nat × List Field)}

namespace Compiler

variable {c c' : Compiler} {e : Event} {es : List Event} {k : Nat} {q : Quad} {w : String}
  {fs : List Field}

/-! ## Completion -/

/-- What completing quads comes to. -/
theorem getElem?_completeAll (c : Compiler) (ps : List (Nat × List Field)) (k : Nat) :
    (c.completeAll ps).quads[k]? =
      (c.quads[k]?).map (· ++ (ps.filter (·.1 == k)).flatMap Prod.snd) := by
  induction ps generalizing c with
  | nil => simp [completeAll]
  | cons p ps ih =>
    rw [show c.completeAll (p :: ps) = (c.complete p.1 p.2).completeAll ps from rfl, ih, complete,
      Array.getElem?_modify]
    by_cases hp : p.1 = k
    · subst hp
      cases c.quads[p.1]? <;> simp
    · simp [hp]

theorem getElem?_completeAll_of_not_mem (h : ∀ p ∈ ps, p.1 ≠ k) :
    (c.completeAll ps).quads[k]? = c.quads[k]? := by
  rw [getElem?_completeAll, List.filter_eq_nil_iff.2 fun p hp => by simpa using h p hp]
  simp

theorem quads_completeAll {d : Compiler} (h : c.quads = d.quads) (ps : List (Nat × List Field)) :
    (c.completeAll ps).quads = (d.completeAll ps).quads :=
  Array.ext_getElem? fun k => by rw [getElem?_completeAll, getElem?_completeAll, h]

theorem WaitsAt.ne (h : c.WaitsAt i) (hq : c.quads[k]? = some q) (hw : ¬q.Waits) : i ≠ k := by
  rintro rfl
  obtain ⟨q', hq', hwait⟩ := h
  obtain rfl := Option.some.inj (hq.symm.trans hq')
  exact hw hwait

theorem grown_completeAll (ps : List (Nat × List Field)) (hq : c.quads[k]? = some q) :
    ∃ fs, (c.completeAll ps).quads[k]? = some (q ++ fs) :=
  ⟨_, by rw [getElem?_completeAll, hq, Option.map_some]⟩

theorem size_emitAll (c : Compiler) (qs : List Quad) :
    (c.emitAll qs).quads.size = c.quads.size + qs.length := by
  rw [← Array.length_toList, emitAll, Array.toList_appendList, List.length_append,
    Array.length_toList]

/-! ## Events that change the code -/

/-- Declarations emit nothing. -/
theorem tabulates_locals {params vars : List Declaration}
    (h : Acts (.declareLocals params vars) c c') : Tabulates c c' := by
  cases h with
  | declareLocals hp hv => exact ((tabulates_markFirst c).trans hp.tabulates).trans hv.tabulates

theorem tabulates_globals {vars : List Declaration} (h : Acts (.declareGlobals vars) c c') :
    Tabulates (c.emit [.word "GOTO"]) c' := by
  cases h with
  | declareGlobals hv => exact (tabulates_markFirst _).trans hv.tabulates

/-- The quads that events add which are not quiet. -/
inductive Marks (e : Event) (c : Compiler) : Quad → Prop
  | goto : e ≠ .giveBack → Marks e c [.word "GOTO"]
  | gotof {x : Operand} {rest : List Operand} : e ≠ .giveBack → c.operands = x :: rest →
      x.kind.agrees (.value .bool) = true → Marks e c [.word "GOTOF", x.place]
  | back {i : Nat} : e = .closeLoop → i ∈ c.jumps → Marks e c [.word "GOTO", .num i]
  | endproc (name : String) : e = .endFunction → Marks e c [.word "ENDPROC", .word name]

/-- What events complete which are not quiet: jumps go on with the next quad, and copies get a
result. -/
inductive Completes (e : Event) (c c' : Compiler) : Nat × List Field → Prop
  | main {t : Nat} : t = c'.quads.size → e = .enterMain → Completes e c c' (0, [.num t])
  | branch {t i : Nat} {rest : List Nat} : t = c'.quads.size → e = .closeIf ∨ e = .elseBranch ∨
      e = .closeLoop → c.jumps = i :: rest → Completes e c c' (i, [.num t])
  | leave {t i : Nat} : t = c'.quads.size → e = .closeLoop → i ∈ c.breaks →
      Completes e c c' (i, [.num t])
  | result {y : Nat × Int} (x : Field) : e = .giveBack → y ∈ c.selfCalls →
      Completes e c c' (y.1, [x, .num y.2])

theorem Acts.code (ha : Acts e c c') (he : e.isQuiet ≠ true) :
    ∃ (added : Option Quad) (ps : List (Nat × List Field)),
      c'.quads = ((c.emitAll added.toList).completeAll ps).quads ∧ (∀ q ∈ added, Marks e c q) ∧
        ∀ p ∈ ps, Completes e c c' p := by
  have hnone : ∀ q ∈ (none : Option Quad), Marks e c q := by simp
  cases ha with
  | declareGlobals hv =>
    exact ⟨some _, [], (tabulates_globals (.declareGlobals hv)).quads,
      by simpa using .goto (by simp), List.forall_mem_nil _⟩
  | declareLocals hp hv =>
    exact ⟨none, [], (tabulates_locals (.declareLocals hp hv)).quads, hnone, List.forall_mem_nil _⟩
  | finish | defineFunction | markLoop | leaveLoop =>
    exact ⟨none, [], rfl, hnone, List.forall_mem_nil _⟩
  | endFunction => exact ⟨some _, [], rfl, by simpa using .endproc _ rfl, List.forall_mem_nil _⟩
  | breakLoop => exact ⟨some _, [], rfl, by simpa using .goto (by simp), List.forall_mem_nil _⟩
  | testIf hx hbool | testLoop hx hbool =>
    exact ⟨some _, [], rfl, by simpa using .gotof (by simp) hx hbool, List.forall_mem_nil _⟩
  | enterMain =>
    exact ⟨none, [(0, _)], rfl, hnone, List.forall_mem_singleton.2 (.main (by simp) rfl)⟩
  | @closeIf _ i rest hj =>
    exact ⟨none, [(i, _)], rfl, hnone, List.forall_mem_singleton.2
      (.branch (by simp) (.inl rfl) hj)⟩
  | @elseBranch _ i rest hj =>
    exact ⟨some _, [(i, _)], rfl, by simpa using .goto (by simp),
      List.forall_mem_singleton.2 (.branch (by simp [emit]) (.inr (.inl rfl)) hj)⟩
  | @closeLoop _ test condition rest hj =>
    refine ⟨some [.word "GOTO", .num condition], _,
      quads_completeAll (by rfl) _, by simpa using .back rfl (by simp [hj]), ?_⟩
    intro p hp
    obtain ⟨i, hi, rfl⟩ := List.mem_map.1 hp
    rcases List.mem_cons.1 hi with rfl | hi
    · exact .branch (by simp [emit]) (.inr (.inr rfl)) hj
    · exact .leave (by simp [emit]) rfl hi
  | @giveBack _ x =>
    refine ⟨none, _, quads_completeAll (by rfl) _, hnone, fun p hp => ?_⟩
    obtain ⟨y, hy, rfl⟩ := List.mem_map.1 hp
    exact .result x.place rfl hy
  | _ => exact absurd rfl he

theorem Acts.mem_jumps (ha : Acts e c c') (hi : i ∈ c'.jumps) : i ∈ c.jumps ∨ i = c.quads.size := by
  by_cases he : e.isQuiet = true
  · exact .inl ((ha.quiet he).jumps ▸ hi)
  · cases ha with
    | declareGlobals hv => exact .inl ((tabulates_globals (.declareGlobals hv)).jumps ▸ hi)
    | declareLocals hp hv => exact .inl ((tabulates_locals (.declareLocals hp hv)).jumps ▸ hi)
    | giveBack =>
      rw [completeAll_eq] at hi
      exact .inl hi
    | closeLoop hj =>
      rw [completeAll_eq] at hi
      exact .inl (by rw [hj]; exact List.mem_cons_of_mem _ (List.mem_cons_of_mem _ hi))
    | closeIf hj => exact .inl (by rw [hj]; exact List.mem_cons_of_mem _ hi)
    | elseBranch hj =>
      rcases List.mem_cons.1 hi with rfl | hi
      · exact .inr rfl
      · exact .inl (by rw [hj]; exact List.mem_cons_of_mem _ hi)
    | testIf | testLoop | markLoop =>
      rcases List.mem_cons.1 hi with rfl | hi
      · exact .inr rfl
      · exact .inl hi
    | enterMain | finish | defineFunction | endFunction | breakLoop | leaveLoop => exact .inl hi
    | _ => exact absurd rfl he

/-! ## Birth -/

theorem Quiet.size_le (h : Quiet c c') : c.quads.size ≤ c'.quads.size := by
  obtain ⟨qs, hqs, -⟩ := h.quads
  rw [← Array.length_toList, ← Array.length_toList, hqs, List.length_append]
  exact Nat.le_add_right _ _

theorem Acts.size_le (h : Acts e c c') : c.quads.size ≤ c'.quads.size := by
  by_cases he : e.isQuiet = true
  · exact (h.quiet he).size_le
  · obtain ⟨added, ps, hcode, -, -⟩ := h.code he
    rw [hcode, Compile.size_completeAll, size_emitAll]
    exact Nat.le_add_right _ _

theorem RunsBy.size_le (h : TidyRuns es c c') : c.quads.size ≤ c'.quads.size := by
  induction h with
  | nil => exact Nat.le_refl _
  | cons h _ ih => exact Nat.le_trans h.1.size_le ih

/-- A new quad was added by one of the events. -/
theorem RunsBy.born (h : TidyRuns es c c') (hlo : c.quads.size ≤ k) (hhi : k < c'.quads.size) :
    ∃ e xs ys c₁ c₂, es = xs ++ e :: ys ∧ TidyRuns xs c c₁ ∧ (Acts e c₁ c₂ ∧ c₁.Tidy e) ∧
      TidyRuns ys c₂ c' ∧ c₁.quads.size ≤ k ∧ k < c₂.quads.size := by
  induction h with
  | nil => omega
  | @cons e es c c₁ c' h hrest ih =>
    by_cases hk : k < c₁.quads.size
    · exact ⟨e, [], es, c, c₁, rfl, .nil _, h, hrest, hlo, hk⟩
    · obtain ⟨e', xs, ys, c₂, c₃, rfl, hxs, he', hys, hlo', hhi'⟩ := ih (Nat.le_of_not_lt hk) hhi
      exact ⟨e', e :: xs, ys, c₂, c₃, rfl, .cons h hxs, he', hys, hlo', hhi'⟩

/-! ## Growth -/

/-- A completed quad is a jump that waits, or the copy of a result. -/
theorem Completes.cases {p : Nat × List Field} (h : Completes e c c' p) (ht : c.Tidy e) :
    (c.WaitsAt p.1 ∧ p.2 = [.num c'.quads.size]) ∨
      e = .giveBack ∧ (∃ y ∈ c.selfCalls, y.1 = p.1) ∧ IsCopy c.quads p.1 := by
  cases h with
  | main hsize he =>
    subst he hsize
    exact .inl ⟨ht, rfl⟩
  | branch hsize he hj =>
    subst hsize
    rcases he with rfl | rfl | rfl
    · exact .inl ⟨ht _ _ hj, rfl⟩
    · exact .inl ⟨ht _ _ hj, rfl⟩
    · exact .inl ⟨ht.1 _ _ hj, rfl⟩
  | leave hsize he hi =>
    subst he hsize
    exact .inl ⟨ht.2 _ hi, rfl⟩
  | result x he hy =>
    subst he
    exact .inr ⟨rfl, ⟨_, hy, rfl⟩, ht _ hy⟩

theorem flatMap_targets {t : Int} (h : ∀ p ∈ ps, p.2 = [.num t]) :
    ps.flatMap Prod.snd = (List.replicate ps.length t).map .num := by
  induction ps with
  | nil => rfl
  | cons p ps ih =>
    obtain ⟨hp, hps⟩ := List.forall_mem_cons.1 h
    rw [List.flatMap_cons, hp, ih hps, List.length_cons, List.replicate_succ, List.map_cons,
      List.singleton_append]

/-- Quads that are completed: jumps get targets, and copies get operands. -/
theorem completeAll_cases {R : Prop} {t : Int}
    (hps : ∀ p ∈ ps, (c.WaitsAt p.1 ∧ p.2 = [.num t]) ∨ R ∧ IsCopy c.quads p.1)
    (hq : c.quads[i]? = some q) :
    (c.completeAll ps).quads[i]? = some q ∨
      (q.Waits ∧ ∃ n, (c.completeAll ps).quads[i]? = some (q ++ (List.replicate n t).map .num)) ∨
      R ∧ ∃ fs gs, q = .word "=" :: fs ∧
        (c.completeAll ps).quads[i]? = some (.word "=" :: (fs ++ gs)) := by
  by_cases hi : ∃ p ∈ ps, p.1 = i
  · obtain ⟨p, hp, rfl⟩ := hi
    rw [getElem?_completeAll, hq, Option.map_some]
    rcases hps p hp with ⟨hwait, -⟩ | ⟨hR, fs, hfs⟩
    · have hwaits : q.Waits := by
        obtain ⟨q', hq', hwaits⟩ := hwait
        rwa [Option.some.inj (hq.symm.trans hq')]
      refine .inr (.inl ⟨hwaits, _, congrArg (some <| q ++ ·) (flatMap_targets fun p' hp' => ?_)⟩)
      obtain ⟨hmem, heq⟩ := List.mem_filter.1 hp'
      rcases hps p' hmem with ⟨-, htarget⟩ | ⟨-, fs, hfs⟩
      · exact htarget
      · rw [beq_iff_eq.1 heq, hq] at hfs
        obtain rfl := Option.some.inj hfs
        rcases hwaits with h | ⟨x, h⟩ <;> simp at h
    · obtain rfl := Option.some.inj (hq.symm.trans hfs)
      exact .inr (.inr ⟨hR, fs, _, rfl, rfl⟩)
  · rw [getElem?_completeAll_of_not_mem fun p hp hpi => hi ⟨p, hp, hpi⟩]
    exact .inl hq

/-- A tidy event adds at most one quad, and then only completes jumps that wait, and copies. -/
theorem Acts.code_tidy (ha : Acts e c c') (ht : c.Tidy e) (he : e.isQuiet ≠ true) :
    ∃ (added : Option Quad) (ps : List (Nat × List Field)),
      c'.quads = ((c.emitAll added.toList).completeAll ps).quads ∧ (∀ q ∈ added, Marks e c q) ∧
        ∀ p ∈ ps, ((c.emitAll added.toList).WaitsAt p.1 ∧ p.2 = [.num c'.quads.size]) ∨
          e = .giveBack ∧ IsCopy (c.emitAll added.toList).quads p.1 := by
  obtain ⟨added, ps, hcode, hadded, hps⟩ := ha.code he
  have hold {i : Nat} {q : Quad} (hq : c.quads[i]? = some q) :
      (c.emitAll added.toList).quads[i]? = some q :=
    getElem?_of_append Array.toList_appendList hq
  refine ⟨added, ps, hcode, hadded, fun p hp => ?_⟩
  rcases (hps p hp).cases ht with ⟨⟨q, hq, hwait⟩, htarget⟩ | ⟨hback, -, fs, hfs⟩
  · exact .inl ⟨⟨q, hold hq, hwait⟩, htarget⟩
  · exact .inr ⟨hback, fs, hold hfs⟩

/-- Quads that do not wait stay as they are, but for the copies that get a result. -/
theorem Acts.kept (ha : Acts e c c') (ht : c.Tidy e) (hq : c.quads[k]? = some q) (hw : ¬q.Waits)
    (hself : e = .giveBack → ∀ p ∈ c.selfCalls, p.1 ≠ k) : c'.quads[k]? = some q := by
  by_cases he : e.isQuiet = true
  · obtain ⟨qs, hqs, -⟩ := (ha.quiet he).quads
    exact getElem?_of_append hqs hq
  · obtain ⟨added, ps, hcode, -, hps⟩ := ha.code he
    rw [hcode, getElem?_completeAll_of_not_mem fun p hp => ?_]
    · exact getElem?_of_append Array.toList_appendList hq
    · rcases (hps p hp).cases ht with ⟨hwait, -⟩ | ⟨hback, ⟨y, hy, hyp⟩, -⟩
      · exact hwait.ne hq hw
      · exact hyp ▸ hself hback y hy

/-- Quads only get longer. -/
theorem Acts.grown (ha : Acts e c c') (hq : c.quads[k]? = some q) :
    ∃ fs, c'.quads[k]? = some (q ++ fs) := by
  by_cases he : e.isQuiet = true
  · obtain ⟨qs, hqs, -⟩ := (ha.quiet he).quads
    exact ⟨[], by rw [getElem?_of_append hqs hq, List.append_nil]⟩
  · obtain ⟨added, ps, hcode, -, -⟩ := ha.code he
    rw [hcode]
    exact grown_completeAll ps (getElem?_of_append Array.toList_appendList hq)

theorem RunsBy.grown (h : TidyRuns es c c') (hq : c.quads[k]? = some q) :
    ∃ fs, c'.quads[k]? = some (q ++ fs) := by
  induction h generalizing q with
  | nil => exact ⟨[], by rw [hq, List.append_nil]⟩
  | cons h _ ih =>
    obtain ⟨fs, hfs⟩ := h.1.grown hq
    obtain ⟨fs', hfs'⟩ := ih hfs
    exact ⟨fs ++ fs', by rw [hfs', List.append_assoc]⟩

/-- Quads that start with this word do not change any more. -/
def IsFinal (w : String) : Prop :=
  w ≠ "GOTO" ∧ w ≠ "GOTOF" ∧ w ≠ "="

instance (w : String) : Decidable (IsFinal w) :=
  inferInstanceAs (Decidable (_ ∧ _ ∧ _))

theorem RunsBy.kept (h : TidyRuns es c c') (hw : IsFinal w)
    (hq : c.quads[k]? = some (.word w :: fs)) : c'.quads[k]? = some (.word w :: fs) := by
  induction h with
  | nil => exact hq
  | cons h _ ih =>
    refine ih (h.1.kept h.2 hq ?_ ?_)
    · rintro (hwait | ⟨x, hwait⟩) <;> cases hwait
      · exact hw.1 rfl
      · exact hw.2.1 rfl
    · rintro rfl p hp rfl
      obtain ⟨gs, hgs⟩ := h.2 p hp
      cases Option.some.inj (hq.symm.trans hgs)
      exact hw.2.2 rfl

/-- A quad that does not change any more is what it was. -/
theorem RunsBy.quad_before (h : TidyRuns es c c') (hp : Placed N rs bs c) (hw : IsFinal w)
    (hk : k < c.quads.size) (hq : c'.quads[k]? = some (.word w :: fs)) :
    c.quads[k]? = some (.word w :: fs) := by
  have hold := Array.getElem?_eq_getElem hk
  obtain ⟨gs, hgs⟩ := h.grown hold
  obtain ⟨w', fs', hq'⟩ := (hp.quads k _ hold).exists_word
  rw [hq', hq] at hgs
  obtain ⟨hword, -⟩ := List.cons.inj (Option.some.inj hgs)
  cases hword
  rw [hq'] at hold
  exact hold.trans ((h.kept hw hold).symm.trans hq)

/-! ## The table of functions -/

theorem function?_of_update
    (h : c'.functions = c.functions.map fun f => if f.name = c.scope then change f else f)
    (hname : ∀ f, (change f).name = f.name) (s : Scope) :
    c'.function? s = (c.function? s).map fun f => if f.name = c.scope then change f else f := by
  have hsame : ((fun f : Function => f.name == s) ∘ fun f =>
      if f.name = c.scope then change f else f) = fun f => f.name == s := by
    funext f
    rw [Function.comp_apply]
    split
    · rw [hname]
    · rfl
  rw [function?, h, List.find?_map, hsame, function?]

theorem name_of_function? {s : Scope} {f : Function} (h : c.function? s = some f) : f.name = s := by
  simpa using List.find?_some h

/-- Functions stay in the table, and only the current one changes, though not in its start nor in
the type of its result. -/
structure KeepsTable (c c' : Compiler) : Prop where
  kept : ∀ {s f}, c.function? s = some f →
    ∃ f', c'.function? s = some f' ∧ f'.start = f.start ∧ f'.result = f.result ∧
      (s ≠ c.scope → f' = f)

theorem KeepsTable.of_functions (h : c'.functions = c.functions) : KeepsTable c c' where
  kept {s f} hf := ⟨f, by rw [function?, h, ← function?, hf], rfl, rfl, fun _ => rfl⟩

theorem KeepsTable.trans {c'' : Compiler} (h : KeepsTable c c') (h' : KeepsTable c' c'')
    (hscope : c'.scope = c.scope) : KeepsTable c c'' where
  kept hf := by
    obtain ⟨f', hf', hstart, hresult, hsame⟩ := h.kept hf
    obtain ⟨f'', hf'', hstart', hresult', hsame'⟩ := h'.kept hf'
    refine ⟨f'', hf'', hstart'.trans hstart, hresult'.trans hresult, fun hs => ?_⟩
    rw [hsame' (by rwa [hscope]), hsame hs]

theorem KeepsTable.of_update
    (h : c'.functions = c.functions.map fun f => if f.name = c.scope then change f else f)
    (hname : ∀ f, (change f).name = f.name) (hstart : ∀ f, (change f).start = f.start)
    (hresult : ∀ f, (change f).result = f.result) : KeepsTable c c' where
  kept {s f} hf := by
    refine ⟨_, by rw [function?_of_update h hname, hf, Option.map_some], ?_, ?_, fun hs => ?_⟩
    · split
      exacts [hstart f, rfl]
    · split
      exacts [hresult f, rfl]
    · rw [if_neg (by rwa [name_of_function? hf])]

theorem DeclaresStep.keepsTable {d : Declaration} (h : DeclaresStep isGlobal d c c') :
    KeepsTable c c' := by
  cases h with
  | one h => cases h <;> exact .of_update rfl (fun _ => rfl) (fun _ => rfl) fun _ => rfl
  | kind | address => exact .of_update rfl (fun _ => rfl) (fun _ => rfl) fun _ => rfl

theorem DeclaresAll.keepsTable (h : DeclaresAll isGlobal ds c c') : KeepsTable c c' :=
  (h.keeps (I := fun d => KeepsTable c d ∧ d.scope = c.scope) (fun _ _ _ _ hs h =>
    ⟨h.1.trans hs.keepsTable h.2, hs.tabulates.scope.trans h.2⟩) ⟨.of_functions rfl, rfl⟩).1

theorem DeclaresParams.keepsTable (h : DeclaresParams isGlobal ds c c') : KeepsTable c c' :=
  (h.keeps (I := fun d => KeepsTable c d ∧ d.scope = c.scope) (fun _ _ _ _ hs h =>
    ⟨h.1.trans hs.keepsTable h.2, hs.tabulates.scope.trans h.2⟩) ⟨.of_functions rfl, rfl⟩).1

theorem keepsTable_markFirst (c : Compiler) : KeepsTable c c.markFirst :=
  .of_update rfl (fun _ => rfl) (fun _ => rfl) fun _ => rfl

theorem Acts.keepsTable (ha : Acts e c c') : KeepsTable c c' := by
  by_cases he : e.isQuiet = true
  · exact .of_functions (ha.quiet he).functions
  · cases ha with
    | declareGlobals hv => exact ⟨((keepsTable_markFirst _).trans hv.keepsTable rfl).kept⟩
    | declareLocals hp hv =>
      exact ((keepsTable_markFirst c).trans hp.keepsTable rfl).trans hv.keepsTable
        hp.tabulates.scope
    | defineFunction =>
      refine ⟨fun {s f} hf => ⟨f, ?_, rfl, rfl, fun _ => rfl⟩⟩
      rw [function?, define, List.find?_append, ← function?, hf]
      rfl
    | endFunction => exact .of_update rfl (fun _ => rfl) (fun _ => rfl) fun _ => rfl
    | giveBack =>
      rw [completeAll_eq]
      exact .of_update rfl (fun _ => rfl) (fun _ => rfl) fun _ => rfl
    | closeLoop =>
      rw [completeAll_eq]
      exact .of_functions rfl
    | enterMain | finish | breakLoop | testIf | closeIf | elseBranch | markLoop | testLoop
    | leaveLoop =>
      exact .of_functions rfl
    | _ => exact absurd rfl he

/-- A function keeps its start and the type of its result. -/
theorem RunsBy.function (h : TidyRuns es c c') {s : Scope} {f : Function}
    (hf : c.function? s = some f) :
    ∃ f', c'.function? s = some f' ∧ f'.start = f.start ∧ f'.result = f.result := by
  induction h generalizing f with
  | nil => exact ⟨f, hf, rfl, rfl⟩
  | cons h _ ih =>
    obtain ⟨f₁, hf₁, hstart, hresult, -⟩ := h.1.keepsTable.kept hf
    obtain ⟨f₂, hf₂, hstart', hresult'⟩ := ih hf₁
    exact ⟨f₂, hf₂, hstart'.trans hstart, hresult'.trans hresult⟩

/-- The current function changes only when a function is defined or ended. -/
theorem Acts.scope (ha : Acts e c c') :
    c'.scope = c.scope ∨ (∃ result name, e = .defineFunction result name ∧
      c.function? (some name) = none ∧ c'.scope = some name) ∨
        (e = .endFunction ∧ c'.scope = none) := by
  by_cases he : e.isQuiet = true
  · exact .inl (ha.quiet he).scope
  · cases ha with
    | declareGlobals hv => exact .inl (tabulates_globals (.declareGlobals hv)).scope
    | declareLocals hp hv => exact .inl (tabulates_locals (.declareLocals hp hv)).scope
    | defineFunction hnew => exact .inr (.inl ⟨_, _, rfl, hnew, rfl⟩)
    | endFunction => exact .inr (.inr ⟨rfl, rfl⟩)
    | giveBack | closeLoop =>
      rw [completeAll_eq]
      exact .inl rfl
    | enterMain | finish | breakLoop | testIf | closeIf | elseBranch | markLoop | testLoop
    | leaveLoop =>
      exact .inl rfl
    | _ => exact absurd rfl he

/-- A function that is not the current one does not change any more. -/
theorem RunsBy.function_closed (h : TidyRuns es c c') {f : Function}
    (hf : c.function? (some name) = some f) (hscope : c.scope ≠ some name) :
    c'.function? (some name) = some f := by
  induction h with
  | nil => exact hf
  | cons h _ ih =>
    obtain ⟨f', hf', -, -, hsame⟩ := h.1.keepsTable.kept hf
    obtain rfl := hsame hscope.symm
    refine ih hf' ?_
    rcases h.1.scope with hs | ⟨-, name', -, hnew, hs⟩ | ⟨-, hs⟩
    · rwa [hs]
    · rw [hs]
      rintro ⟨⟩
      rw [hf] at hnew
      cases hnew
    · rw [hs]
      nofun

/-! ## What events add -/

/-- The quads that are added have a property. -/
def Adds (P : Quad → Prop) (c c' : Compiler) : Prop :=
  ∃ qs, c'.quads.toList = c.quads.toList ++ qs ∧ ∀ q ∈ qs, P q

namespace Adds

variable {P : Quad → Prop} {c'' : Compiler}

theorem of_quads (h : c'.quads = c.quads) : Adds P c c' :=
  ⟨[], by rw [h, List.append_nil], List.forall_mem_nil _⟩

theorem trans (h : Adds P c c') (h' : Adds P c' c'') : Adds P c c'' := by
  obtain ⟨qs, hqs, hP⟩ := h
  obtain ⟨qs', hqs', hP'⟩ := h'
  exact ⟨qs ++ qs', by rw [hqs', hqs, List.append_assoc], List.forall_mem_append.2 ⟨hP, hP'⟩⟩

theorem emit (h : Adds P c c') (hq : P q) : Adds P c (c'.emit q) :=
  h.trans ⟨[q], Array.toList_push, List.forall_mem_singleton.2 hq⟩

theorem of_getElem? (h : Adds P c c') (hk : c.quads.size ≤ k) (hq : c'.quads[k]? = some q) :
    P q := by
  obtain ⟨qs, hqs, hP⟩ := h
  rw [← Array.getElem?_toList, hqs, List.getElem?_append_right (by simpa using hk)] at hq
  exact hP q (List.mem_of_getElem? hq)

end Adds

/-- The operators that an event applies to two operands, when some have been noted. -/
def applied (noted : List String) : Event → List String
  | .power => [BinOp.pow.symbol]
  | .fold o => o.symbol :: noted
  | _ => []

/-- A cell for an intermediate result was handed out between two states. -/
def NewTemporal (c c' : Compiler) (a : Int) : Prop :=
  ∃ t, c.next .temporals t ≤ a ∧ a < c'.next .temporals t

/-- The quads that a quiet event adds. -/
inductive Emitted (e : Event) (c c' : Compiler) : Quad → Prop
  | binary (o : BinOp) (l r : Field) {a : Int} : o.symbol ∈ applied c.chained e →
      NewTemporal c c' a → Emitted e c c' [.word o.symbol, l, r, .num a]
  | unary {o : UnOp} (x : Field) {a : Int} : o.updatesOperand = false → NewTemporal c c' a →
      Emitted e c c' [.word o.mnemonic, x, .num a]
  | update {o : UnOp} (x : Field) : e = .unary o → o.updatesOperand = true →
      Emitted e c c' [.word o.mnemonic, x, x]
  | verify (x : Field) (n : Int) : Emitted e c c' [.word "VER", x, .num 0, .num n]
  | access {name : String} (base x : Field) {a : Int} : e = .useElement name ∨ e = .assign name →
      NewTemporal c c' a → Emitted e c c' [.word "ACCESS", base, x, .num a]
  | assign {name : String} (x d : Field) : e = .assign name → Emitted e c c' [.word "=", x, d]
  | param (x : Field) (i : Int) : Emitted e c c' [.word "PARAM", x, .num i]
  | call {written : String} (name : String) : e = .endCall written →
      Emitted e c c' [.word "GOSUB", .word name]
  /-- The result of a call goes to a new cell. -/
  | result {s : Sector} {t : Ty} (x : Field) : s = variableSector (c.scope == none) →
      c.next s t < c'.next s t → Emitted e c c' [.word "=", x, .num (c.next s t)]
  | selfResult : c'.selfCalls ≠ c.selfCalls → Emitted e c c' [.word "="]
  | special {name : String} {s : Special.Signature} (as : List Int) :
      Special.signature? name = some s → (∀ a ∈ as, NewTemporal c c' a) →
      Emitted e c c' (.word name :: as.map .num)

section

variable {e : Event} {d d' : Compiler}

theorem emitted_passing (c : Compiler) (rest : List Scope) :
    Adds (Emitted e d d') c ({ c with called := rest }.emitAll (passing 1 c.arguments)) := by
  refine ⟨passing 1 c.arguments, Array.toList_appendList, ?_⟩
  generalize c.arguments = xs
  generalize 1 = i
  induction xs generalizing i with
  | nil => exact List.forall_mem_nil _
  | cons x xs ih => exact List.forall_mem_cons.2 ⟨.param _ _, ih _⟩

theorem emitted_enterFunction (c : Compiler) {written : String} (he : e = .endCall written)
    (name : Scope) (rest : List Scope) : Adds (Emitted e d d') c (c.enterFunction name rest) :=
  ((emitted_passing c rest).emit (.call _ he)).trans (.of_quads rfl)

theorem emitted_point (c : Compiler) (he : e = .useElement name ∨ e = .assign name) (base n : Int)
    {t : Ty} (index : Field) (hnew : NewTemporal d d' (c.next .temporals t)) :
    Adds (Emitted e d d') c (c.point base n t index) :=
  have h : Adds (Emitted e d d') c (c.emit [.word "VER", index, .num 0, .num n]) :=
    .emit (.of_quads rfl) (.verify _ _)
  .emit (h.trans (.of_quads rfl)) (.access _ _ he hnew)

theorem lt_next_reserve (c : Compiler) (s : Sector) (t : Ty) :
    c.next s t < (c.reserve s t 1).next s t := by
  simp only [next, reserve, PerSector.get_set_self, PerTy.get_set_self]
  exact Int.lt_succ _

theorem Operates.next {op : String} {r : Operand} (h : Operates op l r c o c') (s : Sector)
    (t : Ty) : c.next s t ≤ c'.next s t := by
  cases h with
  | @mk _ _ _ u =>
    have := next_reserve c .temporals s u t 1
    change c.next s t ≤ (c.reserve .temporals u 1).next s t
    split at this <;> omega

theorem Folds.next {rest : List (Operand × String)} (h : Folds l rest c o c') (s : Sector)
    (t : Ty) : c.next s t ≤ c'.next s t := by
  induction h with
  | nil => exact Int.le_refl _
  | cons hop _ ih => exact Int.le_trans (hop.next s t) ih

theorem Operates.emitted {op : String} {r : Operand} (h : Operates op l r c o c')
    (hop : op ∈ applied d.chained e) (hlo : ∀ t, d.next .temporals t ≤ c.next .temporals t)
    (hhi : ∀ t, c'.next .temporals t ≤ d'.next .temporals t) : Adds (Emitted e d d') c c' := by
  cases h with
  | @mk b _ _ t _ _ hb =>
    obtain rfl : b.symbol = op := by simpa using List.find?_some hb
    exact .emit (.of_quads rfl)
      (.binary b _ _ hop ⟨t, hlo t, Int.lt_of_lt_of_le (lt_next_reserve c _ t) (hhi t)⟩)

theorem Folds.emitted {rest : List (Operand × String)} (h : Folds l rest c o c')
    (hrest : ∀ p ∈ rest, p.2 ∈ applied d.chained e)
    (hlo : ∀ t, d.next .temporals t ≤ c.next .temporals t)
    (hhi : ∀ t, c'.next .temporals t ≤ d'.next .temporals t) : Adds (Emitted e d d') c c' := by
  induction h with
  | nil => exact .of_quads rfl
  | cons h hfolds ih =>
    obtain ⟨hfirst, hrest⟩ := List.forall_mem_cons.1 hrest
    exact (h.emitted hfirst hlo fun t => Int.le_trans (hfolds.next _ t) (hhi t)).trans
      (ih hrest (fun t => Int.le_trans (hlo t) (h.next _ t)) hhi)

end

theorem Acts.emitted (ha : Acts e c c') (he : e.isQuiet = true) : Adds (Emitted e c c') c c' := by
  have hnew : ∀ t, (c.reserve .temporals t 1).next .temporals t ≤ c'.next .temporals t →
      NewTemporal c c' (c.next .temporals t) :=
    fun t h => ⟨t, Int.le_refl _, Int.lt_of_lt_of_le (lt_next_reserve c _ t) h⟩
  cases ha with
  | oldConstant | newConstant | dropSize | useVariable | selectElement | chain | beginCall
  | beginSpecial | argument => exact .of_quads rfl
  | @useElement _ _ _ rest _ _ _ t =>
    exact (emitted_point { c with operands := rest } (.inl rfl) _ _ _
      (hnew t (Int.le_refl _))).trans (.of_quads rfl)
  | assignVariable => exact .emit (.of_quads rfl) (.assign _ _ rfl)
  | @assignElement _ _ _ _ _ rest _ _ t =>
    exact (emitted_point { c with operands := rest, offset := none } (.inr rfl) _ _ _
      (hnew t (Int.le_refl _))).emit (.assign _ _ rfl)
  | power _ h =>
    exact Adds.trans (h.emitted (List.mem_singleton_self _) (fun _ => Int.le_refl _)
      fun _ => Int.le_refl _) (.of_quads rfl)
  | fold _ h =>
    exact Adds.trans (h.emitted (fun p hp => (List.of_mem_zip hp).2) (fun _ => Int.le_refl _)
      fun _ => Int.le_refl _) (.of_quads rfl)
  | update _ _ _ ho => exact Adds.trans (.emit (.of_quads rfl) (.update _ rfl ho)) (.of_quads rfl)
  | @unary _ _ _ _ _ u _ _ _ ho =>
    exact Adds.trans (.emit (.of_quads rfl) (.unary _ ho (hnew u (Int.le_refl _)))) (.of_quads rfl)
  | @callVoid _ _ name rest => exact emitted_enterFunction c rfl name rest
  | @callKnown _ _ name rest _ _ t =>
    exact .emit ((emitted_enterFunction c rfl name rest).trans (.of_quads rfl))
      (.result _ rfl (lt_next_reserve c _ t))
  | @callSelf _ _ name rest =>
    refine .emit ((emitted_enterFunction c rfl name rest).trans (.of_quads rfl))
      (.selfResult fun h => ?_)
    exact absurd (congrArg List.length h) (by simp [Compiler.emit, push, reserve])
  | @specialVoid _ _ _ rest _ _ hsig =>
    exact ((emitted_passing c rest).emit (.special [] hsig (List.forall_mem_nil _))).trans
      (.of_quads rfl)
  | @specialValue _ _ _ rest _ t _ hsig =>
    exact Adds.trans (.emit ((emitted_passing c rest).trans (.of_quads rfl))
      (.special [c.next .temporals t] hsig (List.forall_mem_singleton.2 (hnew t (Int.le_refl _)))))
      (.of_quads rfl)
  | _ => cases he

theorem Emitted.endCall (h : Emitted e c c' (.word "GOSUB" :: fs)) : ∃ w, e = .endCall w := by
  generalize hq : Field.word "GOSUB" :: fs = q at h
  cases h with
  | call _ he => exact ⟨_, he⟩
  | binary o => cases o <;> simp [BinOp.symbol] at hq
  | @update o | @unary o => cases o <;> simp [UnOp.mnemonic] at hq
  | special as hs =>
    obtain rfl : "GOSUB" = _ := by simpa using (List.cons.inj hq).1
    simp [Special.signature?] at hs
  | _ => simp at hq

theorem Special.ne_call {s : Special.Signature} (h : Special.signature? name = some s) :
    name ≠ "GOSUB" := by
  rintro rfl
  simp [Special.signature?] at h

/-! ## Where calls come from -/

theorem eq_of_getElem?_push {qs : Array Quad} {q' : Quad} (hk : qs.size ≤ k)
    (h : (qs.push q)[k]? = some q') : q' = q := by
  rw [Array.getElem?_push] at h
  split at h
  · exact (Option.some.inj h).symm
  · have := (Array.getElem?_eq_some_iff.1 h).1
    omega

theorem quad_before_push {qs : Array Quad} {gs : List Field} (hw : w ≠ "GOSUB")
    (h : (qs.push (.word w :: fs))[k]? = some (.word "GOSUB" :: gs)) :
    qs[k]? = some (.word "GOSUB" :: gs) := by
  rw [Array.getElem?_push] at h
  split at h
  · exact absurd (Field.word.inj (List.cons.inj (Option.some.inj h)).1) hw
  · exact h

/-- A quad that is added by an event that is not quiet may be completed by it. -/
theorem Acts.exists_marks (ha : Acts e c c') (he : e.isQuiet ≠ true) (hk : c.quads.size ≤ k)
    (hq : c'.quads[k]? = some q) :
    ∃ q₀ fs, Marks e c q₀ ∧ q = q₀ ++ fs ∧ ∀ f ∈ fs, ∃ t : Int, f = .num t := by
  obtain ⟨added, ps, hcode, hadded, hps⟩ := ha.code he
  rw [hcode, getElem?_completeAll] at hq
  obtain ⟨q₀, hq₀, rfl⟩ := Option.map_eq_some_iff.1 hq
  have hadds : Adds (Marks e c) c (c.emitAll added.toList) :=
    ⟨_, Array.toList_appendList, fun q hq => hadded q (Option.mem_toList.1 hq)⟩
  have hmarks := hadds.of_getElem? hk hq₀
  refine ⟨q₀, _, hmarks, rfl, fun f hf => ?_⟩
  obtain ⟨p, hp, hfp⟩ := List.mem_flatMap.1 hf
  cases hps p (List.mem_filter.1 hp).1 with
  | main | branch | leave => exact ⟨_, List.mem_singleton.1 hfp⟩
  | result _ hback =>
    subst hback
    cases hmarks with
    | goto hne | gotof hne => exact absurd rfl hne
    | back hloop => cases hloop
    | endproc _ hend => cases hend

/-- Events that are not quiet add only jumps and ends of functions. -/
theorem Acts.word_of_not_isQuiet (ha : Acts e c c') (he : e.isQuiet ≠ true) (hk : c.quads.size ≤ k)
    (hq : c'.quads[k]? = some (.word w :: fs)) : w = "GOTO" ∨ w = "GOTOF" ∨ w = "ENDPROC" := by
  obtain ⟨q₀, gs, hmarks, heq, -⟩ := ha.exists_marks he hk hq
  cases hmarks <;> simp at heq <;> simp [heq.1]

/-- Calls are added only at the end of a call in the source. -/
theorem Acts.endCall_of_call (ha : Acts e c c') (hk : c.quads.size ≤ k)
    (hq : c'.quads[k]? = some (.word "GOSUB" :: fs)) : ∃ w, e = .endCall w := by
  by_contra hcall
  by_cases he : e.isQuiet = true
  · exact hcall ((ha.emitted he).of_getElem? hk hq).endCall
  · exact absurd (ha.word_of_not_isQuiet he hk hq) (by decide)

theorem size_enterFunction (c : Compiler) (name : Scope) (rest : List Scope) :
    (c.enterFunction name rest).quads.size = c.quads.size + (passing 1 c.arguments).length + 1 := by
  rw [enterFunction, emit, Array.size_push, size_emitAll]

/-- Among the quads of a call, the call itself is the last one. -/
theorem eq_of_enterFunction {name : Scope} {rest : List Scope} (hk : c.quads.size ≤ k)
    (hq : (c.enterFunction name rest).quads[k]? = some (.word "GOSUB" :: fs)) :
    k + 1 = (c.enterFunction name rest).quads.size ∧ fs = [.word name.text] := by
  rw [size_enterFunction]
  rw [show (c.enterFunction name rest).quads = (c.quads ++ passing 1 c.arguments).push
      [.word "GOSUB", .word name.text] from rfl, Array.getElem?_push] at hq
  have hsize : (c.quads ++ passing 1 c.arguments).size = c.quads.size +
      (passing 1 c.arguments).length :=
    size_emitAll c _
  split at hq
  case isTrue h =>
    refine ⟨by omega, ?_⟩
    exact ((List.cons.inj (Option.some.inj hq)).2).symm
  case isFalse h =>
    -- an event that ends no call could add the same arguments
    have hpassing : Adds (Emitted .argument c c) c _ := emitted_passing c rest
    obtain ⟨_, hcall⟩ := (hpassing.of_getElem? hk hq).endCall
    cases hcall

/-- Where the result of a call goes: to a new cell, from the place that the function has named or
will name. -/
theorem Acts.copy_of_call (ha : Acts e c c') (hk : c.quads.size ≤ k)
    (hq : c'.quads[k]? = some (.word "GOSUB" :: fs)) :
    ∃ name f, c.called.head? = some name ∧ c.function? name = some f ∧ fs = [.word name.text] ∧
      (f.result ≠ none → ∃ t, ∃ a, a = c.next (variableSector (c.scope == none)) t ∧
        a < c'.next (variableSector (c.scope == none)) t ∧
        ((∃ place, f.returnPlace = some place ∧
          c'.quads[k + 1]? = some [.word "=", place, .num a]) ∨
          (f.returnPlace = none ∧ (k + 1, a) ∈ c'.selfCalls ∧
            c'.quads[k + 1]? = some [.word "="]))) := by
  obtain ⟨w, rfl⟩ := ha.endCall_of_call hk hq
  cases ha with
  | callVoid hcalled hf _ _ hres =>
    exact ⟨_, _, by simp [hcalled], hf, (eq_of_enterFunction hk hq).2, fun h => absurd hres h⟩
  | @callKnown _ _ name rest f l t place hcalled hf _ _ _ _ hplace =>
    obtain ⟨hsize, rfl⟩ := eq_of_enterFunction hk (quad_before_push (by decide) hq)
    refine ⟨name, f, by simp [hcalled], hf, rfl, fun _ => ⟨t, _, rfl, ?_, .inl ⟨place, hplace, ?_⟩⟩⟩
    · exact lt_next_reserve c _ t
    · rw [hsize]
      exact Array.getElem?_push_size
  | @callSelf _ _ name rest f l t hcalled hf _ _ _ _ hplace =>
    obtain ⟨hsize, rfl⟩ := eq_of_enterFunction hk (quad_before_push (by decide) hq)
    refine ⟨name, f, by simp [hcalled], hf, rfl, fun _ => ⟨t, _, rfl, ?_, .inr ⟨hplace, ?_, ?_⟩⟩⟩
    · exact lt_next_reserve c _ t
    · rw [hsize]
      exact List.mem_append_right _ List.mem_cons_self
    · rw [hsize]
      exact Array.getElem?_push_size

/-! ## Copies of results -/

/-- The names of functions, with what is known about their results. -/
def outcomes (c : Compiler) : List (Scope × Option Kind × Option Field) :=
  c.functions.map fun f => (f.name, f.result, f.returnPlace)

/-- The current function has yet to say where its result is. -/
def OwesResult (c : Compiler) : Prop :=
  ∃ o ∈ c.outcomes, o.1 = c.scope ∧ o.2.1 ≠ none ∧ o.2.2 = none

/-- The operands of a copy to one address, which may have been completed several times. -/
def copyFields (places : List Field) (a : Int) : List Field :=
  places.flatMap fun p => [p, .num a]

/-- The copies after calls that functions make to themselves. -/
structure SelfCopies (c : Compiler) : Prop where
  nodup : (c.selfCalls.map Prod.fst).Nodup
  copies : ∀ p ∈ c.selfCalls, ∃ places, c.quads[p.1]? = some (.word "=" :: copyFields places p.2) ∧
    (places = [] → c.OwesResult)
  owing : ∀ o ∈ c.outcomes, o.2.1 ≠ none → o.2.2 = none → o.1 = c.scope
  main : ∀ o ∈ c.outcomes, o.1 = none → o.2.1 = none

theorem Operates.selfCalls {op : String} {r : Operand} (h : Operates op l r c o c') :
    c'.selfCalls = c.selfCalls := by
  cases h with
  | mk => rfl

theorem Folds.selfCalls {rest : List (Operand × String)} (h : Folds l rest c o c') :
    c'.selfCalls = c.selfCalls :=
  (congrArg Compiler.selfCalls h.rest_eq :)

/-- Only a call of a function whose result has no place yet is noted. -/
theorem Acts.selfCalls (ha : Acts e c c') :
    c'.selfCalls = c.selfCalls ∨
      ∃ i a s f, c'.selfCalls = c.selfCalls ++ [(i, a)] ∧ c.quads.size ≤ i ∧
        c'.quads[i]? = some [.word "="] ∧ c.function? s = some f ∧ f.result ≠ none ∧
        f.returnPlace = none ∧ c.called.head? = some s ∧ ∃ w, e = .endCall w := by
  cases ha with
  | declareGlobals hv => exact .inl (tabulates_globals (.declareGlobals hv)).selfCalls
  | declareLocals hp hv => exact .inl (tabulates_locals (.declareLocals hp hv)).selfCalls
  | power _ hop => exact .inl hop.selfCalls
  | fold _ hfold => exact .inl hfold.selfCalls
  | giveBack =>
    left
    rw [completeAll_eq]
    rfl
  | closeLoop =>
    left
    rw [completeAll_eq]
    rfl
  | @callSelf _ _ name rest f k _ hcalled hf _ _ hres _ hplace =>
    refine .inr ⟨_, _, name, f, rfl, ?_, ?_, hf, by simp [hres], hplace, by simp [hcalled], _, rfl⟩
    · exact (Quiet.enterFunction c name rest).size_le
    · simp [emit, push, reserve]
  | _ => exact .inl rfl

/-- Calls that were noted keep their copies as long as the current function does not change. -/
theorem SelfCopies.keep (h : SelfCopies c)
    (hkept : ∀ (k : Nat) (fs : List Field),
      c.quads[k]? = some (.word "=" :: fs) → c'.quads[k]? = some (.word "=" :: fs))
    (hself : c'.selfCalls = c.selfCalls) (hout : c'.outcomes = c.outcomes)
    (hscope : c'.scope = c.scope) : SelfCopies c' := by
  refine ⟨by rw [hself]; exact h.nodup, fun p hp => ?_, by rw [hout, hscope]; exact h.owing,
    by rw [hout]; exact h.main⟩
  rw [hself] at hp
  obtain ⟨places, hcopy, hnil⟩ := h.copies p hp
  refine ⟨places, hkept _ _ hcopy, fun hp => ?_⟩
  rw [OwesResult, hout, hscope]
  exact hnil hp

theorem SelfCopies.quiet (h : SelfCopies c) (ha : Acts e c c') (he : e.isQuiet = true) :
    SelfCopies c' := by
  have hq := ha.quiet he
  obtain ⟨qs, hqs, -⟩ := hq.quads
  have hout : c'.outcomes = c.outcomes := by rw [outcomes, outcomes, hq.functions]
  have hkept : ∀ (k : Nat) (fs : List Field), c.quads[k]? = some (.word "=" :: fs) →
      c'.quads[k]? = some (.word "=" :: fs) := fun k fs hk => getElem?_of_append hqs hk
  rcases ha.selfCalls with hsame | ⟨i, a, s, f, hnew, hi, hcopy, hf, hres, hplace, -⟩
  · exact h.keep hkept hsame hout hq.scope
  · have hold : SelfCopies { c' with selfCalls := c.selfCalls } := h.keep hkept rfl hout hq.scope
    refine ⟨?_, ?_, hold.owing, hold.main⟩
    · rw [hnew, List.map_append, List.nodup_append]
      refine ⟨h.nodup, by simp, fun j hj j' hj' => ?_⟩
      obtain ⟨p, hp, rfl⟩ := List.mem_map.1 hj
      obtain ⟨places, hcopy, -⟩ := h.copies p hp
      have hlt := (Array.getElem?_eq_some_iff.1 hcopy).1
      obtain rfl : j' = i := by simpa using hj'
      omega
    · rw [hnew]
      refine List.forall_mem_append.2 ⟨hold.copies, List.forall_mem_singleton.2 ⟨[], hcopy,
        fun _ => ?_⟩⟩
      have hmem : (f.name, f.result, f.returnPlace) ∈ c.outcomes :=
        List.mem_map.2 ⟨f, List.mem_of_find?_eq_some hf, rfl⟩
      rw [OwesResult, hout, hq.scope]
      exact ⟨_, hmem, h.owing _ hmem hres hplace, hres, hplace⟩

theorem outcomes_updateCurrent
    (h : ∀ f, ((change f).name, (change f).result, (change f).returnPlace) =
      (f.name, f.result, f.returnPlace)) : (c.updateCurrent change).outcomes = c.outcomes := by
  rw [outcomes, outcomes, updateCurrent, List.map_map]
  refine List.map_congr_left fun f _ => ?_
  rw [Function.comp_apply]
  split
  · exact h f
  · rfl

theorem DeclaresStep.outcomes {d : Declaration} (h : DeclaresStep isGlobal d c c') :
    c'.outcomes = c.outcomes := by
  cases h with
  | one h => cases h <;> exact outcomes_updateCurrent fun _ => rfl
  | kind | address => exact outcomes_updateCurrent fun _ => rfl

theorem DeclaresAll.outcomes (h : DeclaresAll isGlobal ds c c') : c'.outcomes = c.outcomes :=
  h.keeps (fun _ _ _ _ hs h => hs.outcomes.trans h) rfl

theorem DeclaresParams.outcomes (h : DeclaresParams isGlobal ds c c') :
    c'.outcomes = c.outcomes :=
  h.keeps (fun _ _ _ _ hs h => hs.outcomes.trans h) rfl

/-- When no result is owed, all copies have their operands. -/
theorem SelfCopies.filled (h : SelfCopies c) (howes : ¬c.OwesResult) {p : Nat × Int}
    (hp : p ∈ c.selfCalls) :
    ∃ place places, c.quads[p.1]? = some (.word "=" :: copyFields (place :: places) p.2) := by
  obtain ⟨places, hcopy, hnil⟩ := h.copies p hp
  cases places with
  | nil => exact absurd (hnil rfl) howes
  | cons place places => exact ⟨place, places, hcopy⟩

theorem SelfCopies.define (h : SelfCopies c) (hscope : c.scope = none) (result : Option Ty)
    (name : String) : SelfCopies (c.define result name) := by
  have hnone : ∀ o ∈ c.outcomes, o.2.1 ≠ none → o.2.2 = none → False := fun o ho hres hplace =>
    hres (h.main o ho ((h.owing o ho hres hplace).trans hscope))
  have howes : ¬c.OwesResult := fun ⟨o, ho, _, hres, hplace⟩ => hnone o ho hres hplace
  have hout : (c.define result name).outcomes =
      c.outcomes ++ [(some name, result.map Kind.value, none)] := by
    simp [outcomes, Compiler.define, Function.opened]
  refine ⟨h.nodup, fun p hp => ?_, ?_, ?_⟩
  · obtain ⟨place, places, hcopy⟩ := h.filled howes hp
    exact ⟨place :: places, hcopy, by simp⟩
  · rw [hout]
    refine List.forall_mem_append.2 ⟨fun o ho hres hplace => ?_, List.forall_mem_singleton.2 ?_⟩
    · exact (hnone o ho hres hplace).elim
    · exact fun _ _ => rfl
  · rw [hout]
    exact List.forall_mem_append.2 ⟨h.main, List.forall_mem_singleton.2 (by simp)⟩

/-- At the end of a function no result is owed. -/
theorem not_owesResult_of_endFunction (hp : Placed N rs bs c)
    (hend : c.current.result = none ∨ c.current.returnPlace ≠ none) : ¬c.OwesResult := by
  rintro ⟨o, ho, hscope, hres, hplace⟩
  obtain ⟨f, hf, rfl⟩ := List.mem_map.1 ho
  rw [hp.current_eq hf hscope] at hend
  exact hend.elim hres (· hplace)

theorem SelfCopies.close (h : SelfCopies c) (howes : ¬c.OwesResult) : SelfCopies c.close := by
  have hout : c.close.outcomes = c.outcomes := outcomes_updateCurrent fun _ => rfl
  refine ⟨h.nodup, fun p hp => ?_, ?_, by rw [hout]; exact h.main⟩
  · obtain ⟨place, places, hcopy⟩ := h.filled howes hp
    exact ⟨place :: places, getElem?_of_append Array.toList_push hcopy, nofun⟩
  · rw [hout]
    exact fun o ho hres hplace => (howes ⟨o, ho, h.owing o ho hres hplace, hres, hplace⟩).elim

theorem copyFields_append (places : List Field) (p : Field) (a : Int) :
    copyFields places a ++ [p, .num a] = copyFields (places ++ [p]) a := by
  simp [copyFields]

/-- The fields that a call gets when its result is given back. -/
theorem filter_selfCalls {ps : List (Nat × Int)} (h : (ps.map Prod.fst).Nodup) {p : Nat × Int}
    (hp : p ∈ ps) (x : Field) :
    (ps.map fun (q : Nat × Int) => (q.1, [x, Field.num q.2])).filter (·.1 == p.1) =
      [(p.1, [x, .num p.2])] := by
  induction ps with
  | nil => cases hp
  | cons q ps ih =>
    obtain ⟨hnew, hnodup⟩ := List.nodup_cons.1 h
    rcases List.mem_cons.1 hp with rfl | hp
    · rw [List.map_cons, List.filter_cons_of_pos (by simp), List.filter_eq_nil_iff.2]
      intro r hr
      obtain ⟨q, hq, rfl⟩ := List.mem_map.1 hr
      simpa using fun hqp => hnew (List.mem_map.2 ⟨q, hq, hqp⟩)
    · have hne : q.1 ≠ p.1 := fun hqp => hnew (List.mem_map.2 ⟨p, hp, hqp.symm⟩)
      rw [List.map_cons, List.filter_cons_of_neg (by simpa using hne), ih hnodup hp]

theorem SelfCopies.giveBack (h : SelfCopies c) (ha : Acts .giveBack c c') : SelfCopies c' := by
  cases ha with
  | @giveBack _ x rest k =>
    let d := { c with operands := rest }.updateCurrent fun f =>
      { f with returnPlace := some x.place }
    have houtcome : ∀ o ∈ d.outcomes, o ∈ c.outcomes ∧ o.1 ≠ c.scope ∨
        ∃ o' ∈ c.outcomes, o'.1 = o.1 ∧ o'.2.1 = o.2.1 ∧ o.2.2 ≠ none := by
      intro o ho
      obtain ⟨f', hf', rfl⟩ := List.mem_map.1 ho
      obtain ⟨f, hf, rfl⟩ := List.mem_map.1 hf'
      have hmem : (f.name, f.result, f.returnPlace) ∈ c.outcomes := List.mem_map.2 ⟨f, hf, rfl⟩
      split
      case isTrue => exact .inr ⟨_, hmem, rfl, rfl, nofun⟩
      case isFalse hne => exact .inl ⟨hmem, hne⟩
    generalize hd : Compiler.completeAll _ _ = e
    have he := hd
    rw [completeAll_eq] at he
    subst he
    refine ⟨h.nodup, fun p hp => ?_, fun o ho hres hplace => ?_, fun o ho hname => ?_⟩
    · obtain ⟨places, hcopy, -⟩ := h.copies p hp
      refine ⟨places ++ [x.place], ?_, by simp⟩
      rw [← hd, getElem?_completeAll, show d.quads[p.1]? = _ from hcopy,
        filter_selfCalls h.nodup hp, ← copyFields_append]
      simp
    · rcases houtcome o ho with ⟨ho, hne⟩ | ⟨o', -, -, -, hsome⟩
      · exact absurd (h.owing o ho hres hplace) hne
      · exact absurd hplace hsome
    · rcases houtcome o ho with ⟨ho, -⟩ | ⟨o', ho', hname', hres', -⟩
      · exact h.main o ho hname
      · rw [← hres']
        exact h.main o' ho' (hname'.trans hname)

/-- Every event keeps the copies of results in order. -/
theorem Acts.selfCopies (ha : Acts e c c') (ht : c.Tidy e) (hp : Placed N rs bs c)
    (h : SelfCopies c) : SelfCopies c' := by
  by_cases he : e.isQuiet = true
  · exact h.quiet ha he
  · have hkept : e ≠ .giveBack → ∀ (k : Nat) (fs : List Field), c.quads[k]? =
        some (.word "=" :: fs) → c'.quads[k]? = some (.word "=" :: fs) := fun hne k fs hk =>
      ha.kept ht hk (by simp [Quad.Waits]) fun heq => absurd heq hne
    cases ha with
    | giveBack h₁ h₂ h₃ h₄ h₅ h₆ => exact h.giveBack (.giveBack h₁ h₂ h₃ h₄ h₅ h₆)
    | defineFunction => exact h.define ht _ _
    | endFunction hend => exact h.close (not_owesResult_of_endFunction hp hend)
    | declareGlobals hv =>
      have ht := tabulates_globals (.declareGlobals hv)
      exact h.keep (hkept (by simp)) ht.selfCalls
        (hv.outcomes.trans (outcomes_updateCurrent fun _ => rfl)) ht.scope
    | declareLocals hq hv =>
      have ht := tabulates_locals (.declareLocals hq hv)
      exact h.keep (hkept (by simp)) ht.selfCalls
        ((hv.outcomes.trans hq.outcomes).trans (outcomes_updateCurrent fun _ => rfl)) ht.scope
    | closeLoop =>
      have hkept := hkept (by simp)
      generalize hd : Compiler.completeAll _ _ = d at hkept ⊢
      rw [completeAll_eq] at hd
      subst hd
      exact h.keep hkept rfl rfl rfl
    | enterMain | finish | breakLoop | testIf | closeIf | elseBranch | markLoop | testLoop
    | leaveLoop =>
      exact h.keep (hkept (by simp)) rfl rfl rfl
    | _ => exact absurd rfl he

theorem selfCopies_empty : SelfCopies {} where
  nodup := List.nodup_nil
  copies := nofun
  owing := by simp [outcomes, Function.opened]
  main := by simp [outcomes, Function.opened]

theorem RunsBy.selfCopies (hr : TidyRuns es c c') (hp : Placed N rs bs c)
    (hsize : (c.quads.size : Int) ∈ bs) (hnone : N none)
    (hname : ∀ result name, .defineFunction result name ∈ es → N (some name)) (h : SelfCopies c) :
    SelfCopies c' := by
  induction hr generalizing rs bs with
  | nil => exact h
  | @cons e es _ _ _ ha _ ih =>
    obtain ⟨ss, bs', hp', hsize', -⟩ := ha.1.placed hp ha.2 hsize hnone fun result name he =>
      hname result name (by simp [he])
    exact ih hp' hsize' (fun result name he => hname result name (by simp [he]))
      (ha.1.selfCopies ha.2 hp h)

theorem RunsBy.selfCopies_of_empty (hr : TidyRuns es {} c) : SelfCopies c :=
  hr.selfCopies (placed_empty (N := fun _ => True) trivial) (by simp) trivial (fun _ _ _ => trivial)
    selfCopies_empty

end Compiler

end Symphony
