import Symphony.Proofs.Areas
import Symphony.Proofs.ControlFlow
import Symphony.Proofs.Variables

/-!
# The parts of a program

The compiler takes the events of a tree function by function. `Phase` names its states around one
function: before it, after its variables have been declared, at the end of its body, and at the end
of the program.

Names, cells and quads belong to phases. In the code of a function only functions up to itself are
called (`Phase.callee`), and the cells of its variables are handed out in its own phase.
-/

namespace Symphony

variable {es : List Event} {c : Compiler} {name : String} {p : Tree} {result : Option Ty}
  {x : Scope × Int} {xs ys : List FunctionTree}

namespace FunctionTree

/-- The events of a function up to its body. -/
def head (f : FunctionTree) : List Event :=
  .defineFunction f.result f.name ::
    (sizesOf f.vars ++ [.declareLocals (declared f.params) (declarationsOf f.vars)])

theorem events_eq (f : FunctionTree) : f.events = f.head ++ (f.body.events ++ [.endFunction]) := by
  simp [events, innerEvents, head]

end FunctionTree

namespace Tree

/-- The events before the first function. -/
def opening (p : Tree) : List Event :=
  sizesOf p.globals ++ [.declareGlobals (declarationsOf p.globals)]

/-- The events after the last function. -/
def closing (p : Tree) : List Event :=
  .enterMain :: (p.main.events ++ [.finish])

theorem events_eq (p : Tree) :
    p.events = p.opening ++ (p.functions.flatMap FunctionTree.events ++ p.closing) := by
  simp [events, opening, closing]

/-- Two ways to split a list, one of them at an element that the other's first part does not
have. -/
theorem split_after {α : Type} {a : α} {xs rest before later : List α} (hxs : a ∉ xs)
    (h : xs ++ rest = before ++ a :: later) :
    ∃ bs, before = xs ++ bs ∧ rest = bs ++ a :: later := by
  induction xs generalizing before with
  | nil => exact ⟨before, rfl, h⟩
  | cons x xs ih =>
    cases before with
    | nil => exact absurd (by simp [(List.cons.inj h).1]) hxs
    | cons b before =>
      obtain ⟨rfl, htail⟩ := List.cons.inj h
      obtain ⟨bs, rfl, hrest⟩ := ih (fun hmem => hxs (List.mem_cons_of_mem _ hmem)) htail
      exact ⟨bs, rfl, hrest⟩

theorem endFunction_not_mem (hes : ∀ e ∈ es, e.isInner = true) : Event.endFunction ∉ es :=
  fun h => Bool.noConfusion (hes _ h)

theorem endFunction_not_mem_head (f : FunctionTree) :
    Event.endFunction ∉ f.head ++ f.body.events := by
  simp [FunctionTree.head, endFunction_not_mem (sizesOf_isInner f.vars),
    endFunction_not_mem f.body.isInner]

/-- Where a function ends, the functions before it are complete. -/
theorem exists_function_of_split {before later : List Event}
    (h : p.events = before ++ .endFunction :: later) :
    ∃ xs f ys, p.functions = xs ++ f :: ys ∧
      before = p.opening ++ xs.flatMap FunctionTree.events ++ (f.head ++ f.body.events) := by
  have hclosing : Event.endFunction ∉ p.closing := by
    simp [closing, endFunction_not_mem p.main.isInner]
  have hopening : Event.endFunction ∉ p.opening := by
    simp [opening, endFunction_not_mem (sizesOf_isInner p.globals)]
  rw [p.events_eq] at h
  obtain ⟨bs, rfl, hbs⟩ := split_after hopening h
  -- the function that ends here is found by going through the functions
  suffices hmain : ∀ gs : List FunctionTree, ∀ bs, gs.flatMap FunctionTree.events ++ p.closing =
      bs ++ .endFunction :: later → ∃ xs f ys, gs = xs ++ f :: ys ∧
        bs = xs.flatMap FunctionTree.events ++ (f.head ++ f.body.events) by
    obtain ⟨xs, f, ys, hgs, rfl⟩ := hmain p.functions bs hbs
    exact ⟨xs, f, ys, hgs, by simp⟩
  intro gs
  induction gs with
  | nil =>
    intro bs h
    exact absurd (by rw [show p.closing = _ from h]; simp) hclosing
  | cons f gs ih =>
    intro bs h
    have hsplit : f.head ++ f.body.events ++
        (.endFunction :: (gs.flatMap FunctionTree.events ++ p.closing)) =
        bs ++ .endFunction :: later := by
      simpa [f.events_eq] using h
    obtain ⟨bs, rfl, hbs⟩ := split_after (endFunction_not_mem_head f) hsplit
    cases bs with
    | nil => exact ⟨[], f, gs, rfl, by simp⟩
    | cons b bs =>
      obtain ⟨rfl, htail⟩ := List.cons.inj hbs
      obtain ⟨xs, g, ys, rfl, rfl⟩ := ih bs htail
      exact ⟨f :: xs, g, ys, rfl, by simp [f.events_eq]⟩

end Tree

namespace Compiler

/-- The states of the compiler around a function of a tree. -/
structure Phase (p : Tree) (xs : List FunctionTree) (f : FunctionTree) (ys : List FunctionTree)
    (c₁ c₂ c₃ c : Compiler) : Prop where
  functions : p.functions = xs ++ f :: ys
  before : TidyRuns (p.opening ++ xs.flatMap FunctionTree.events) {} c₁
  head : TidyRuns f.head c₁ c₂
  body : TidyRuns f.body.events c₂ c₃
  after : TidyRuns (.endFunction :: (ys.flatMap FunctionTree.events ++ p.closing)) c₃ c

theorem exists_phase {f : FunctionTree} (hr : TidyRuns p.events {} c)
    (hf : p.functions = xs ++ f :: ys) : ∃ c₁ c₂ c₃, Phase p xs f ys c₁ c₂ c₃ c := by
  have hsplit : p.events = (p.opening ++ xs.flatMap FunctionTree.events) ++ (f.head ++
      (f.body.events ++ (.endFunction :: (ys.flatMap FunctionTree.events ++ p.closing)))) := by
    rw [p.events_eq, hf, List.flatMap_append, List.flatMap_cons, f.events_eq]
    simp
  rw [hsplit] at hr
  obtain ⟨c₁, h₁, hr⟩ := runs_append.1 hr
  obtain ⟨c₂, h₂, hr⟩ := runs_append.1 hr
  obtain ⟨c₃, h₃, h₄⟩ := runs_append.1 hr
  exact ⟨c₁, c₂, c₃, hf, h₁, h₂, h₃, h₄⟩

variable {c' : Compiler}

/-- Functions are added to the table when they are defined, with the next quad as their start. -/
theorem Acts.heads {e : Event} (ha : Acts e c c') :
    c'.heads = c.heads ∨ ∃ result name, e = .defineFunction result name ∧
      c'.heads = c.heads ++ [(some name, (c.quads.size : Int))] := by
  by_cases he : e.isQuiet = true
  · exact .inl (congrArg (List.map _) (ha.quiet he).functions)
  · cases ha with
    | declareGlobals hv => exact .inl (tabulates_globals (.declareGlobals hv)).heads
    | declareLocals hp hv => exact .inl (tabulates_locals (.declareLocals hp hv)).heads
    | defineFunction => exact .inr ⟨_, _, rfl, heads_define _ _ _⟩
    | endFunction => exact .inl (heads_close c)
    | @giveBack _ x rest =>
      have ht : Tabulates { c with operands := rest } ({ c with operands := rest }.updateCurrent
          fun f => { f with returnPlace := some x.place }) :=
        tabulates_updateCurrent _ fun _ => ⟨rfl, rfl⟩
      rw [completeAll_eq]
      exact .inl ht.heads
    | closeLoop =>
      rw [completeAll_eq]
      exact .inl rfl
    | enterMain | finish | breakLoop | testIf | closeIf | elseBranch | markLoop | testLoop
    | leaveLoop =>
      exact .inl rfl
    | _ => exact absurd rfl he

theorem RunsBy.mem_heads (h : TidyRuns es c c') (hx : x ∈ c.heads) : x ∈ c'.heads := by
  induction h with
  | nil => exact hx
  | cons h _ ih =>
    refine ih ?_
    rcases h.1.heads with hh | ⟨_, _, _, hh⟩
    · rwa [hh]
    · rw [hh]
      exact List.mem_append_left _ hx

theorem RunsBy.mem_of_heads (h : TidyRuns es c c') (hx : x ∈ c'.heads) :
    x ∈ c.heads ∨ ∃ result name, .defineFunction result name ∈ es ∧ x.1 = some name := by
  induction h with
  | nil => exact .inl hx
  | cons h _ ih =>
    rcases ih hx with hx | ⟨result, name, hmem, hname⟩
    · rcases h.1.heads with hh | ⟨result, name, rfl, hh⟩
      · exact .inl (by rwa [hh] at hx)
      · rw [hh] at hx
        rcases List.mem_append.1 hx with hx | hx
        · exact .inl hx
        · rw [List.mem_singleton.1 hx]
          exact .inr ⟨result, name, List.mem_cons_self, rfl⟩
    · exact .inr ⟨result, name, List.mem_cons_of_mem _ hmem, hname⟩

theorem RunsBy.scope_of_isInner (h : TidyRuns es c c') (hes : ∀ e ∈ es, e.isInner = true) :
    c'.scope = c.scope := by
  induction h with
  | nil => rfl
  | cons h _ ih =>
    refine (ih fun e he => hes e (List.mem_cons_of_mem _ he)).trans ?_
    have he := hes _ List.mem_cons_self
    rcases h.1.scope with hs | ⟨_, _, rfl, -⟩ | ⟨rfl, -⟩
    · exact hs
    · cases he
    · cases he

theorem mem_heads_of_function? {s : Scope} {f : Function} (h : c.function? s = some f) :
    (s, f.start) ∈ c.heads := by
  rw [← name_of_function? h]
  exact List.mem_map.2 ⟨f, List.mem_of_find?_eq_some h, rfl⟩

theorem exists_function_of_heads (h : x ∈ c.heads) : ∃ f, c.function? x.1 = some f := by
  obtain ⟨f, hf, rfl⟩ := List.mem_map.1 h
  exact Option.isSome_iff_exists.1 (List.find?_isSome.2 ⟨f, hf, by simp⟩)

theorem current_define (h : c.function? (some name) = none) :
    (c.define result name).current = .opened (result.map Kind.value) (some name) c.quads.size := by
  rw [current, function?, define, List.find?_append, ← function?, h]
  simp [Function.opened]

/-- The main part and some functions. -/
def Known (xs : List FunctionTree) (s : Scope) : Prop :=
  s = none ∨ ∃ f ∈ xs, s = some f.name

theorem Known.mono (h : ∀ f ∈ xs, f ∈ ys) (s : Scope) (hs : Known xs s) : Known ys s :=
  hs.imp_right fun ⟨f, hf, hname⟩ => ⟨f, h f hf, hname⟩

theorem define_not_mem (hes : ∀ e ∈ es, e.isInner = true) : .defineFunction result name ∉ es :=
  fun h => Bool.noConfusion (hes _ h)

namespace Phase

variable {f : FunctionTree} {c₁ c₂ c₃ : Compiler}

/-- The states at the head of a function. -/
theorem exists_head (h : Phase p xs f ys c₁ c₂ c₃ c) :
    ∃ d, TidyRuns (.defineFunction f.result f.name :: sizesOf f.vars) c₁ d ∧
      Quiet (c₁.define f.result f.name) d ∧ d.quads = c₁.quads ∧
      (c₁.scope = none ∧ c₁.function? (some f.name) = none) ∧
      Acts (.declareLocals (FunctionTree.declared f.params) (declarationsOf f.vars)) d c₂ := by
  obtain ⟨d₁, ⟨hdefine, hscope⟩, hrest⟩ := runs_cons.1 h.head
  obtain ⟨d, htidy, hlast⟩ := runs_append.1 hrest
  have hruns : TidyRuns (.defineFunction f.result f.name :: sizesOf f.vars) c₁ d :=
    .cons ⟨hdefine, hscope⟩ htidy
  cases hdefine with
  | defineFunction hnew =>
    have hsizes := htidy.plain
    exact ⟨d, hruns, hsizes.quiet (quiet_sizesOf f.vars), hsizes.quads_sizesOf, ⟨hscope, hnew⟩,
      (runs_singleton.1 hlast).1⟩

theorem quads_eq (h : Phase p xs f ys c₁ c₂ c₃ c) : c₂.quads = c₁.quads := by
  obtain ⟨d, -, -, hquads, -, hlocals⟩ := h.exists_head
  rw [(tabulates_locals hlocals).quads, hquads]

theorem scope_before (h : Phase p xs f ys c₁ c₂ c₃ c) : c₁.scope = none := by
  obtain ⟨d, -, -, -, ⟨hscope, -⟩, -⟩ := h.exists_head
  exact hscope

theorem scope_eq (h : Phase p xs f ys c₁ c₂ c₃ c) : c₂.scope = some f.name := by
  obtain ⟨d, -, hquiet, -, -, hlocals⟩ := h.exists_head
  rw [(tabulates_locals hlocals).scope, hquiet.scope]
  rfl

/-- What is defined in a part of the tree is one of its functions. -/
theorem known_of_mem {fs : List FunctionTree}
    (hes : ∀ e ∈ es, e.isInner = true ∨ ∃ vars, e = .declareGlobals vars)
    (h : .defineFunction result name ∈ es ++ fs.flatMap FunctionTree.events) :
    Known fs (some name) := by
  rcases List.mem_append.1 h with h | h
  · rcases hes _ h with h | ⟨vars, h⟩ <;> cases h
  · obtain ⟨f, hf, h⟩ := List.mem_flatMap.1 h
    refine .inr ⟨f, hf, ?_⟩
    simp only [FunctionTree.events, FunctionTree.innerEvents, List.mem_cons, List.mem_append,
      Event.defineFunction.injEq, reduceCtorEq, List.not_mem_nil, or_false, false_or] at h
    rcases h with ⟨-, rfl⟩ | h | h
    · rfl
    · exact absurd h (define_not_mem (sizesOf_isInner f.vars))
    · exact absurd h (define_not_mem f.body.isInner)

theorem isInner_of_opening (p : Tree) :
    ∀ e ∈ p.opening, e.isInner = true ∨ ∃ vars, e = .declareGlobals vars := by
  intro e he
  rcases List.mem_append.1 he with he | he
  · exact .inl (sizesOf_isInner p.globals e he)
  · exact .inr ⟨_, List.mem_singleton.1 he⟩

/-- The states of a phase and the reservations between them. -/
theorem reached (h : Phase p xs f ys c₁ c₂ c₃ c) (hpos : Event.Sized p.events) :
    ∃ r₁ r₂ r₃ r₄, Reached (Known xs) r₁ c₁ ∧ Reached (Known (xs ++ [f])) (r₁ ++ r₂) c₂ ∧
      Reached (Known (xs ++ [f])) (r₁ ++ r₂ ++ r₃) c₃ ∧
      Reached (fun _ => True) (r₁ ++ r₂ ++ r₃ ++ r₄) c := by
  rw [p.events_eq, h.functions, List.flatMap_append, List.flatMap_cons, f.events_eq] at hpos
  simp only [Event.Sized, List.forall_mem_append] at hpos
  obtain ⟨hopening, ⟨hxs, ⟨hhead, hbody, hend⟩, hys⟩, hclosing⟩ := hpos
  obtain ⟨r₁, h₁⟩ := (Reached.empty (.inl rfl)).runs h.before (.inl rfl)
    (fun _ _ => known_of_mem (isInner_of_opening p)) (List.forall_mem_append.2 ⟨hopening, hxs⟩)
  rw [List.nil_append] at h₁
  have hself : Known (xs ++ [f]) (some f.name) := .inr ⟨f, by simp, rfl⟩
  have hmono : ∀ s, Known xs s → Known (xs ++ [f]) s := Known.mono (by simp +contextual)
  obtain ⟨r₂, h₂⟩ := (h₁.weaken hmono).runs h.head (.inl rfl)
    (fun result name hmem => by
      rcases List.mem_cons.1 hmem with hmem | hmem
      · cases hmem
        exact hself
      · rcases List.mem_append.1 hmem with hmem | hmem
        · exact absurd hmem (define_not_mem (sizesOf_isInner f.vars))
        · cases List.mem_singleton.1 hmem) hhead
  obtain ⟨r₃, h₃⟩ := h₂.runs h.body (.inl rfl)
    (fun result name hmem => absurd hmem (define_not_mem f.body.isInner)) hbody
  obtain ⟨r₄, h₄⟩ := (h₃.weaken fun _ _ => trivial).runs h.after trivial (fun _ _ _ => trivial)
    (List.forall_mem_cons.2 ⟨hend _ List.mem_cons_self, List.forall_mem_append.2 ⟨hys, hclosing⟩⟩)
  exact ⟨r₁, r₂, r₃, r₄, h₁, h₂, h₃, h₄⟩

/-- The variables of a function are in local cells that were handed out at its head. -/
theorem declared (h : Phase p xs f ys c₁ c₂ c₃ c) (hpos : Event.Sized p.events)
    (hfits : c.Fits) {v : Variable} (hv : v ∈ c₃.current.declared) {a : Int} (ha : v.Covers a) :
    ∃ t, Sector.locate? a = some (.locals, t) ∧ c₁.next .locals t ≤ a ∧ a < c₂.next .locals t := by
  obtain ⟨r₁, r₂, r₃, r₄, h₁, h₂, h₃, h₄⟩ := h.reached hpos
  have hfits₂ : c₂.Fits := by
    rw [List.append_assoc (r₁ ++ r₂)] at h₄
    exact h₂.fits h₄ hfits
  obtain ⟨d, hruns, hquiet, -, ⟨-, hnew⟩, hlocals⟩ := h.exists_head
  have hpart : ∀ e ∈ f.head, ∀ n ∈ e.extents, 0 ≤ n := fun e he => hpos e (by
    rw [p.events_eq, h.functions, List.flatMap_append, List.flatMap_cons, f.events_eq]
    simp [he])
  have hnone : d.current.declared = [] := by
    have hsame : d.current = (c₁.define f.result f.name).current := by
      rw [current, current, function?, function?, hquiet.functions, hquiet.scope]
    rw [hsame, current_define hnew]
    rfl
  rw [h.body.declared_of_isInner f.body.isInner] at hv
  rcases (hlocals.declaredSince (hpart _ (by simp [FunctionTree.head]))).cells v hv with hv | hcells
  · rw [hnone] at hv
    cases hv
  · obtain ⟨t, hlo, hhi⟩ := hcells a ha
    obtain ⟨ss, hd⟩ := (h₁.weaken fun _ _ => trivial).runs hruns trivial (fun _ _ _ => trivial)
      fun e he => hpart e (by
        rw [FunctionTree.head, ← List.cons_append]
        exact List.mem_append_left _ he)
    have hle : c₁.next .locals t ≤ a := Int.le_trans (h₁.next_le hd .locals t) hlo
    exact ⟨t, h₁.locate hfits₂ hle hhi, hle, hhi⟩

/-- The start of a function. -/
theorem mem_heads (h : Phase p xs f ys c₁ c₂ c₃ c) :
    (some f.name, (c₁.quads.size : Int)) ∈ c.heads := by
  obtain ⟨d, ⟨hdefine, -⟩, hrest⟩ := runs_cons.1 h.head
  cases hdefine with
  | defineFunction =>
    refine h.after.mem_heads (h.body.mem_heads (hrest.mem_heads ?_))
    rw [heads_define]
    exact List.mem_append_right _ List.mem_cons_self

theorem scope_body (h : Phase p xs f ys c₁ c₂ c₃ c) : c₃.scope = some f.name := by
  rw [h.body.scope_of_isInner f.body.isInner, h.scope_eq]

/-- The quad that ends a function. -/
theorem ends (h : Phase p xs f ys c₁ c₂ c₃ c) :
    c.quads[c₃.quads.size]? = some [.word "ENDPROC", .word f.name] := by
  obtain ⟨d, ⟨hend, -⟩, hrest⟩ := runs_cons.1 h.after
  cases hend with
  | endFunction =>
    refine hrest.kept (by decide) ?_
    rw [close, emit, updateCurrent, name_current, h.scope_body]
    exact Array.getElem?_push_size

/-- The region of a function. -/
theorem region (h : Phase p xs f ys c₁ c₂ c₃ c) {rs : List Region} {main : Nat} {program : Program}
    (hr : Routed rs main c program) {r : Region} (hmem : r ∈ rs) (hname : r.name = f.name) :
    r.start = c₁.quads.size ∧ r.stop = c₃.quads.size + 1 := by
  have hunique : ∀ r' ∈ rs, r'.name = f.name → r' = r := fun r' hr' hname' =>
    List.inj_on_of_nodup_map hr.laidOut.names hr' hmem (hname'.trans hname.symm)
  constructor
  · have hhead := h.mem_heads
    rw [hr.laidOut.heads, headsOf] at hhead
    rcases List.mem_cons.1 hhead with hhead | hhead
    · cases hhead
    · obtain ⟨r', hr', heq⟩ := List.mem_map.1 hhead
      obtain ⟨hname', hstart⟩ := Prod.mk.inj heq
      rw [← hunique r' hr' (Option.some.inj hname')]
      exact Int.ofNat.inj hstart
  · obtain ⟨r', hr', hstop, hxs⟩ := hr.ends_region h.ends
    rw [← hunique r' hr' (by simpa using hxs.symm)]
    exact hstop.symm

theorem runs (h : Phase p xs f ys c₁ c₂ c₃ c) : TidyRuns p.events {} c := by
  rw [p.events_eq, h.functions, List.flatMap_append, List.flatMap_cons, f.events_eq]
  have hrest := runs_append.2 ⟨c₁, h.before,
      runs_append.2 ⟨c₂, h.head, runs_append.2 ⟨c₃, h.body, h.after⟩⟩⟩
  simpa using hrest

theorem selfCopies (h : Phase p xs f ys c₁ c₂ c₃ c) : SelfCopies c :=
  h.runs.selfCopies_of_empty

/-- A function that is known in the body of another one was there before. -/
theorem function_before (h : Phase p xs f ys c₁ c₂ c₃ c) {d : Compiler}
    (hes : ∀ e ∈ es, e ∈ f.body.events) (hd : TidyRuns es c₂ d) (hname : name ≠ f.name)
    {F : Function} (hF : d.function? (some name) = some F) :
    ∃ F', c₁.function? (some name) = some F' ∧ c.function? (some name) = some F' := by
  have hmem : (some name, F.start) ∈ c₁.heads := by
    have hrun := runs_append.2 ⟨c₂, h.head, hd⟩
    refine (hrun.mem_of_heads (mem_heads_of_function? hF)).resolve_right ?_
    rintro ⟨result, name', hdef, hname'⟩
    cases hname'
    rcases List.mem_append.1 hdef with hdef | hdef
    · rcases List.mem_cons.1 hdef with hdef | hdef
      · cases hdef
        exact hname rfl
      · rcases List.mem_append.1 hdef with hdef | hdef
        · exact define_not_mem (sizesOf_isInner f.vars) hdef
        · cases List.mem_singleton.1 hdef
    · exact define_not_mem f.body.isInner (hes _ hdef)
  obtain ⟨F', hF'⟩ := exists_function_of_heads hmem
  have hrun := runs_append.2 ⟨c₂, h.head, runs_append.2 ⟨c₃, h.body, h.after⟩⟩
  exact ⟨F', hF', hrun.function_closed hF' (by rw [h.scope_before]; nofun)⟩

theorem eq_num_of_copyFields {places : List Field} {a : Int} {x y : Field}
    (h : copyFields places a = [x, y]) : y = .num a := by
  cases places with
  | nil => cases h
  | cons p places => exact (List.cons.inj (List.cons.inj h).2).1.symm

/-- The event in the body of a function that added a quad, with the cells handed out around it. -/
theorem exists_event (h : Phase p xs f ys c₁ c₂ c₃ c)
    (hpos : Event.Sized p.events) (hfits : c.Fits) {k : Nat}
    (hlo : c₁.quads.size ≤ k) (hhi : k < c₃.quads.size) :
    ∃ e es es' d d' rs ss ss' N, (∀ e' ∈ es, e' ∈ f.body.events) ∧ TidyRuns es c₂ d ∧ Acts e d d' ∧
      TidyRuns (es' ++ .endFunction :: (ys.flatMap FunctionTree.events ++ p.closing)) d' c ∧
      d.quads.size ≤ k ∧ k < d'.quads.size ∧ Reached N rs c₂ ∧ Reached N (rs ++ ss) d ∧
      Reached N (rs ++ ss ++ ss') d' ∧ d'.Fits := by
  obtain ⟨r₁, r₂, -, -, -, h₂, -, -⟩ := h.reached hpos
  rw [← h.quads_eq] at hlo
  obtain ⟨e, es, es', d, d', hbody, hd, he, hd', hlo', hhi'⟩ := h.body.born hlo hhi
  have hrest := runs_append.2 ⟨c₃, hd', h.after⟩
  rw [p.events_eq, h.functions, List.flatMap_append, List.flatMap_cons, f.events_eq, hbody] at hpos
  simp only [Event.Sized, List.forall_mem_append, List.forall_mem_cons] at hpos
  obtain ⟨-, ⟨-, ⟨-, ⟨hes, hone, hes'⟩, hend, -⟩, hys⟩, hclosing⟩ := hpos
  have h₂ := h₂.weaken fun _ _ => trivial
  obtain ⟨ss, hd₁⟩ := h₂.runs hd trivial (fun _ _ _ => trivial) hes
  obtain ⟨ss', hd₂⟩ := hd₁.runs (runs_singleton.2 he) trivial (fun _ _ _ => trivial)
    (List.forall_mem_singleton.2 hone)
  obtain ⟨ss'', hc⟩ := hd₂.runs hrest trivial (fun _ _ _ => trivial)
    (List.forall_mem_append.2 ⟨hes', List.forall_mem_cons.2
      ⟨hend, List.forall_mem_append.2 ⟨hys, hclosing⟩⟩⟩)
  exact ⟨e, es, es', d, d', _, ss, ss', _, fun e' he' => by simp [hbody, he'], hd, he.1, hrest,
    hlo', hhi', h₂, hd₁, hd₂, hd₂.fits hc hfits⟩

theorem mem_selfCalls {c' : Compiler} (h : TidyRuns es c c') {q : Nat × Int}
    (hq : q ∈ c.selfCalls) :
    q ∈ c'.selfCalls := by
  induction h with
  | nil => exact hq
  | cons h _ ih =>
    refine ih ?_
    rcases h.1.selfCalls with hs | ⟨_, _, _, _, hs, -⟩
    · rwa [hs]
    · rw [hs]
      exact List.mem_append_left _ hq

/-- A call in the body of a function. It calls the function itself, or one whose result is in a cell
that was handed out before the function. The quad after it copies the result, to a cell handed out
in the body. -/
theorem call (h : Phase p xs f ys c₁ c₂ c₃ c) (hpos : Event.Sized p.events)
    (hfits : c.Fits) {k : Nat} {fs : List Field} (hlo : c₁.quads.size ≤ k) (hhi : k < c₃.quads.size)
    (hq : c.quads[k]? = some (.word "GOSUB" :: fs)) :
    ∃ name F, fs = [.word name] ∧ c.function? (some name) = some F ∧
      (name = f.name ∨ ∀ b, F.returnPlace = some (.num b) → c₁.counters.Handed b) ∧
      (F.result ≠ none → ∃ gs, c.quads[k + 1]? = some (.word "=" :: gs) ∧
        ∀ x y, gs = [x, y] → ∃ a, y = .num a ∧ c₂.counters.Free a) := by
  obtain ⟨e, es, es', d, d', rs, ss, ss', N, hes, hd, he, hrest, hlo', hhi', h₂, hd₁,
    hd₂, hfits'⟩ :=
    h.exists_event hpos hfits hlo hhi
  obtain ⟨⟨bs', hp', -⟩, -⟩ := hd₂
  obtain ⟨s, F₀, hcalled, hF₀, rfl, hcopy⟩ :=
    he.copy_of_call hlo' (hrest.quad_before hp' (by decide) hhi' hq)
  have hnone : s ≠ none := by
    obtain ⟨⟨bs, hp, -⟩, -⟩ := hd₁
    exact hp.called s (List.mem_of_mem_head? hcalled)
  obtain ⟨name, rfl⟩ := Option.ne_none_iff_exists'.1 hnone
  obtain ⟨F₁, hF₁, -, hresult₁, -⟩ := he.keepsTable.kept hF₀
  obtain ⟨F, hF, -, hresult⟩ := hrest.function hF₁
  refine ⟨name, F, rfl, hF, ?_, fun hres => ?_⟩
  · -- the function itself, or one that was complete before
    by_cases hname : name = f.name
    · exact .inl hname
    · obtain ⟨F', hF', hlast⟩ := h.function_before hes hd hname hF₀
      obtain rfl := Option.some.inj (hF.symm.trans hlast)
      refine .inr fun b hb => ?_
      obtain ⟨r₁, r₂, r₃, r₄, h₁, -, -, h₄⟩ := h.reached hpos
      rw [List.append_assoc, List.append_assoc] at h₄
      have hfits₁ := h₁.fits h₄ hfits
      obtain ⟨⟨bs₁, hp₁, -⟩, -⟩ := id h₁
      obtain ⟨_, t, -, -, hg⟩ := hp₁.results F (List.mem_of_find?_eq_some hF') _ hb
      exact h₁.given hfits₁ hg
  · -- the copy follows the call, complete or not
    obtain ⟨t, a, ha, hlt, hcopy⟩ := hcopy (by rwa [← hresult₁, ← hresult])
    have hle := h₂.next_le hd₁ (variableSector (d.scope == none)) t
    rw [show d.counters.next _ t = a from ha.symm] at hle
    have hfree : c₂.counters.Free a := ⟨_, t, h₂.locate hfits' hle hlt, hle⟩
    rcases hcopy with ⟨place, -, hcopy⟩ | ⟨-, hself, -⟩
    · obtain ⟨more, hmore⟩ := hrest.grown hcopy
      refine ⟨place :: .num a :: more, hmore, fun x y hxy => ⟨a, ?_, hfree⟩⟩
      exact (List.cons.inj (List.cons.inj hxy).2).1.symm
    · obtain ⟨places, hplaces, -⟩ := h.selfCopies.copies _ (mem_selfCalls hrest hself)
      exact ⟨_, hplaces, fun x y hxy => ⟨a, eq_num_of_copyFields hxy, hfree⟩⟩

end Phase

/-- The phase of the function that ends at an event. -/
theorem exists_phase_of_endFunction {before later : List Event} {d : Compiler}
    (hr : TidyRuns p.events {} c) (hsplit : p.events = before ++ .endFunction :: later)
    (hd : Runs before {} d) : ∃ xs f ys c₁ c₂, Phase p xs f ys c₁ c₂ d c := by
  obtain ⟨xs, f, ys, hf, rfl⟩ := Tree.exists_function_of_split hsplit
  obtain ⟨c₁, c₂, c₃, h⟩ := exists_phase hr hf
  have hruns := runs_append.2 ⟨c₁, h.before, runs_append.2 ⟨c₂, h.head, h.body⟩⟩
  obtain rfl := RunsBy.unique hd hruns.plain
  exact ⟨xs, f, ys, c₁, c₂, h⟩

end Compiler

end Symphony
