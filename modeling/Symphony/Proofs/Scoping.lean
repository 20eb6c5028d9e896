import Symphony.Proofs.Binding
import Symphony.Proofs.Rejections
import Symphony.Proofs.VoidCalls

/-!
# Declarations and scopes

Names come to the compiler in lists: the global ones at once, the parameters and variables of a
function at once, each list in an order that is not that of the source. A name is looked up in the
function that is being defined and then among the global ones. When a function ends, its names are
forgotten.

**Theorem (`Compiled.names_scoped`).** For every source of the grammar:

* if two functions, two global variables, or two parameters or variables of one function have the
  same name, it is rejected, and if not (`Tree.ClashFree`), it is not rejected for a second
  declaration;
* if it is accepted, a name in a function refers to what this function declares under the name, else
  to the global variable (`Tree.Resolves`);
* if a name is used that neither the function nor the program declares, it is rejected.

The variables of a list of declarations are told by the declarations and the free addresses before
them (`variablesFrom`). Where variables are declared, there are none yet (`Compiler.Blank`). So the
names in one event must differ from each other only, and the variables that the compiler knows in a
body are those of its head.
-/

namespace Symphony

variable {t : Tree} {xs ys : List Event} {c c₂ : Compiler} {e : Event} {n : String}

/-! ## Names of trees -/

/-- The names that groups declare, in the order of the source. -/
def namesOf (gs : List Group) : List String :=
  gs.flatMap fun g => g.names.map Prod.fst

/-- What the head of a function declares, in the order in which the compiler takes it. -/
def FunctionTree.declarations (f : FunctionTree) : List Declaration :=
  declared f.params ++ declarationsOf f.vars

/-- No two functions have the same name, no two global variables, and no two names of one
function. -/
structure Tree.ClashFree (p : Tree) : Prop where
  functions : (p.functions.map FunctionTree.name).Nodup
  globals : (namesOf p.globals).Nodup
  locals : ∀ f ∈ p.functions, (f.params.map Prod.snd ++ namesOf f.vars).Nodup

theorem Group.name_declaration (t : Ty) (x : String × Option Int) :
    (declaration t x).name = x.1 := by
  obtain ⟨name, _ | n⟩ := x <;> rfl

theorem names_declarationsOf (gs : List Group) :
    ((declarationsOf gs).map Declaration.name).Perm (namesOf gs) := by
  induction gs with
  | nil => exact .nil
  | cons g gs ih =>
    have hgroup : (g.declarations.map Declaration.name).Perm (g.names.map Prod.fst) := by
      rw [Group.declarations, List.map_reverse, List.map_map]
      refine (List.reverse_perm _).trans (.of_eq (List.map_congr_left fun x _ => ?_))
      exact Group.name_declaration g.type x
    rw [declarationsOf, List.flatMap_cons, List.map_append, namesOf, List.flatMap_cons]
    exact hgroup.append ih

theorem FunctionTree.names_declarations (f : FunctionTree) :
    (f.declarations.map Declaration.name).Perm (f.params.map Prod.snd ++ namesOf f.vars) := by
  rw [declarations, List.map_append]
  refine .append ?_ (names_declarationsOf f.vars)
  rw [declared, List.map_reverse, List.map_map]
  exact List.reverse_perm _

/-- The names that an event declares differ. -/
def Event.Distinct : Event → Prop
  | .declareGlobals vars => (vars.map Declaration.name).Nodup
  | .declareLocals params vars => ((params ++ vars).map Declaration.name).Nodup
  | _ => True

theorem Event.distinct_of_isInner (h : e.isInner = true) : e.Distinct := by
  cases e <;> trivial

/-- A tree is free of clashes if its functions and the names in each event are. -/
theorem Tree.clashFree_iff (p : Tree) :
    p.ClashFree ↔ (p.functions.map FunctionTree.name).Nodup ∧ ∀ e ∈ p.events, e.Distinct := by
  have hinner : ∀ {es : List Event}, (∀ e ∈ es, e.isInner = true) → ∀ e ∈ es, e.Distinct :=
    fun hes e he => Event.distinct_of_isInner (hes e he)
  constructor
  · intro h
    refine ⟨h.functions, ?_⟩
    rw [Tree.events, List.forall_mem_append, List.forall_mem_cons, List.forall_mem_append]
    refine ⟨hinner (sizesOf_isInner _), (names_declarationsOf _).nodup_iff.2 h.globals, ?_, ?_⟩
    · have hfunction : ∀ f ∈ p.functions, ∀ e ∈ f.events, e.Distinct := by
        intro f hf
        rw [FunctionTree.events, FunctionTree.innerEvents, List.forall_mem_cons,
          List.forall_mem_append, List.forall_mem_cons, List.forall_mem_append]
        exact ⟨trivial, hinner (sizesOf_isInner _), f.names_declarations.nodup_iff.2
          (h.locals f hf), hinner f.body.isInner, List.forall_mem_singleton.2 trivial⟩
      intro e he
      obtain ⟨f, hf, he⟩ := List.mem_flatMap.1 he
      exact hfunction f hf e he
    · rw [List.forall_mem_cons, List.forall_mem_append]
      exact ⟨trivial, hinner p.main.isInner, List.forall_mem_singleton.2 trivial⟩
  · rintro ⟨hfunctions, hevents⟩
    refine ⟨hfunctions, (names_declarationsOf _).nodup_iff.1 ?_, fun f hf =>
      f.names_declarations.nodup_iff.1 ?_⟩
    · exact hevents (.declareGlobals (declarationsOf p.globals)) (by simp [Tree.events])
    · refine hevents (.declareLocals (FunctionTree.declared f.params) (declarationsOf f.vars)) ?_
      rw [Tree.events, List.mem_append, List.mem_cons, List.mem_append, List.mem_flatMap]
      exact .inr (.inr (.inl ⟨f, hf, by simp [FunctionTree.events, FunctionTree.innerEvents]⟩))

theorem Tree.names_results (p : Tree) :
    (p.events.filterMap Event.result?).map Prod.fst =
      (p.functions.map FunctionTree.name).map some := by
  rw [p.results, List.map_map, List.map_map]
  rfl

/-! ## The variables of declarations -/

namespace Declaration

/-- The variable of a declaration, with its address. -/
def toVariable (d : Declaration) (a : Int) : Variable :=
  match d.extent with
  | none => ⟨d.kind, a, d.name, none⟩
  | some (_, n) => ⟨.array, a, d.name, some (d.kind, n)⟩

/-- How many cells a declaration takes. -/
def cells (d : Declaration) : Int :=
  match d.extent with
  | none => 1
  | some (_, n) => n

theorem name_toVariable (d : Declaration) (a : Int) : (d.toVariable a).name = d.name := by
  unfold Declaration.toVariable
  split <;> rfl

end Declaration

/-- The variables of declarations, where `next` has the free address for each type. -/
def variablesFrom (next : Ty → Int) : List Declaration → List Variable
  | [] => []
  | d :: ds =>
    match d.kind.ty? with
    | none => []
    | some t =>
      d.toVariable (next t) :: variablesFrom (Function.update next t (next t + d.cells)) ds

theorem variablesFrom_cons {d : Declaration} {t : Ty} (h : d.kind.ty? = some t) (next : Ty → Int)
    (ds : List Declaration) : variablesFrom next (d :: ds) =
      d.toVariable (next t) :: variablesFrom (Function.update next t (next t + d.cells)) ds := by
  rw [variablesFrom, h]

namespace Compiler

variable {c' c'' : Compiler} {isGlobal : Bool} {d : Declaration} {ds vars : List Declaration}
  {es : List Event}

/-- The current function has got the variables of declarations, in cells that were free. -/
structure Introduces (isGlobal : Bool) (ds : List Declaration) (c c' : Compiler) : Prop where
  isOpen : c'.IsOpen
  declared : c'.current.declared =
    c.current.declared ++ variablesFrom (c.next (variableSector isGlobal)) ds
  names : (variablesFrom (c.next (variableSector isGlobal)) ds).map Variable.name =
    ds.map Declaration.name

theorem Declares.exists_eq (h : Declares isGlobal d c c') :
    ∃ t, d.kind.ty? = some t ∧ c.current.find? d.name = none ∧
      c' = (c.reserve (variableSector isGlobal) t d.cells).addVariable
        (d.toVariable (c.next (variableSector isGlobal) t)) := by
  cases h with
  | @scalar t hextent hnew ht =>
    exact ⟨t, ht, hnew, by simp [Declaration.cells, Declaration.toVariable, hextent]⟩
  | @array t k n hextent hnew _ ht =>
    exact ⟨t, ht, hnew, by simp [Declaration.cells, Declaration.toVariable, hextent]⟩

theorem Introduces.cons (hc : c.IsOpen) (hd : Declares isGlobal d c c')
    (h : c'.IsOpen → Introduces isGlobal ds c' c'') : Introduces isGlobal (d :: ds) c c'' := by
  obtain ⟨t, ht, hnew, rfl⟩ := hd.exists_eq
  let s := variableSector isGlobal
  let v := d.toVariable (c.next s t)
  have hfree : c.current.find? v.name = none := by rwa [d.name_toVariable]
  obtain ⟨hopen, hcurrent⟩ := hc.addVariable hfree s t d.cells
  have hnext : ((c.reserve s t d.cells).addVariable v).next s =
      Function.update (c.next s) t (c.next s t + d.cells) := by
    funext u
    refine (next_reserve c s s t u d.cells).trans ?_
    by_cases hu : u = t
    · subst hu
      simp
    · simp [hu]
  obtain ⟨hopen', hdeclared, hnames⟩ := h hopen
  rw [hnext] at hdeclared hnames
  refine ⟨hopen', ?_, ?_⟩
  · rw [hdeclared, hcurrent, variablesFrom_cons ht]
    simp [v, s]
  · rw [variablesFrom_cons ht, List.map_cons, hnames, d.name_toVariable, List.map_cons]

/-- A change before the declarations that keeps the variables. -/
theorem Introduces.of_update {change : Function → Function} (hc : c.IsOpen)
    (hname : ∀ f, (change f).name = f.name) (hdeclared : ∀ f, (change f).declared = f.declared)
    (h : (c.updateCurrent change).IsOpen → Introduces isGlobal ds (c.updateCurrent change) c') :
    Introduces isGlobal ds c c' := by
  obtain ⟨hopen, hvars, hnames⟩ := h (hc.update hname (by rw [hdeclared]; exact hc.names))
  rw [current_updateCurrent hname hc.known, hdeclared] at hvars
  exact ⟨hopen, hvars, hnames⟩

theorem DeclaresAll.introduces (h : DeclaresAll isGlobal ds c c') (hc : c.IsOpen) :
    Introduces isGlobal ds c c' := by
  induction h with
  | nil => exact ⟨hc, by simp [variablesFrom], rfl⟩
  | cons hd _ ih => exact .cons hc hd ih

theorem DeclaresParams.introduces (h : DeclaresParams isGlobal ds c c')
    (hv : DeclaresAll isGlobal vars c' c'') (hc : c.IsOpen) :
    Introduces isGlobal (ds ++ vars) c c'' := by
  induction h with
  | nil => exact hv.introduces hc
  | cons hd _ ih =>
    refine .of_update hc (by intro _; rfl) (by intro _; rfl) fun hopen =>
      .cons hopen hd fun hopen => ?_
    exact .of_update hopen (by intro _; rfl) (by intro _; rfl) (ih hv)

theorem Acts.introduces_globals (ha : Acts (.declareGlobals vars) c c') (hc : c.IsOpen) :
    Introduces true vars c c' := by
  cases ha with
  | declareGlobals hv =>
    have hopen : (c.emit [.word "GOTO"]).IsOpen := ⟨hc.known, hc.names⟩
    obtain ⟨hopen', hdeclared, hnames⟩ : Introduces true vars (c.emit [.word "GOTO"]) c' :=
      .of_update hopen (by intro _; rfl) (by intro _; rfl) hv.introduces
    exact ⟨hopen', hdeclared, hnames⟩

theorem Acts.introduces_locals (ha : Acts (.declareLocals ds vars) c c') (hc : c.IsOpen) :
    Introduces false (ds ++ vars) c c' := by
  cases ha with
  | declareLocals hp hv =>
    exact .of_update hc (by intro _; rfl) (by intro _; rfl) (hp.introduces hv)

/-! ## Where variables are declared -/

open Position

variable {p p' : Position}

/-- Before the variables of the program or of a function are declared, there are none. -/
def Blank (p : Position) (c : Compiler) : Prop :=
  p = .start ∨ p = .head → c.IsOpen ∧ c.current.declared = []

theorem isOpen_congr (hfunctions : c'.functions = c.functions) (hscope : c'.scope = c.scope)
    (h : c.IsOpen) : c'.IsOpen ∧ c'.current = c.current := by
  have hcurrent : c'.current = c.current := by
    rw [current, current, function?, function?, hfunctions, hscope]
  refine ⟨⟨?_, by rw [hcurrent]; exact h.names⟩, hcurrent⟩
  rw [function?, hfunctions, hscope]
  exact h.known

theorem isOpen_define (result : Option Ty) {name : String} (hnew : c.function? (some name) = none) :
    (c.define result name).IsOpen ∧ (c.define result name).current.declared = [] := by
  have hdeclared : (c.define result name).current.declared = [] := by
    rw [current_define hnew]
    rfl
  refine ⟨⟨?_, by simp [hdeclared]⟩, hdeclared⟩
  rw [function?, define, List.find?_append]
  simp [Function.opened]

theorem Acts.blank (ha : Acts e c c') (hm : Admits e p p') (h : Blank p c) : Blank p' c' := by
  intro hp'
  cases hm with
  | size he _ =>
    obtain ⟨hopen, hdeclared⟩ := h hp'
    have hquiet := ha.quiet he.isQuiet
    obtain ⟨hopen', hcurrent⟩ := isOpen_congr hquiet.functions hquiet.scope hopen
    exact ⟨hopen', by rw [hcurrent, hdeclared]⟩
  | define =>
    cases ha with
    | defineFunction hnew => exact isOpen_define _ hnew
  | inner _ hp => rcases hp with rfl | rfl <;> simp at hp'
  | globals | locals | close | enter | finish => simp at hp'

theorem blank_empty : Blank .start {} :=
  fun _ => ⟨⟨rfl, List.nodup_nil⟩, rfl⟩

theorem RunsBy.blank (hr : Runs es c c') (hes : Follows p es p') (h : Blank p c) : Blank p' c' := by
  induction hes generalizing c with
  | nil => rwa [runs_nil.1 hr]
  | cons hm _ ih =>
    obtain ⟨d, hd, hrest⟩ := runs_cons.1 hr
    exact ih hrest (hd.blank hm h)

/-- Names that are declared at once differ. -/
theorem Acts.distinct (ha : Acts e c c') (hm : Admits e p p') (h : Blank p c) : e.Distinct := by
  have hdistinct : ∀ {isGlobal ds}, Introduces isGlobal ds c c' →
      (ds.map Declaration.name).Nodup := by
    intro isGlobal ds hb
    have hnodup := hb.isOpen.names
    rw [hb.declared, List.map_append, hb.names] at hnodup
    exact (List.nodup_append.1 hnodup).2.1
  cases hm with
  | globals vars => exact hdistinct (ha.introduces_globals (h (.inl rfl)).1)
  | locals params vars => exact hdistinct (ha.introduces_locals (h (.inr rfl)).1)
  | size he _ => exact Event.distinct_of_isInner (Event.isInner_of_isQuiet he.isQuiet)
  | inner he _ => exact Event.distinct_of_isInner he
  | define | close | enter | finish => trivial

theorem RunsBy.distinct (hr : Runs es c c') (hes : Follows p es p') (h : Blank p c) :
    ∀ e ∈ es, e.Distinct := by
  induction hes generalizing c with
  | nil => simp
  | cons hm _ ih =>
    obtain ⟨d, hd, hrest⟩ := runs_cons.1 hr
    exact List.forall_mem_cons.2 ⟨hd.distinct hm h, ih hrest (hd.blank hm h)⟩

/-! ## Clashes -/

/-- The names of the functions so far. -/
theorem names_functions (hr : Runs es {} c) :
    c.functions.map Function.name = none :: (es.filterMap Event.result?).map Prod.fst := by
  have hresults : c.results = _ := hr.results
  have hnames := congrArg (List.map Prod.fst) hresults
  rwa [results, List.map_map] at hnames

theorem Acts.nodup_functions (ha : Acts e c c') (h : (c.results.map Prod.fst).Nodup) :
    (c'.results.map Prod.fst).Nodup := by
  rw [ha.results]
  cases e with
  | defineFunction result name =>
    cases ha with
    | defineFunction hnew =>
      rw [List.map_append, List.nodup_append]
      refine ⟨h, by simp [Event.result?], fun s hs s' hs' => ?_⟩
      obtain rfl : s' = some name := by simpa [Event.result?] using hs'
      rintro rfl
      rw [Compiler.results, List.map_map] at hs
      obtain ⟨f, hf, hname⟩ := List.mem_map.1 hs
      exact absurd (by simpa using hname) (List.find?_eq_none.1 hnew f hf)
  | _ => simpa [Event.result?] using h

theorem RunsBy.nodup_functions (hr : Runs es c c') (h : (c.results.map Prod.fst).Nodup) :
    (c'.results.map Prod.fst).Nodup := by
  induction hr with
  | nil => exact h
  | cons ha _ ih => exact ih (ha.nodup_functions h)

/-- What the compiler takes to the end is free of clashes. -/
theorem clashFree_of_runs (hr : Runs t.events {} c) : t.ClashFree := by
  refine t.clashFree_iff.2 ⟨?_, hr.distinct t.follows blank_empty⟩
  have hnodup := hr.nodup_functions (by simp [results])
  rw [show c.results = _ from hr.results, List.map_append, Tree.names_results] at hnodup
  exact (List.nodup_append.1 hnodup).2.1.of_map

/-- In a tree without clashes, what an event declares can be declared. -/
theorem declarable (h : t.ClashFree) (hr : Runs xs {} c) (ht : t.events = xs ++ e :: ys) :
    c.Declarable e := by
  obtain ⟨hfunctions, hdistinct⟩ := t.clashFree_iff.1 h
  have hfollows := t.follows
  rw [ht, follows_append] at hfollows
  obtain ⟨p, hxs, _ | ⟨hm, -⟩⟩ := hfollows
  have hblank := hr.blank hxs blank_empty
  have he : e.Distinct := hdistinct e (by simp [ht])
  have hfresh : ∀ {ds : List Declaration}, (ds.map Declaration.name).Nodup → c.current.declared =
      [] → c.Untaken ds :=
    fun hds hnone => ⟨hds, fun d _ => by rw [Function.find?, hnone]; rfl⟩
  cases hm with
  | globals vars => exact hfresh he (hblank (.inl rfl)).2
  | locals params vars => exact hfresh he (hblank (.inr rfl)).2
  | define result name =>
    have hnames := t.names_results
    rw [ht, List.filterMap_append, List.map_append] at hnames
    have hnodup := hfunctions.map (Option.some_injective _)
    rw [← hnames, List.nodup_append] at hnodup
    refine List.find?_eq_none.2 fun f hf hname => ?_
    have hmem : f.name ∈ c.functions.map Function.name := List.mem_map_of_mem hf
    rw [names_functions hr, show f.name = some name by simpa using hname] at hmem
    rcases List.mem_cons.1 hmem with hmem | hmem
    · cases hmem
    · exact hnodup.2.2 _ hmem _ (by simp [Event.result?]) rfl
  | size he _ => rcases he with rfl | ⟨t, v, rfl⟩ <;> trivial
  | inner he _ => cases e <;> trivial
  | close | enter | finish => trivial

end Compiler

/-! ## Uses of names -/

/-- The variable that an event uses, by its name. -/
def Event.usedName? : Event → Option String
  | .useVariable n | .useElement n | .assign n => some n
  | _ => none

/-- The bodies of a tree: the events before the head of a body, its head, what the head declares,
and the body. -/
inductive Tree.HasBody (t : Tree) : List Event → List Event → List Declaration → Block → Prop
  | function {xs ys : List FunctionTree} {f : FunctionTree} : t.functions = xs ++ f :: ys →
      HasBody t (t.opening ++ xs.flatMap FunctionTree.events) f.head f.declarations f.body
  | main : HasBody t (t.opening ++ t.functions.flatMap FunctionTree.events) [.enterMain] [] t.main

namespace Compiler

open Position

variable {c' c₁ d d' : Compiler} {es : List Event} {v : Variable} {p p' : Position}

/-- What an event makes of a variable: an operand with its address, or quads with it. -/
inductive Denotes (v : Variable) : Event → Compiler → Compiler → Prop
  | operand {c c' : Compiler} {n : String} : c'.operands = ⟨v.kind, .num v.address⟩ :: c.operands →
      Denotes v (.useVariable n) c c'
  | element {c c' : Compiler} {n : String} {k : Kind} {size a : Int} {i : Field} :
      v.elements = some (k, size) →
      c'.quads.toList = c.quads.toList ++ [[.word "VER", i, .num 0, .num size],
        [.word "ACCESS", .num v.address, i, .num a]] →
      c'.operands = ⟨k, .pointer a⟩ :: c.operands.tail → Denotes v (.useElement n) c c'
  | target {c c' : Compiler} {n : String} {x : Field} :
      c'.quads.toList = c.quads.toList ++ [[.word "=", x, .num v.address]] →
        Denotes v (.assign n) c c'
  | targetElement {c c' : Compiler} {n : String} {k : Kind} {size a : Int} {i x : Field} :
      v.elements = some (k, size) →
      c'.quads.toList = c.quads.toList ++ [[.word "VER", i, .num 0, .num size],
        [.word "ACCESS", .num v.address, i, .num a], [.word "=", x, .pointer a]] →
          Denotes v (.assign n) c c'

theorem toList_point (c : Compiler) (base size : Int) (t : Ty) (i : Field) :
    (c.point base size t i).quads.toList = c.quads.toList ++ [[.word "VER", i, .num 0, .num size],
      [.word "ACCESS", .num base, i, .num (c.next .temporals t)]] := by
  simp [point, emit, reserve]

theorem Acts.denotes (ha : Acts e c c') (he : e.usedName? = some n) :
    ∃ v, c.denoted? n = some v ∧ Denotes v e c c' := by
  cases ha with
  | useVariable hv =>
    cases he
    exact ⟨_, hv, .operand rfl⟩
  | useElement hoperands _ hv helements =>
    cases he
    refine ⟨_, hv, .element helements (toList_point ..) ?_⟩
    rw [hoperands]
    rfl
  | @assignVariable _ _ _ right _ hv =>
    cases he
    exact ⟨_, hv, .target (x := right.place) (by simp [emit])⟩
  | @assignElement _ _ v index right rest k size t hv _ _ helements =>
    cases he
    refine ⟨v, hv, .targetElement (i := index.place) (x := right.place) (a := c.next .temporals t)
      helements ?_⟩
    rw [emit, Array.toList_push, toList_point, List.append_assoc]
    rfl
  | _ => cases he

/-! ### Global variables -/

/-- Array sizes take cells for constants only. -/
theorem RunsBy.next_of_isSize {s : Sector} (hr : Runs es c c') (hes : ∀ e ∈ es, IsSize e)
    (hs : s ≠ .constants) : c'.next s = c.next s := by
  induction hr with
  | nil => rfl
  | @cons e es c c' c'' ha _ ih =>
    obtain ⟨he, hes⟩ := List.forall_mem_cons.1 hes
    refine (ih hes).trans ?_
    cases ha with
    | oldConstant | dropSize => rfl
    | @newConstant _ t =>
      funext u
      exact (next_reserve c .constants s t u 1).trans (by simp [hs])
    | _ => rcases he with he | ⟨_, _, he⟩ <;> cases he

theorem isSize_sizesOf (gs : List Group) : ∀ e ∈ sizesOf gs, IsSize e := by
  intro e he
  obtain ⟨g, -, he⟩ := List.mem_flatMap.1 he
  exact mem_sizes he

/-- The variables of the whole program. -/
def globalsOf (t : Tree) : List Variable :=
  variablesFrom (({} : Compiler).next .globals) (declarationsOf t.globals)

theorem exists_globals (hr : Runs t.opening {} c) :
    ∃ F, c.function? none = some F ∧ F.declared = globalsOf t := by
  obtain ⟨d, hsizes, hdeclare⟩ := runs_append.1 hr
  have ha := runs_singleton.1 hdeclare
  have hquiet := hsizes.quiet (quiet_sizesOf _)
  have hopen : ({} : Compiler).IsOpen := ⟨rfl, List.nodup_nil⟩
  obtain ⟨hopen', hcurrent⟩ := isOpen_congr hquiet.functions hquiet.scope hopen
  have hnext : d.next .globals = ({} : Compiler).next .globals :=
    hsizes.next_of_isSize (isSize_sizesOf _) (by decide)
  have hin := ha.introduces_globals hopen'
  have hscope : c.scope = none := (ha.scope_of_not (by simp) (by simp)).trans hquiet.scope
  obtain ⟨F, hF⟩ := Option.isSome_iff_exists.1 hin.isOpen.known
  rw [hscope] at hF
  refine ⟨F, hF, ?_⟩
  have hdeclared := hin.declared
  rw [show c.current = F by rw [current, hscope, hF]; rfl, hcurrent,
    show variableSector true = .globals from rfl, hnext] at hdeclared
  exact hdeclared

/-- After they have been declared, the global variables stay. -/
theorem Acts.globals_kept (ha : Acts e c c') (hm : Admits e p p') (hat : c.IsAt p) (hp : p ≠ .start)
    {F : Function} (hF : c.function? none = some F) :
    ∃ F', c'.function? none = some F' ∧ F'.declared = F.declared := by
  obtain ⟨F', hF', -, -, hsame⟩ := ha.keepsTable.kept hF
  by_cases hscope : c.scope = none
  · have hfunctions : c'.functions = c.functions → ∃ F', c'.function? none = some F' ∧
        F'.declared = F.declared :=
      fun h => ⟨F, by rwa [function?, h], rfl⟩
    cases hm with
    | size he hpos =>
      rcases hpos with rfl | rfl
      · exact absurd rfl hp
      · exact absurd hscope (hat.2 (.inl rfl))
    | globals => exact absurd rfl hp
    | define result name =>
      cases ha with
      | defineFunction =>
        refine ⟨F, ?_, rfl⟩
        rw [function?, define, List.find?_append, show c.functions.find? _ = some F from hF]
        rfl
    | locals => exact absurd hscope (hat.2 (.inl rfl))
    | close => exact absurd hscope (hat.2 (.inr rfl))
    | inner he _ =>
      have hkept := ha.current_of_isInner Function.declared (fun _ _ => rfl) he
      rw [current, current, ha.scope_of_isInner he, hscope, hF, hF'] at hkept
      exact ⟨F', hF', hkept⟩
    | enter =>
      cases ha
      exact hfunctions rfl
    | finish =>
      cases ha
      exact hfunctions rfl
  · exact ⟨F', hF', by rw [hsame (Ne.symm hscope)]⟩

theorem RunsBy.globals_kept (hr : Runs es c c') (hes : Follows p es p') (hat : c.IsAt p)
    (hp : p ≠ .start) {F : Function} (hF : c.function? none = some F) :
    ∃ F', c'.function? none = some F' ∧ F'.declared = F.declared := by
  induction hes generalizing c F with
  | nil => exact ⟨F, by rwa [runs_nil.1 hr], rfl⟩
  | @cons p p₁ _ e _ hm _ ih =>
    obtain ⟨d, hd, hrest⟩ := runs_cons.1 hr
    obtain ⟨F₁, hF₁, hdeclared₁⟩ := hd.globals_kept hm hat hp hF
    have hp₁ : p₁ ≠ .start := by
      cases hm with
      | size _ _ => exact hp
      | inner _ hpos => exact hp
      | _ => simp
    obtain ⟨F', hF', hdeclared⟩ := ih hrest (hd.isAt hm hat) hp₁ hF₁
    exact ⟨F', hF', hdeclared.trans hdeclared₁⟩

/-! ### Variables of functions -/

/-- At the start of its body a function has the variables of its head, and no others. -/
theorem RunsBy.own_variables {f : FunctionTree} (hr : Runs f.head c c') :
    c'.IsOpen ∧ c'.current.declared = variablesFrom (c.next .locals) f.declarations ∧
      c'.current.declared.map Variable.name = f.declarations.map Declaration.name := by
  obtain ⟨c₁, hdefine, hrest⟩ := runs_cons.1 hr
  obtain ⟨c₂, hsizes, hlocals⟩ := runs_append.1 hrest
  cases hdefine with
  | defineFunction hnew =>
    obtain ⟨hopen, hnone⟩ := isOpen_define f.result hnew
    have hquiet := hsizes.quiet (quiet_sizesOf _)
    obtain ⟨hopen', hcurrent⟩ := isOpen_congr hquiet.functions hquiet.scope hopen
    have hnext : c₂.next .locals = c.next .locals :=
      hsizes.next_of_isSize (isSize_sizesOf _) (by decide)
    obtain ⟨hopen'', hdeclared, hnames⟩ := (runs_singleton.1 hlocals).introduces_locals hopen'
    rw [show variableSector false = .locals from rfl, hnext] at hdeclared hnames
    rw [hcurrent, hnone, List.nil_append] at hdeclared
    exact ⟨hopen'', hdeclared, by rw [hdeclared]; exact hnames⟩

end Compiler

open Compiler

namespace Tree

variable {own : List Declaration} {b : Block} {before head : List Event} {d : Compiler}
  {v : Variable}

/-- What a name stands for in a function with the declarations `own`, where `c` is the state before
the function: for what the function declares under this name, else for the global variable. -/
def Binds (t : Tree) (own : List Declaration) (c : Compiler) (n : String) (v : Variable) : Prop :=
  v.name = n ∧ (n ∈ own.map Declaration.name ∧ v ∈ variablesFrom (c.next .locals) own ∨
    n ∉ own.map Declaration.name ∧ v ∈ globalsOf t)

/-- Every name that is used in a body denotes the variable that it is bound to. There is one run at
most of the events before it (`Compiler.RunsBy.unique`). -/
def Resolves (t : Tree) : Prop :=
  ∀ before head own b, t.HasBody before head own b → ∀ xs e ys n, b.events = xs ++ e :: ys →
    e.usedName? = some n →
    ∃ c d d' v, Runs before {} c ∧ Runs (before ++ head ++ xs) {} d ∧ Acts e d d' ∧
      Denotes v e d d' ∧ t.Binds own c n v

/-- A name is used that neither the function around it nor the program declares. -/
def HasUnknownName (t : Tree) : Prop :=
  ∃ before head own b xs e ys n, t.HasBody before head own b ∧ b.events = xs ++ e :: ys ∧
    e.usedName? = some n ∧
    n ∉ own.map Declaration.name ∧ n ∉ (declarationsOf t.globals).map Declaration.name

/-- The events of a tree around one of its bodies. -/
theorem HasBody.exists_runs (h : t.HasBody before head own b) (hr : TidyRuns t.events {} c) :
    ∃ c₁ c₂ c₃, TidyRuns before {} c₁ ∧ TidyRuns head c₁ c₂ ∧ TidyRuns b.events c₂ c₃ := by
  cases h with
  | function hf =>
    obtain ⟨c₁, c₂, c₃, hphase⟩ := exists_phase hr hf
    exact ⟨c₁, c₂, c₃, hphase.before, hphase.head, hphase.body⟩
  | main =>
    rw [t.events_eq, ← List.append_assoc] at hr
    obtain ⟨c₁, hbefore, hr⟩ := runs_append.1 hr
    obtain ⟨c₂, henter, hr⟩ := runs_cons.1 hr
    obtain ⟨c₃, hmain, -⟩ := runs_append.1 hr
    exact ⟨c₁, c₂, c₃, hbefore, runs_singleton.2 henter, hmain⟩

/-- The positions around a body. -/
theorem HasBody.follows (h : t.HasBody before head own b) :
    ∃ rest p, before = t.opening ++ rest ∧ Position.Follows .between (rest ++ head) p ∧
      Position.Follows p b.events p := by
  cases h with
  | @function xs ys f =>
    refine ⟨_, .body, rfl, (FunctionTree.follows_all xs).append ?_, Position.follows_block _
      (.inl rfl)⟩
    exact .cons (.define _ _) ((Position.follows_sizes f.vars (.inr rfl)).append
      (.cons (.locals _ _) (.nil _)))
  | main =>
    exact ⟨_, .main, rfl, (FunctionTree.follows_all t.functions).append (.cons .enter (.nil _)),
      Position.follows_block _ (.inr rfl)⟩

/-- In a body the global variables are known. -/
theorem HasBody.exists_globals (h : t.HasBody before head own b)
    (hr : Runs (before ++ head ++ xs) {} d) (hb : b.events = xs ++ ys) :
    ∃ F, d.function? none = some F ∧ F.declared = globalsOf t := by
  obtain ⟨rest, p, rfl, hfollows, hbody⟩ := h.follows
  rw [hb, Position.follows_append] at hbody
  obtain ⟨p', hxs, -⟩ := hbody
  rw [List.append_assoc, List.append_assoc, ← List.append_assoc rest] at hr
  obtain ⟨c₀, hopening, hrest⟩ := runs_append.1 hr
  obtain ⟨F, hF, hdeclared⟩ := Compiler.exists_globals hopening
  have hat : c₀.IsAt .between := hopening.isAt t.follows_opening isAt_empty
  obtain ⟨F', hF', hdeclared'⟩ := hrest.globals_kept (hfollows.append hxs) hat (by decide) hF
  exact ⟨F', hF', hdeclared'.trans hdeclared⟩

theorem exists_of_find? {f : Function} (h : f.find? n = some v) : v ∈ f.declared ∧ v.name = n :=
  ⟨List.mem_of_find?_eq_some h, by simpa using List.find?_some h⟩

theorem runs_body (hbefore : TidyRuns before {} c) (hhead : TidyRuns head c c₂)
    (hxs : TidyRuns xs c₂ d) : Runs (before ++ head ++ xs) {} d :=
  runs_append.2 ⟨c₂, runs_append.2 ⟨c, hbefore.plain, hhead.plain⟩, hxs.plain⟩

/-- What is looked up in a body is what the name is bound to. -/
theorem HasBody.binds (h : t.HasBody before head own b) (hbefore : TidyRuns before {} c)
    (hhead : TidyRuns head c c₂) (hxs : TidyRuns xs c₂ d) (hb : b.events = xs ++ ys)
    (hv : d.denoted? n = some v) : t.Binds own c n v := by
  obtain ⟨F, hF, hglobals⟩ := h.exists_globals (runs_body hbefore hhead hxs) hb
  have hinner : ∀ e ∈ xs, e.isInner = true := fun e he => b.isInner e (by simp [hb, he])
  have hdeclared := hxs.declared_of_isInner hinner
  rw [denoted?, hF, Option.bind_some] at hv
  cases h with
  | function =>
    obtain ⟨-, hown, hnames⟩ := hhead.plain.own_variables
    have hmem : n ∈ _ ↔ n ∈ _ := (congrArg (n ∈ ·) hnames).to_iff
    rcases Option.or_eq_some_iff.1 hv with hfound | ⟨hnone, hfound⟩
    · obtain ⟨hown', rfl⟩ := exists_of_find? hfound
      rw [hdeclared] at hown'
      exact ⟨rfl, .inl ⟨hmem.1 (List.mem_map_of_mem hown'), hown ▸ hown'⟩⟩
    · obtain ⟨hglobal, rfl⟩ := exists_of_find? hfound
      refine ⟨rfl, .inr ⟨fun hn => ?_, hglobals ▸ hglobal⟩⟩
      obtain ⟨w, hw, hname⟩ := List.mem_map.1 (hmem.2 hn)
      exact List.find?_eq_none.1 hnone w (hdeclared ▸ hw) (by simpa using hname)
  | main =>
    -- in the main part the current function is the one that has the global variables
    have hscope : d.scope = none := by
      have hat : c.IsAt .between :=
        hbefore.plain.isAt (t.follows_opening.append
          (FunctionTree.follows_all t.functions)) isAt_empty
      rw [hxs.scope_of_isInner hinner, (runs_singleton.1 hhead).1.scope_of_not (by simp) (by simp)]
      exact hat.scope_eq_none (by simp [Position.InFunction])
    rw [current, hscope, hF, Option.getD_some, Option.or_self] at hv
    obtain ⟨hglobal, rfl⟩ := exists_of_find? hv
    exact ⟨rfl, .inr ⟨by simp, hglobals ▸ hglobal⟩⟩

theorem resolves (hr : Runs t.events {} c) : t.Resolves := by
  intro before head own b hbody xs e ys n hb he
  obtain ⟨c₁, c₂, c₃, hbefore, hhead, hevents⟩ := hbody.exists_runs (t.laidOut hr).1
  rw [hb] at hevents
  obtain ⟨d, hxs, hrest⟩ := runs_append.1 hevents
  obtain ⟨d', ⟨ha, -⟩, -⟩ := runs_cons.1 hrest
  obtain ⟨v, hv, hdenotes⟩ := ha.denotes he
  exact ⟨c₁, d, d', v, hbefore.plain, runs_body hbefore hhead hxs, ha, hdenotes,
    hbody.binds hbefore hhead hxs hb hv⟩

/-- Variables have the names of their declarations. -/
theorem name_of_mem_variablesFrom {next : Ty → Int} {ds : List Declaration}
    (h : v ∈ variablesFrom next ds) : v.name ∈ ds.map Declaration.name := by
  induction ds generalizing next with
  | nil => cases h
  | cons d ds ih =>
    rw [variablesFrom] at h
    split at h
    case h_1 => cases h
    case h_2 t _ =>
      rcases List.mem_cons.1 h with rfl | h
      · simp [d.name_toVariable]
      · exact List.mem_cons_of_mem _ (ih h)

/-- Where all names are bound, none is unknown. -/
theorem Resolves.not_hasUnknownName (h : t.Resolves) : ¬t.HasUnknownName := by
  rintro ⟨before, head, own, b, xs, e, ys, n, hbody, hb, he, hown, hglobal⟩
  obtain ⟨c, d, d', v, -, -, -, -, rfl, ⟨hmem, -⟩ | ⟨-, hv⟩⟩ :=
    h before head own b hbody xs e ys n hb he
  · exact hown hmem
  · exact hglobal (name_of_mem_variablesFrom hv)

end Tree

theorem Ending.complaint_ne {e : Ending} {r : Rejection} (h : e.rejection? = some r) :
    r.complaint? ≠ some .redeclaration := by
  cases e with
  | accepted => cases h
  | unexpected | illegal | overlong =>
    cases h
    simp [Rejection.complaint?]

namespace Compiled

variable {line : Nat} {source : String}

/-- A source without clashes is not rejected for a second declaration. -/
theorem not_redeclaration (ht : t.events = (Trace.ofSource line source).events) (h : t.ClashFree)
    {r : Rejection} (hr : (ofSource line source).rejection = some r) :
    r.complaint? ≠ some .redeclaration := by
  have hsteps : (ofSource line source).rejection = (Trace.ofSource line source).ending.rejection? ∨
      _ :=
    rejection_or_exists_step
  rcases hsteps with hend | ⟨xs, s, ys, r', c, c', hsteps, hruns, hperform, hrejection⟩
  · exact Ending.complaint_ne (hend.symm.trans hr)
  · obtain rfl : r = r' := Option.some.inj (hr.symm.trans hrejection)
    have hevents : t.events = xs.map Step.event ++ s.event :: ys.map Step.event := by
      rw [ht, Trace.events, hsteps, List.map_append, List.map_cons]
    have hholding : Holding True c := fun _ _ _ => trivial
    rcases Compile.rejects_or_special (D := True) (ready hruns hevents) hholding
      (fun _ => declarable h hruns hevents) hperform with htolerated | ⟨name, -, -, rfl⟩
    · intro hcomplaint
      cases htolerated with
      | complaint hk _ hnot => exact hnot (Option.some.inj (hk.symm.trans hcomplaint)) trivial
      | unnamed | empty | long => cases hcomplaint
    · simp [Rejection.complaint?]

/-- Declarations and scopes are as they should be in the trees of a source. -/
structure NamesScoped (line : Nat) (source : String) (t : Tree) : Prop where
  clash : ¬t.ClashFree → (ofSource line source).rejection ≠ none
  noClash : t.ClashFree → ∀ r, (ofSource line source).rejection = some r →
    r.complaint? ≠ some .redeclaration
  resolves : (ofSource line source).rejection = none → t.Resolves
  unknown : t.HasUnknownName → (ofSource line source).rejection ≠ none

/-- Every source of the grammar has a tree, and its trees tell whether names clash and what they
denote. -/
theorem names_scoped (h : (Trace.ofSource line source).ending = .accepted) :
    (∃ t : Tree, t.events = (Trace.ofSource line source).events) ∧
      ∀ t : Tree, t.events = (Trace.ofSource line source).events → NamesScoped line source t := by
  refine ⟨Trace.exists_tree h, fun t ht => ?_⟩
  have hruns : (ofSource line source).rejection = none →
      Runs t.events {} (ofSource line source).state := by
    intro hnone
    rw [ht]
    exact (runs_ofSteps hnone).2
  exact {
    clash := fun hclash hnone => hclash (clashFree_of_runs (hruns hnone))
    noClash := fun hfree r hr => not_redeclaration ht hfree hr
    resolves := fun hnone => Tree.resolves (hruns hnone)
    unknown := fun hunknown hnone => (Tree.resolves (hruns hnone)).not_hasUnknownName hunknown }

/-- A parameter has the name of a global variable. -/
theorem names_scoped_shadowing :
    let source := "program p; int x, a[3]; fun int f(int x) { return a[x]; } x = f(2);"
    (ofSource 1 source).rejection = none ∧
      ∃ t : Tree, t.ClashFree ∧ t.Resolves ∧ t.events = (Trace.ofSource 1 source).events := by
  intro source
  have haccepted : (ofSource 1 source).rejection = none := by
    decide +kernel
  have hending : (Trace.ofSource 1 source).ending = .accepted := by
    decide +kernel
  obtain ⟨⟨t, ht⟩, hscoped⟩ := names_scoped hending
  have hfree : t.ClashFree := by
    by_contra hclash
    exact (hscoped t ht).clash hclash haccepted
  exact ⟨haccepted, t, hfree, (hscoped t ht).resolves haccepted, ht⟩

end Compiled

end Symphony
