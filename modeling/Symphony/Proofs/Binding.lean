import Symphony.Proofs.Blocks
import Symphony.Proofs.Leftovers
import Symphony.Proofs.Temporals

/-!
# Binding of parameters

At the start of a function its parameters are bound one after the other, in the same local cells
from which the operands of the call may be read. In a call of a function by itself an operand may be
a parameter that has been bound just before.

**Theorem.** `Compiled.parameters_bound`: at the start of a function each parameter holds the value
that its operand had before the call, but for an operand that is the cell of an earlier parameter:
there it holds the value that this parameter now has.
-/

namespace Symphony

variable {p : (Kind × Int) × String} {v : Variable} {a : Int} {isGlobal : Bool} {k : Kind} {t : Ty}
  {x : Field}

/-! ## Binding in memory -/

theorem Memory.read_of_order {m : Memory} {s r : Slot} (h : Slot.order s r = .eq) :
    m.read s = m.read r := by
  rw [read, read, (Slot.order_eq_iff.1 h).1]
  cases Sector.locate? r.base with
  | none => rfl
  | some place => simp only [Std.TreeMap.getElem?_congr h]

namespace Routine

variable {ps before after : List ((Kind × Int) × String)} {m m' : Machine}

theorem bind_cons_ok {x : String} (h : (bind (((k, a), x) :: ps)).runFrom m = (.ok (), m')) :
    ∃ t v m₁, k.ty? = some t ∧ m.memory.load (.ofField x) = .ok v ∧
      (writeLocal t a v).runFrom m = (.ok (), m₁) ∧ (bind ps).runFrom m₁ = (.ok (), m') := by
  obtain ⟨v, m₁, hvalue, hrest⟩ := Attempt.bind_ok h
  rw [Exec.runFrom_value] at hvalue
  obtain ⟨hv, rfl⟩ := Prod.mk.inj hvalue
  split at hrest
  case h_1 => cases hrest
  case h_2 t ht =>
    obtain ⟨_, m₁, hwrite, hrest⟩ := Attempt.bind_ok hrest
    exact ⟨t, v, m₁, ht, hv, hwrite, hrest⟩

/-- The cells in which parameters are bound: local cells of their types, no two the same. -/
structure ArePlaced (ps : List ((Kind × Int) × String)) : Prop where
  located : ∀ p ∈ ps, ∃ t, p.1.1.ty? = some t ∧ Sector.locate? p.1.2 = some (.locals, t)
  nodup : (ps.map (·.1.2)).Nodup

theorem ArePlaced.of_cons (h : ArePlaced (p :: ps)) : ArePlaced ps where
  located q hq := h.located q (List.mem_cons_of_mem _ hq)
  nodup := (List.nodup_cons.1 h.nodup).2

theorem ArePlaced.order_ne {q : (Kind × Int) × String} (h : ArePlaced (p :: ps)) (hq : q ∈ ps) :
    Slot.order (.ofInt q.1.2) (.ofInt p.1.2) ≠ .eq := by
  intro he
  rw [Slot.order_ofInt] at he
  exact (List.nodup_cons.1 h.nodup).1 (List.mem_map.2 ⟨q, hq, he⟩)

theorem ArePlaced.write {v : Value} (h : ArePlaced ps) (hp : p ∈ ps) (ht : p.1.1.ty? = some t)
    (hwrite : (writeLocal t p.1.2 v).runFrom m = (.ok (), m')) :
    m.memory.write (.ofInt p.1.2) v = .ok m'.memory := by
  obtain ⟨u, hu, ha⟩ := h.located p hp
  obtain rfl := Option.some.inj (hu.symm.trans ht)
  cases hwrite
  rw [Memory.write, show (Slot.ofInt p.1.2).base = p.1.2 from rfl, ha]
  rfl

/-- Binding writes the cells of the parameters only. -/
theorem read_of_bind (hps : ArePlaced ps) (h : (bind ps).runFrom m = (.ok (), m')) {s : Slot}
    (hs : ∀ p ∈ ps, Slot.order (.ofInt p.1.2) s ≠ .eq) : m'.memory.read s = m.memory.read s := by
  induction ps generalizing m with
  | nil =>
    cases h
    rfl
  | cons p ps ih =>
    obtain ⟨⟨k, a⟩, x⟩ := p
    obtain ⟨t, v, m₁, ht, -, hwrite, hrest⟩ := bind_cons_ok h
    have hwrite := hps.write List.mem_cons_self ht hwrite
    rw [ih hps.of_cons hrest fun p hp => hs p (List.mem_cons_of_mem _ hp),
      Memory.read_of_write hwrite, if_neg (hs _ List.mem_cons_self)]

/-- When a parameter is bound, the parameters before it have the values they keep. -/
theorem exists_of_bind {x : String} (hps : ArePlaced (before ++ ((k, a), x) :: after))
    (h : (bind (before ++ ((k, a), x) :: after)).runFrom m = (.ok (), m')) :
    ∃ (m₁ : Machine) (v : Value), m'.memory.read (.ofInt a) = .ok v ∧
      m₁.memory.load (.ofField x) = .ok v ∧
      (∀ s, (∀ p ∈ before, Slot.order (.ofInt p.1.2) s ≠ .eq) →
        m₁.memory.read s = m.memory.read s) ∧
      ∀ p ∈ before, m₁.memory.read (.ofInt p.1.2) = m'.memory.read (.ofInt p.1.2) := by
  induction before generalizing m with
  | nil =>
    obtain ⟨t, v, m₁, ht, hv, hwrite, hrest⟩ := bind_cons_ok h
    have hwrite := hps.write List.mem_cons_self ht hwrite
    refine ⟨m, v, ?_, hv, fun _ _ => rfl, by simp⟩
    rw [read_of_bind hps.of_cons hrest fun p hp => hps.order_ne hp, Memory.read_write_self hwrite]
  | cons p before ih =>
    obtain ⟨⟨k', b⟩, y⟩ := p
    obtain ⟨t, v, m₁, ht, -, hwrite, hrest⟩ := bind_cons_ok h
    have hwrite := hps.write List.mem_cons_self ht hwrite
    obtain ⟨m₂, w, hread, hload, hkept, hbound⟩ := ih hps.of_cons hrest
    have hother : ∀ q ∈ before ++ ((k, a), x) :: after, Slot.order (.ofInt q.1.2)
        (.ofInt b) ≠ .eq := fun q hq => hps.order_ne hq
    refine ⟨m₂, w, hread, hload, fun s hs => ?_, List.forall_mem_cons.2 ⟨?_, hbound⟩⟩
    · rw [hkept s fun q hq => hs q (List.mem_cons_of_mem _ hq), Memory.read_of_write hwrite,
        if_neg (hs _ List.mem_cons_self)]
    · rw [hkept _ fun q hq => hother q (List.mem_append_left _ hq),
        read_of_bind hps.of_cons hrest hother]

/-- What a parameter is bound to: the value of the operand before the call, or, if the operand
stands for a parameter that has been bound before, the value of that parameter. -/
theorem exists_bound (hps : ArePlaced (before ++ ((k, a), x.text) :: after)) (hx : x.IsOf t)
    (h : (bind (before ++ ((k, a), x.text) :: after)).runFrom m = (.ok (), m')) :
    ∃ s v, m.memory.resolve (.ofField x.text) = .ok s ∧ m'.memory.read (.ofInt a) = .ok v ∧
      ((∀ p ∈ before, Slot.order (.ofInt p.1.2) s ≠ .eq) →
        m.memory.load (.ofField x.text) = .ok v) ∧
      ∀ p ∈ before, Slot.order (.ofInt p.1.2) s = .eq → m'.memory.read (.ofInt p.1.2) = .ok v := by
  obtain ⟨m₁, v, hread, hload, hkept, hbound⟩ := exists_of_bind hps h
  have hresolve : m₁.memory.resolve (.ofField x.text) = m.memory.resolve (.ofField x.text) := by
    cases x with
    | word => cases hx
    | num b =>
      obtain ⟨_, hb⟩ := hx
      rw [Reference.ofField_num (Sector.natAbs_lt_tooLong hb)]
      rfl
    | pointer b =>
      have hb : Sector.locate? b = some (.temporals, t) := hx
      -- the cell of a pointer is not that of a parameter
      have hcell : m₁.memory.read (.ofInt b) = m.memory.read (.ofInt b) := by
        refine hkept _ fun p hp he => ?_
        obtain ⟨u, -, hlocal⟩ := hps.located p (List.mem_append_left _ hp)
        rw [Slot.order_ofInt] at he
        rw [he, hb] at hlocal
        cases hlocal
      rw [Reference.ofField_pointer (Sector.natAbs_lt_tooLong hb)]
      exact congrArg (Except.bind · Slot.ofValue) hcell
  rw [Memory.load, hresolve] at hload
  cases hs : m.memory.resolve (.ofField x.text) with
  | error =>
    rw [hs] at hload
    cases hload
  | ok s =>
    rw [hs] at hload
    have hvalue : m₁.memory.read s = .ok v := hload
    refine ⟨s, v, rfl, hread, fun hother => ?_, fun p hp heq => ?_⟩
    · rw [Memory.load, hs]
      exact (hkept s hother).symm.trans hvalue
    · rw [← hbound p hp, Memory.read_of_order heq, hvalue]

/-- Parameters with their operands, as they are bound. -/
def pairs (vs : List Variable) (xs : List Field) : List ((Kind × Int) × String) :=
  ((vs.map Variable.kind).zip (vs.map Variable.address)).zip (xs.map Field.text)

variable {vs : List Variable} {xs : List Field}

theorem cells_pairs (h : xs.length = vs.length) :
    (pairs vs xs).map (·.1.2) = vs.map Variable.address := by
  have hcells : ((vs.map Variable.kind).zip (vs.map Variable.address)).map Prod.snd =
      vs.map Variable.address :=
    List.map_snd_zip (by simp)
  have hpairs : (pairs vs xs).map Prod.fst = (vs.map Variable.kind).zip (vs.map Variable.address) :=
    List.map_fst_zip (by simp [h])
  rw [← hcells, ← hpairs, List.map_map]
  rfl

theorem exists_of_mem_pairs (h : p ∈ pairs vs xs) : ∃ v ∈ vs, p.1 = (v.kind, v.address) := by
  have hmem := (List.of_mem_zip h).1
  rw [List.zip_map'] at hmem
  obtain ⟨v, hv, heq⟩ := List.mem_map.1 hmem
  exact ⟨v, hv, heq.symm⟩

theorem getElem?_pairs {i : Nat} (hx : xs[i]? = some x) (hv : vs[i]? = some v) :
    (pairs vs xs)[i]? = some ((v.kind, v.address), x.text) := by
  simp [pairs, List.getElem?_zip_eq_some, hx, hv]

/-- The parameter at an index is bound to the operand at that index. -/
theorem bound_of_bind (hlength : xs.length = vs.length) (hplaced : ArePlaced (pairs vs xs))
    (h : (bind (pairs vs xs)).runFrom m = (.ok (), m')) {i : Nat} (hx : xs[i]? = some x)
    (hfits : x.IsOf t) (hv : vs[i]? = some v) :
    ∃ s u, m.memory.resolve (.ofField x.text) = .ok s ∧ m'.memory.read (.ofInt v.address) = .ok u ∧
      ((∀ w ∈ vs.take i, Slot.order (.ofInt w.address) s ≠ .eq) →
        m.memory.load (.ofField x.text) = .ok u) ∧
      ∀ w ∈ vs.take i, Slot.order (.ofInt w.address) s = .eq → m'.memory.read (.ofInt w.address) =
        .ok u := by
  obtain ⟨hi, hpair⟩ := List.getElem?_eq_some_iff.1 (getElem?_pairs hx hv)
  have hsplit : pairs vs xs =
      (pairs vs xs).take i ++ ((v.kind, v.address), x.text) :: (pairs vs xs).drop (i + 1) := by
    rw [← hpair, List.getElem_cons_drop, List.take_append_drop]
  have hcells : ((pairs vs xs).take i).map (·.1.2) = (vs.take i).map Variable.address := by
    rw [List.map_take, cells_pairs hlength, List.map_take]
  rw [hsplit] at hplaced h
  obtain ⟨s, u, hs, hu, hother, hsame⟩ := exists_bound hplaced hfits h
  have hiff (P : Int → Prop) : (∀ p ∈ (pairs vs xs).take i, P p.1.2) ↔
      ∀ w ∈ vs.take i, P w.address := by
    have hpairs : (∀ a ∈ ((pairs vs xs).take i).map (·.1.2), P a) ↔ _ := List.forall_mem_map
    rw [← hpairs, hcells, List.forall_mem_map]
  refine ⟨s, u, hs, hu, fun hne => hother ((hiff fun a => Slot.order (.ofInt a) s ≠ .eq).2 hne), ?_⟩
  exact (hiff fun a => Slot.order (.ofInt a) s = .eq → m'.memory.read (.ofInt a) = .ok u).1 hsame

end Routine

/-! ## The parameters of a function -/

namespace Compiler

variable {c c' : Compiler}

theorem current_updateCurrent {change : Function → Function} (hname : ∀ f, (change f).name = f.name)
    (hknown : (c.function? c.scope).isSome = true) :
    (c.updateCurrent change).current = change c.current := by
  obtain ⟨f, hf⟩ := Option.isSome_iff_exists.1 hknown
  have hf' : (c.updateCurrent change).function? c.scope = _ := function?_of_update rfl hname c.scope
  rw [hf, Option.map_some, if_pos (name_of_function? hf)] at hf'
  rw [current, current, hf, show (c.updateCurrent change).scope = c.scope from rfl, hf']
  rfl

/-- The current function is in the table, and its variables have different names. -/
structure IsOpen (c : Compiler) : Prop where
  known : (c.function? c.scope).isSome = true
  names : (c.current.declared.map Variable.name).Nodup

theorem IsOpen.update {change : Function → Function} (h : c.IsOpen)
    (hname : ∀ f, (change f).name = f.name)
    (hnames : ((change c.current).declared.map Variable.name).Nodup) :
    (c.updateCurrent change).IsOpen where
  known := by
    rw [show (c.updateCurrent change).scope = c.scope from rfl, function?_of_update rfl hname,
      Option.isSome_map, h.known]
  names := by rwa [current_updateCurrent hname h.known]

theorem IsOpen.addVariable (h : c.IsOpen) (hnew : c.current.find? v.name = none) (s : Sector)
    (t : Ty) (n : Int) : ((c.reserve s t n).addVariable v).IsOpen ∧
      ((c.reserve s t n).addVariable v).current =
        { c.current with declared := c.current.declared ++ [v] } := by
  have hopen : (c.reserve s t n).IsOpen := ⟨h.known, h.names⟩
  refine ⟨hopen.update (fun _ => rfl) ?_, current_updateCurrent (fun _ => rfl) hopen.known⟩
  rw [List.map_append, List.nodup_append]
  refine ⟨h.names, List.nodup_singleton _, ?_⟩
  rintro _ hw _ hv rfl
  obtain ⟨w, hw, hname⟩ := List.mem_map.1 hw
  have hne := List.find?_eq_none.1 hnew w hw
  simp_all

theorem Declares.current {d : Declaration} (h : Declares isGlobal d c c') (hc : c.IsOpen) :
    ∃ v : Variable, v.name = d.name ∧ (d.extent = none → v.kind = d.kind ∧ v.elements = none) ∧
      c.current.find? d.name = none ∧ c'.IsOpen ∧
      c'.current = { c.current with declared := c.current.declared ++ [v] } := by
  cases h with
  | @scalar t hextent hnew ht =>
    let v : Variable := ⟨d.kind, c.next (variableSector isGlobal) t, d.name, none⟩
    exact ⟨v, rfl, fun _ => ⟨rfl, rfl⟩, hnew, hc.addVariable (v := v) hnew _ t 1⟩
  | @array t k n hextent hnew _ ht =>
    let v : Variable := ⟨.array, c.next (variableSector isGlobal) t, d.name, some (d.kind, n)⟩
    exact ⟨v, rfl, fun h => absurd h (by simp [hextent]), hnew, hc.addVariable (v := v) hnew _ t n⟩

theorem DeclaresAll.current {ds : List Declaration} (h : DeclaresAll isGlobal ds c c')
    (hc : c.IsOpen) :
    ∃ vs, c'.IsOpen ∧ c'.current = { c.current with declared := c.current.declared ++ vs } := by
  induction h with
  | nil => exact ⟨[], hc, by simp⟩
  | cons h _ ih =>
    obtain ⟨v, -, -, -, hopen, hcurrent⟩ := h.current hc
    obtain ⟨vs, hopen', hcurrent'⟩ := ih hopen
    refine ⟨v :: vs, hopen', ?_⟩
    rw [hcurrent', hcurrent]
    simp

/-- Parameters are declared from the last one to the first. -/
theorem DeclaresParams.current {ds : List Declaration} (h : DeclaresParams isGlobal ds c c')
    (hds : ∀ d ∈ ds, d.extent = none) (hc : c.IsOpen) :
    ∃ vs : List Variable, vs.map Variable.name = ds.map Declaration.name ∧
      vs.map Variable.kind = ds.map Declaration.kind ∧ (∀ v ∈ vs, v.elements = none) ∧ c'.IsOpen ∧
      c'.current = { c.current with
        parameterKinds := (vs.map Variable.kind).reverse ++ c.current.parameterKinds
        parameterAddresses := (vs.map Variable.address).reverse ++ c.current.parameterAddresses
        declared := c.current.declared ++ vs } := by
  induction h with
  | nil => exact ⟨[], rfl, rfl, by simp, hc, by simp⟩
  | @cons d ds c c₁ c' h _ ih =>
    obtain ⟨hd, hds⟩ := List.forall_mem_cons.1 hds
    have hkinds : (c.updateCurrent fun f =>
        { f with parameterKinds := d.kind :: f.parameterKinds }).current =
        { c.current with parameterKinds := d.kind :: c.current.parameterKinds } :=
      current_updateCurrent (fun _ => rfl) hc.known
    obtain ⟨v, hname, hkind, hnew, hopen, hcurrent⟩ := h.current (hc.update (fun _ => rfl) hc.names)
    rw [hkinds] at hcurrent hnew
    have hfind : c₁.current.find? d.name = some v := by
      rw [hcurrent, Function.find?, List.find?_append,
        show c.current.declared.find? _ = none from hnew]
      simp [hname]
    have haddresses : (c₁.updateCurrent fun f =>
        { f with
          parameterAddresses :=
            ((f.find? d.name).map Variable.address).toList ++ f.parameterAddresses }).current =
        { c₁.current with parameterAddresses := v.address :: c₁.current.parameterAddresses } := by
      refine (current_updateCurrent (by intro _; rfl) hopen.known).trans ?_
      simp [hfind]
    obtain ⟨hkind, helements⟩ := hkind hd
    obtain ⟨vs, hnames, hvkinds, hvs, hopen', hcurrent'⟩ :=
      ih hds (hopen.update (fun _ => rfl) hopen.names)
    refine ⟨v :: vs, by simp [hname, hnames], by simp [hkind, hvkinds], List.forall_mem_cons.2
      ⟨helements, hvs⟩, hopen', ?_⟩
    rw [hcurrent', haddresses, hcurrent]
    simp [hkind]

namespace Phase

variable {p : Tree} {xs ys : List FunctionTree} {f : FunctionTree} {c₁ c₂ c₃ c : Compiler}

theorem current_head (h : Phase p xs f ys c₁ c₂ c₃ c) :
    ∃ vs : List Variable, vs.map Variable.name = f.params.map Prod.snd ∧
      vs.map Variable.kind = (f.params.map fun q => Kind.value q.1) ∧
        (∀ v ∈ vs, v.elements = none) ∧ c₂.IsOpen ∧
      c₂.current.parameterKinds = vs.map Variable.kind ∧ c₂.current.parameterAddresses =
        vs.map Variable.address ∧
      ∃ ws, c₂.current.declared = vs.reverse ++ ws := by
  obtain ⟨d, -, hquiet, -, ⟨-, hnew⟩, hlocals⟩ := h.exists_head
  have hd : d.current = .opened (f.result.map Kind.value) (some f.name) c₁.quads.size := by
    rw [← current_define hnew, current, current, function?, function?, hquiet.functions,
      hquiet.scope]
  have hopen : d.IsOpen := by
    refine ⟨?_, by simp [hd, Function.opened]⟩
    rw [function?, hquiet.functions, hquiet.scope]
    simp [define, Function.opened]
  cases hlocals with
  | @declareLocals _ e _ _ _ hp hv =>
    have hmark : d.markFirst.current = { d.current with firstQuad := some d.quads.size } :=
      current_updateCurrent (fun _ => rfl) hopen.known
    have hscalar : ∀ d ∈ FunctionTree.declared f.params, d.extent = none := by
      intro d hd
      obtain ⟨q, -, rfl⟩ := List.mem_map.1 (List.mem_reverse.1 hd)
      rfl
    obtain ⟨vs, hnames, hkinds, hvs, hopen', hcurrent⟩ :=
      hp.current hscalar (hopen.update (fun _ => rfl) hopen.names)
    obtain ⟨ws, hopen'', hcurrent'⟩ := hv.current hopen'
    rw [hmark, hd] at hcurrent
    rw [hcurrent] at hcurrent'
    refine ⟨vs.reverse, ?_, ?_, fun v hv => hvs v (List.mem_reverse.1 hv), hopen'', ?_, ?_, ws, ?_⟩
    · rw [List.map_reverse, hnames]
      simp [FunctionTree.declared, Goal.scalar, Function.comp_def]
    · rw [List.map_reverse, hkinds]
      simp [FunctionTree.declared, Goal.scalar, Function.comp_def]
    · simp [hcurrent', Function.opened]
    · simp [hcurrent', Function.opened]
    · simp [hcurrent', Function.opened]

/-- The entry of a function in the end is that at the end of its body, without its variables. -/
theorem function_closed (h : Phase p xs f ys c₁ c₂ c₃ c) :
    c.function? (some f.name) = some { c₃.current with declared := [] } := by
  obtain ⟨-, -, -, -, hopen, -⟩ := h.current_head
  obtain ⟨F₂, hF₂⟩ := Option.isSome_iff_exists.1 hopen.known
  rw [h.scope_eq] at hF₂
  obtain ⟨F, hF, -, -⟩ := h.body.function hF₂
  have hcurrent : c₃.current = F := by
    rw [current, h.scope_body, hF]
    rfl
  obtain ⟨c₄, ⟨hend, -⟩, hrest⟩ := runs_cons.1 h.after
  cases hend with
  | endFunction =>
    refine hrest.function_closed ?_ (by simp [close, emit])
    have hupdate : c₃.close.function? (some f.name) = (c₃.function? (some f.name)).map fun g =>
        if g.name = c₃.scope then { g with declared := [] } else g :=
          function?_of_update rfl (by intro _; rfl) _
    rw [hupdate, hF, Option.map_some, h.scope_body, if_pos (name_of_function? hF), hcurrent]

/-- The parameters of a function: variables with their names, in the order of the source. -/
theorem parameters (h : Phase p xs f ys c₁ c₂ c₃ c) :
    ∃ (F : Function) (vs : List Variable), c.function? (some f.name) = some F ∧
      vs.map Variable.name = f.params.map Prod.snd ∧ (vs.map Variable.name).Nodup ∧
      (∀ v ∈ vs, v.elements = none ∧ v ∈ c₃.current.declared) ∧
        F.parameterKinds = vs.map Variable.kind ∧
      F.parameterAddresses = vs.map Variable.address := by
  obtain ⟨vs, hnames, -, hvs, hopen, hkinds, haddresses, ws, hdeclared⟩ := h.current_head
  have hbody : (c₃.current.parameterKinds, c₃.current.parameterAddresses, c₃.current.declared) =
      (c₂.current.parameterKinds, c₂.current.parameterAddresses, c₂.current.declared) :=
    h.body.current_of_isInner (fun F => (F.parameterKinds, F.parameterAddresses, F.declared))
      (fun _ _ => rfl)
      f.body.isInner
  simp only [Prod.mk.injEq, hkinds, haddresses, hdeclared] at hbody
  obtain ⟨hkinds', haddresses', hdeclared'⟩ := hbody
  have hnodup : (vs.map Variable.name).Nodup := by
    have := hopen.names
    rw [hdeclared, List.map_append, List.map_reverse] at this
    exact List.nodup_reverse.1 (List.nodup_append.1 this).1
  refine ⟨_, vs, h.function_closed, hnames, hnodup, fun v hv => ⟨hvs v hv, ?_⟩, hkinds',
    haddresses'⟩
  rw [hdeclared']
  exact List.mem_append_left _ (List.mem_reverse.2 hv)

theorem declares {line : Nat} {source : String} (h : Phase p xs f ys c₁ c₂ c₃ c)
    (hp : p.events = (Trace.ofSource line source).events) (hv : v ∈ c₃.current.declared) :
    Compiled.Declares line source f.name v := by
  refine ⟨p.opening ++ xs.flatMap FunctionTree.events ++ (f.head ++ f.body.events),
    ys.flatMap FunctionTree.events ++ p.closing, c₃, ?_, ?_, h.scope_body, hv⟩
  · rw [← hp, p.events_eq, h.functions, List.flatMap_append, List.flatMap_cons, f.events_eq]
    simp
  · exact runs_append.2 ⟨c₁, h.before.plain, runs_append.2 ⟨c₂, h.head.plain, h.body.plain⟩⟩

end Phase

end Compiler

namespace Compiled

variable {line : Nat} {source : String}

/-- The parameters of a function of a source, in order. -/
def HasParameters (line : Nat) (source name : String) (vs : List Variable) : Prop :=
  ∃ p : Tree, p.events = (Trace.ofSource line source).events ∧ ∃ f ∈ p.functions, f.name = name ∧
    vs.map Variable.name = f.params.map Prod.snd ∧ ∀ v ∈ vs, Declares line source name v

/-- Parameters are bound in local cells, each in its own. -/
theorem Booked.arePlaced {log : History} (h : Booked line source log) {name : String}
    {vs : List Variable} (hnames : (vs.map Variable.name).Nodup)
    (hvs : ∀ v ∈ vs, v.elements = none ∧ Declares line source name v) {xs : List Field}
    (hlength : xs.length = vs.length) : Routine.ArePlaced (Routine.pairs vs xs) := by
  have hcell : ∀ v ∈ vs, ∃ t, v.kind.ty? = some t ∧
      log.Has (.variable (some name) v.name) t ⟨.locals, v.address, 1⟩ := by
    intro v hv
    obtain ⟨hscalar, before, later, c, hsplit, hruns, hscope, hmem⟩ := hvs v hv
    obtain ⟨t, ht, hlog⟩ := h.recalls before later c name v hsplit hruns hscope hmem
    rw [Variable.ty?, hscalar] at ht
    rw [Variable.size, hscalar] at hlog
    exact ⟨t, ht, hlog⟩
  refine ⟨?_, ?_⟩
  · intro p hp
    obtain ⟨v, hv, heq⟩ := Routine.exists_of_mem_pairs hp
    obtain ⟨t, ht, hlog⟩ := hcell v hv
    rw [heq]
    exact ⟨t, ht, hlog.locate h.roomy (by simp [AddressBlock.mem_cells])⟩
  · rw [Routine.cells_pairs hlength]
    refine List.Nodup.map_on ?_ hnames.of_map
    intro v hv w hw heq
    obtain ⟨t, -, hlog⟩ := hcell v hv
    obtain ⟨u, -, hlog'⟩ := hcell w hw
    have hsame := hlog.eq_of_mem hlog' h.roomy (a := v.address) (by simp [AddressBlock.mem_cells])
      (by simp [AddressBlock.mem_cells, heq])
    have hname : v.name = w.name := (Object.variable.inj hsame).2
    exact List.inj_on_of_nodup_map hnames hv hw hname

/-- In every run of a source and for every call in it: the cell of each parameter holds, at the
start of the function, the value that the operand had before the call, unless the operand stands for
the cell of a parameter before it. The cell then holds what that parameter has been bound to. -/
def BindsParameters (line : Nat) (source : String) : Prop :=
  let c := (ofSource line source).state
  let p := (ofSource line source).program
  ∀ randoms inputs n k m, (ofSource line source).play randoms inputs n = (.unfinished k, m) →
  ∀ name, c.quads[k.toNat]? = some [.word "GOSUB", .word name] → ∀ j m', p.step k m = .next j m' →
    ∃ F vs xs, p.function? name = some F ∧ j = F.start ∧ HasParameters line source name vs ∧
      xs = (Quad.passed c.quads k.toNat).reverse ∧ xs.length = vs.length ∧
      ∀ i x v, xs[i]? = some x → vs[i]? = some v →
        ∃ s u, m.memory.resolve (.ofField x.text) = .ok s ∧
          m'.memory.read (.ofInt v.address) = .ok u ∧
          ((∀ w ∈ vs.take i, Slot.order (.ofInt w.address) s ≠ .eq) →
            m.memory.load (.ofField x.text) = .ok u) ∧
          ∀ w ∈ vs.take i, Slot.order (.ofInt w.address) s = .eq →
            m'.memory.read (.ofInt w.address) = .ok u

/-- Parameters are bound from the first to the last. -/
theorem parameters_bound (h : (ofSource line source).rejection = none)
    (hroom : HasRoom line source) :
    BindsParameters line source := by
  intro randoms inputs n i m hplay name hquad j m' hstep
  obtain ⟨rs, bs, hsound⟩ := exists_isSound h hroom
  obtain ⟨log, hbooked⟩ := exists_booked h hroom
  obtain ⟨tree, htree, hruns⟩ := exists_runs h
  obtain ⟨regions, main, hr, hnames⟩ := exists_routed h
  obtain ⟨fs, k, rfl, hstands, hparameters⟩ :=
    hsound.handed_steps hr (.start rfl rfl) rfl (Program.run_eq_unfinished.1 hplay)
  rw [Int.toNat_natCast] at hquad ⊢
  obtain ⟨F, m₁, hF, rfl, hbind, rfl⟩ :=
    Routine.bind_of_enter (Program.enter_of_step (hr.program.quad?_eq_some hquad) hstep)
  obtain ⟨r, hmem, rfl, -⟩ := hr.region_of_function hF
  obtain ⟨ys, f, zs, c₁, c₂, c₃, hphase, hname⟩ :=
    Compiler.exists_phase_of_region (tree.laidOut hruns).1 (by rw [hnames, htree]) hmem
  obtain ⟨G, vs, hG, hvnames, hnodup, hvs, hkinds, haddresses⟩ := hphase.parameters
  rw [← hname] at hG
  obtain rfl : G = F := Option.some.inj (hG.symm.trans hF)
  have hdeclares : ∀ v ∈ vs, Declares line source r.name v := fun v hv =>
    hname ▸ hphase.declares htree (hvs v hv).2
  -- the operands fit the parameters
  obtain ⟨ks, ⟨-, F', hF', rfl⟩, hargs⟩ := (hsound.typed.code.quads k _ hquad).of_gosub
  obtain rfl : F' = G := Option.some.inj (hF'.symm.trans hG)
  rw [hkinds] at hargs
  have hlength : (Quad.passed (ofSource line source).state.quads k).reverse.length = vs.length := by
    simpa using hargs.length_eq
  refine ⟨F', vs, _, hF, rfl, ⟨tree, htree, f, ?_, hname.symm, hvnames, hdeclares⟩, rfl,
    hlength, ?_⟩
  · rw [hphase.functions]
    simp
  intro i x v hx hv
  obtain ⟨t, hfits⟩ : ∃ t, x.IsOf t := by
    obtain ⟨hi, rfl⟩ := List.getElem?_eq_some_iff.1 hx
    obtain ⟨t, -, hfits⟩ := (List.forall₂_iff_get.1 hargs).2 i hi (by simpa [← hlength] using hi)
    exact ⟨t, hfits⟩
  rw [hkinds, haddresses, hparameters, ← List.map_reverse] at hbind
  have hplaced := hbooked.arePlaced hnodup (fun v hv => ⟨(hvs v hv).1, hdeclares v hv⟩) hlength
  exact Routine.bound_of_bind hlength hplaced hbind hx hfits hv

theorem parameters_bound_swapped :
    let source := "program p; fun void f(int a, int b) { f(b, a); } f(1, 2);"
    (ofSource 1 source).rejection = none ∧ HasRoom 1 source ∧ BindsParameters 1 source := by
  intro source
  refine ⟨?accepted, ?room, parameters_bound ?accepted ?room⟩ <;> decide +kernel

end Compiled

end Symphony
