import Symphony.Proofs.Assignments
import Symphony.Proofs.Preservation

/-!
# Pointers stay in their arrays

An index is checked by one quad, the address of the element is computed by the next one, and it is
used by a later one, through a pointer. In between other operands are computed, and functions may be
called. All calls of a function share the cells of its pointers.

**Theorem (`Compiled.pointers_inside`).** If a source has no powers and room for its cells, then in
every state of every run the cell that an access to an array fills holds, if anything, the address
of an element of the array that the source names there. Every pointer of the code has such a cell,
so what is read or written through it is an element of that array.

The cells of pointers hold nothing but what their accesses put there, since all other quads write
elsewhere (`Live.aims_step`).
-/

namespace Symphony

variable {a : Int} {c : Compiler} {xs : List Event} {bs : List Int} {isGlobal : Bool} {m : Memory}
  {o : Operand} {rs : List Reservation} {w : Value}

/-! ## Pointers in the code -/

/-- If a field is a pointer, its cell is one of those that satisfy a predicate. -/
def Field.Points (P : Int → Prop) (x : Field) : Prop :=
  ∀ a, x = .pointer a → P a

theorem Field.points_num (P : Int → Prop) (a : Int) : (Field.num a).Points P := by
  intro b hb
  cases hb

theorem Field.points_word (P : Int → Prop) (w : String) : (Field.word w).Points P := by
  intro b hb
  cases hb

namespace Compiler

variable {P : Int → Prop} {c' c'' : Compiler}

/-- The cells of all pointers that the compiler holds satisfy a predicate. -/
structure Refers (P : Int → Prop) (c : Compiler) : Prop where
  operands : ∀ o ∈ c.operands, o.place.Points P
  arguments : ∀ o ∈ c.arguments, o.place.Points P
  offset : ∀ o, c.offset = some o → o.place.Points P
  results : ∀ f ∈ c.functions, ∀ x, f.returnPlace = some x → x.Points P
  quads : ∀ (k : Nat) (q : Quad), c.quads[k]? = some q → ∀ x ∈ q, x.Points P

namespace Refers

theorem empty : Refers P {} where
  operands := List.forall_mem_nil _
  arguments := List.forall_mem_nil _
  offset o ho := by cases ho
  results := by simp [Function.opened]
  quads k q hq := by simp at hq

theorem emit (h : Refers P c) (w : String) (fs : List Field) (hfs : ∀ x ∈ fs, x.Points P) :
    Refers P (c.emit (.word w :: fs)) :=
  { h with
    quads := fun k q hq => by
      rcases getElem?_of_emit hq with hq | ⟨-, rfl⟩
      · exact h.quads k q hq
      · exact List.forall_mem_cons.2 ⟨Field.points_word P w, hfs⟩ }

theorem emitAll_passing (h : Refers P c) (i : Nat) {xs : List Operand}
    (hxs : ∀ x ∈ xs, x.place.Points P) : Refers P (c.emitAll (passing i xs)) := by
  induction xs generalizing i c with
  | nil => simpa [passing, Compiler.emitAll] using h
  | cons x xs ih =>
    obtain ⟨hx, hxs⟩ := List.forall_mem_cons.1 hxs
    rw [passing, Compile.emitAll_cons]
    exact ih (h.emit _ _ (by simp [hx, Field.points_num])) (i + 1) hxs

/-- What else the compiler holds does not matter. -/
theorem same (h : Refers P c) (hoperands : c'.operands = c.operands)
    (harguments : c'.arguments = c.arguments) (hoffset : c'.offset = c.offset)
    (hfunctions : c'.functions = c.functions) (hquads : c'.quads = c.quads) : Refers P c' :=
  ⟨hoperands ▸ h.operands, harguments ▸ h.arguments, hoffset ▸ h.offset, hfunctions ▸ h.results,
    hquads ▸ h.quads⟩

theorem push (h : Refers P c) (ho : o.place.Points P) : Refers P (c.push o) :=
  { h with operands := List.forall_mem_cons.2 ⟨ho, h.operands⟩ }

theorem top (h : Refers P c) {x : Operand} {rest : List Operand} (hx : c.operands = x :: rest) :
    x.place.Points P :=
  h.operands x (by simp [hx])

theorem withOperands (h : Refers P c) {os : List Operand} (hos : ∀ o ∈ os, o ∈ c.operands) :
    Refers P { c with operands := os } :=
  { h with operands := fun o ho => h.operands o (hos o ho) }

theorem pop (h : Refers P c) {x : Operand} {rest : List Operand} (hx : c.operands = x :: rest) :
    Refers P { c with operands := rest } :=
  h.withOperands fun o ho => by simp [hx, ho]

theorem updateCurrent (h : Refers P c) {change : Function → Function}
    (hresult : ∀ f ∈ c.functions, ∀ x, (change f).returnPlace = some x → x.Points P) :
    Refers P (c.updateCurrent change) :=
  { h with
    results := fun f hf => by
      obtain ⟨g, hg, rfl⟩ := List.mem_map.1 hf
      split
      · exact hresult g hg
      · exact h.results g hg }

theorem completeAll (h : Refers P c) {ps : List (Nat × List Field)}
    (hps : ∀ p ∈ ps, ∀ x ∈ p.2, x.Points P) : Refers P (c.completeAll ps) := by
  rw [completeAll_eq]
  refine { h with quads := fun k q hq => ?_ }
  change (c.completeAll ps).quads[k]? = _ at hq
  rw [getElem?_completeAll] at hq
  obtain ⟨q', hq', rfl⟩ := Option.map_eq_some_iff.1 hq
  intro x hx
  rcases List.mem_append.1 hx with hx | hx
  · exact h.quads k q' hq' x hx
  · obtain ⟨p, hp, hx⟩ := List.mem_flatMap.1 hx
    exact hps p (List.mem_filter.1 hp).1 x hx

theorem jumpsTo (h : Refers P c) (is : List Nat) (t : Int) :
    Refers P (c.completeAll (is.map (·, [.num t]))) :=
  h.completeAll (by simp [Field.points_num])

/-- The pointer of an access is in the cell that the access fills. -/
theorem point (h : Refers P c) (base n : Int) (t : Ty) {index : Field} (hindex : index.Points P) :
    Refers P (c.point base n t index) := by
  have h₁ : Refers P ((c.emit [.word "VER", index, .num 0, .num n]).reserve .temporals t 1) :=
    { h.emit _ _ (by simp [hindex, Field.points_num]) with }
  exact h₁.emit _ _ (by simp [hindex, Field.points_num])

theorem enterFunction (h : Refers P c) (name : Scope) (rest : List Scope) :
    Refers P (c.enterFunction name rest) := by
  have h₁ : Refers P { c with called := rest } := h.same rfl rfl rfl rfl rfl
  exact { (h₁.emitAll_passing 1 h.arguments).emit "GOSUB" _ (by simp [Field.points_word]) with
    arguments := List.forall_mem_nil _ }

end Refers

theorem Operates.refers {op : String} {l r : Operand} (ho : Operates op l r c o c') (h : Refers P c)
    (hl : l.place.Points P) (hr : r.place.Points P) : Refers P c' ∧ o.place.Points P := by
  cases ho with
  | @mk _ lt rt t =>
    have h₁ : Refers P (c.reserve .temporals t 1) := { h with }
    exact ⟨h₁.emit _ _ (by simp [hl, hr, Field.points_num]), Field.points_num P _⟩

theorem Folds.refers {l : Operand} {rest : List (Operand × String)} (hf : Folds l rest c o c')
    (h : Refers P c) (hl : l.place.Points P) (hrest : ∀ x ∈ rest, x.1.place.Points P) :
    Refers P c' ∧ o.place.Points P := by
  induction hf with
  | nil => exact ⟨h, hl⟩
  | cons ho _ ih =>
    obtain ⟨hr, hrest⟩ := List.forall_mem_cons.1 hrest
    obtain ⟨h₁, hm⟩ := ho.refers h hl hr
    exact ih h₁ hm hrest

theorem DeclaresStep.refers {d : Declaration} (hd : DeclaresStep isGlobal d c c')
    (h : Refers P c) : Refers P c' := by
  cases hd with
  | one hd =>
    have h₁ : ∀ t n, Refers P (c.reserve (variableSector isGlobal) t n) := fun _ _ => { h with }
    cases hd <;> exact (h₁ _ _).updateCurrent h.results
  | kind | address => exact h.updateCurrent h.results

/-- The pointers that an event brings in are those of its access to an array. -/
theorem Acts.refers {e : Event} (ha : Acts e c c') (h : Refers P c)
    (hP : ∀ (k : Nat) (base x : Field) (a : Int), c'.quads[k]? = some [.word "ACCESS", base, x,
      .num a] → P a) :
    Refers P c' := by
  cases ha with
  | declareGlobals hv =>
    have h₁ : Refers P (c.emit [.word "GOTO"]) := h.emit _ _ (List.forall_mem_nil _)
    exact hv.keeps (fun _ _ _ _ => DeclaresStep.refers) (h₁.updateCurrent h₁.results)
  | declareLocals hp hv =>
    exact hv.keeps (fun _ _ _ _ => DeclaresStep.refers)
      (hp.keeps (fun _ _ _ _ => DeclaresStep.refers) (h.updateCurrent h.results))
  | enterMain => exact h.jumpsTo [0] _
  | finish | markLoop | leaveLoop | chain | beginCall | beginSpecial =>
    exact h.same rfl rfl rfl rfl rfl
  | defineFunction =>
    refine { h with results := fun f hf => ?_ }
    rcases List.mem_append.1 hf with hf | hf
    · exact h.results f hf
    · rw [List.mem_singleton.1 hf]
      simp [Function.opened]
  | endFunction =>
    have h₁ : Refers P (c.updateCurrent fun f => { f with declared := [] }) :=
      h.updateCurrent h.results
    have h₂ : Refers P ((c.updateCurrent fun f => { f with declared := [] }).emit
      [.word "ENDPROC", .word c.current.name.text]) := h₁.emit _ _ (by simp [Field.points_word])
    exact { h₂ with }
  | oldConstant => exact h.push (Field.points_num P _)
  | newConstant =>
    exact { h with operands := List.forall_mem_cons.2 ⟨Field.points_num P _, h.operands⟩ }
  | dropSize hx => exact h.pop hx
  | useVariable => exact h.push (Field.points_num P _)
  | @useElement _ _ _ rest v _ n t hx =>
    -- The new pointer is the cell that the access has just filled.
    refine ((h.pop hx).point v.address n t (h.top hx)).push fun a ha => ?_
    cases ha
    exact hP _ _ _ _ (quads_point { c with operands := rest } v.address n t _).2
  | selectElement hx =>
    refine { h.pop hx with offset := fun o ho => ?_ }
    cases ho
    exact h.top hx
  | assignVariable _ _ _ hx => exact (h.pop hx).emit _ _ (by simp [h.top hx, Field.points_num])
  | @assignElement _ _ v _ _ rest _ n t _ ho _ _ _ hx =>
    have h₁ : Refers P { c with operands := rest, offset := none } :=
      { h.pop hx with offset := by simp }
    have hpointer : (Field.pointer (c.next .temporals t)).Points P := by
      intro a ha
      cases ha
      exact hP _ _ _ _ (getElem?_of_append Array.toList_push
        (quads_point { c with operands := rest, offset := none } v.address n t _).2)
    exact (h₁.point v.address n t (h.offset _ ho)).emit _ _ (by simp [h.top hx, hpointer])
  | @power _ _ l r _ rest hx hop =>
    have h₁ : Refers P { c with operands := rest } := h.withOperands fun o ho => by simp [hx, ho]
    obtain ⟨h₂, ho⟩ := hop.refers h₁ (h.operands _ (by simp [hx])) (h.operands _ (by simp [hx]))
    exact h₂.push ho
  | @fold _ _ o first result below hdrop hfold =>
    have hmem : ∀ x ∈ first :: below, x ∈ c.operands :=
      fun x hx => List.mem_of_mem_drop (hdrop ▸ hx)
    have h₁ : Refers P { c with chained := o.symbol :: c.chained } := h.same rfl rfl rfl rfl rfl
    obtain ⟨h₂, ho⟩ := hfold.refers h₁ (h.operands first (hmem first (by simp))) fun x hx =>
      h.operands x.1 (List.mem_of_mem_take (List.mem_reverse.1 (List.of_mem_zip hx).1))
    exact { h₂ with
      operands := List.forall_mem_cons.2 ⟨ho, fun x hx => h.operands x (hmem x (by simp [hx]))⟩ }
  | @update _ o x _ _ u hx =>
    have hplace := h.top hx
    exact ((h.pop hx).emit _ _ (by simp [hplace])).push (o := ⟨.bare u.code, x.place⟩) hplace
  | @unary _ o x rest t u hx =>
    have h₁ : Refers P ({ c with operands := rest }.reserve .temporals u 1) := { h.pop hx with }
    exact (h₁.emit _ _ (by simp [h.top hx, Field.points_num])).push (Field.points_num P _)
  | breakLoop =>
    have h₁ : Refers P { c with breaks := c.breaks ++ [c.quads.size] } := h.same rfl rfl rfl rfl rfl
    exact h₁.emit _ _ (List.forall_mem_nil _)
  | @giveBack _ x rest _ _ _ hx =>
    have h₁ : Refers P ({ c with operands := rest }.updateCurrent fun f =>
        { f with returnPlace := some x.place }) :=
      (h.pop hx).updateCurrent fun f _ y hy => by
        cases hy
        exact h.top hx
    -- The copies that wait for the result get the place that was on top.
    refine h₁.completeAll fun p hp => ?_
    obtain ⟨y, -, rfl⟩ := List.mem_map.1 hp
    exact List.forall_mem_cons.2 ⟨h.top hx, List.forall_mem_singleton.2 (Field.points_num P _)⟩
  | callVoid => exact h.enterFunction _ _
  | @callKnown _ _ name rest f k t place _ hf _ _ _ _ hplace =>
    have h₁ : Refers P ((c.enterFunction name rest).reserve
        (variableSector (c.scope == none)) t 1) :=
      { h.enterFunction name rest with }
    have hx := h.results f (List.mem_of_find?_eq_some hf) place hplace
    exact (h₁.push (Field.points_num P _)).emit _ _ (by simp [hx, Field.points_num])
  | @callSelf _ _ name rest f k t =>
    have h₁ : Refers P ((c.enterFunction name rest).reserve
        (variableSector (c.scope == none)) t 1) :=
      { h.enterFunction name rest with }
    have h₂ := h₁.push (o := ⟨k, .num (c.next (variableSector (c.scope == none)) t)⟩)
        (Field.points_num P _)
    have h₃ := h₂.emit "=" _ (List.forall_mem_nil _)
    exact { h₃ with }
  | @specialVoid _ _ name rest =>
    have h₁ : Refers P { c with called := rest } := h.same rfl rfl rfl rfl rfl
    exact { (h₁.emitAll_passing 1 h.arguments).emit name _ (List.forall_mem_nil _) with
      arguments := List.forall_mem_nil _ }
  | @specialValue _ _ name rest s t =>
    have h₁ : Refers P { c with called := rest } := h.same rfl rfl rfl rfl rfl
    have h₂ : Refers P (({ c with called := rest }.emitAll (passing 1 c.arguments)).reserve
        .temporals t 1) :=
      { h₁.emitAll_passing 1 h.arguments with }
    exact { (h₂.emit name [.num (c.next .temporals t)] (by simp [Field.points_num])).push
      (o := ⟨.value t, .num (c.next .temporals t)⟩) (Field.points_num P _) with
      arguments := List.forall_mem_nil _ }
  | argument hx =>
    exact { h.pop hx with arguments := List.forall_mem_cons.2 ⟨h.top hx, h.arguments⟩ }
  | @testIf _ x rest hx | @testLoop _ x rest hx =>
    have h₁ := (h.pop hx).emit "GOTOF" [x.place] (List.forall_mem_singleton.2 (h.top hx))
    exact h₁.same rfl rfl rfl rfl rfl
  | @closeIf _ i rest =>
    have h₁ : Refers P { c with jumps := rest } := h.same rfl rfl rfl rfl rfl
    exact h₁.jumpsTo [i] _
  | @elseBranch _ i rest =>
    have h₁ : Refers P { c with jumps := c.quads.size :: rest } := h.same rfl rfl rfl rfl rfl
    exact (h₁.emit _ _ (List.forall_mem_nil _)).jumpsTo [i] _
  | @closeLoop _ test condition rest =>
    have h₁ : Refers P { c with jumps := rest } := h.same rfl rfl rfl rfl rfl
    have h₂ := h₁.emit "GOTO" [.num condition] (by simp [Field.points_num])
    exact (h₂.jumpsTo (test :: c.breaks) (c.quads.size + 1 : Nat)).same rfl rfl rfl rfl rfl

theorem RunsBy.refers (hr : TidyRuns xs c c') (h : Refers P c)
    (hP : ∀ (k : Nat) (base x : Field) (a : Int), c'.quads[k]? = some [.word "ACCESS", base, x,
      .num a] → P a) :
    Refers P c' := by
  induction hr with
  | nil => exact h
  | cons ha hr ih =>
    exact ih (ha.1.refers h fun k base x a hq => hP k base x a (hr.kept (by decide) hq)) hP

/-- Code that has room for its cells, with the events that it was made of. -/
structure IsDirected (xs : List Event) (rs : List Reservation) (bs : List Int) (c : Compiler) : Prop
    extends IsSound rs bs c where
  directs : Directs xs c
  refers : Refers c.Points c
  /-- No two accesses fill the same cell. -/
  apart : ∀ {j k : Nat} {b b' x x' : Field} {a : Int}, c.quads[j]? = some
    [.word "ACCESS", b, x, .num a] → c.quads[k]? = some [.word "ACCESS", b', x', .num a] → j = k

/-- Such code without powers. -/
structure IsAimed (xs : List Event) (rs : List Reservation) (bs : List Int) (c : Compiler) : Prop
    extends IsDirected xs rs bs c, IsSafe rs bs c

end Compiler

theorem Compiled.exists_isDirected {line : Nat} {source : String}
    (h : (ofSource line source).rejection = none) (hroom : HasRoom line source) :
    ∃ rs bs, (ofSource line source).state.IsDirected (Trace.ofSource line source).events rs bs := by
  obtain ⟨tree, htree, hruns⟩ := exists_runs h
  have htidy := (tree.laidOut hruns).1
  have hpos : Event.Sized tree.events := htree ▸ hroom.sizes
  obtain ⟨rs, bs, hsound⟩ := exists_isSound h hroom
  obtain ⟨log, hbooked⟩ := exists_booked h hroom
  refine ⟨rs, bs, hsound, htree ▸ tree.directs htidy hpos hroom.fits,
    htidy.refers .empty fun k base x a hq => ⟨k, base, x, hq⟩, fun hj hk => ?_⟩
  obtain ⟨t, hlog⟩ := hbooked.accounts.temporals hj rfl
  obtain ⟨t', hlog'⟩ := hbooked.accounts.temporals hk rfl
  have hmem : ∀ a : Int, a ∈ (⟨.temporals, a, 1⟩ : AddressBlock).cells :=
    fun a => AddressBlock.mem_cells.2 ⟨Int.le_refl _, Int.lt_succ _⟩
  simpa using hlog.eq_of_mem hlog' hbooked.roomy (hmem _) (hmem _)

open Compiler

namespace Compiler.IsDirected

variable {k : Nat} {base x : Field}

/-- The cell that an access fills. -/
theorem exists_pointer (h : c.IsDirected xs rs bs)
    (hq : c.quads[k]? = some [.word "ACCESS", base, x, .num a]) :
    ∃ before t later, rs = before ++ ⟨.temporals, t, 1, true⟩ :: later ∧
      a = (Counters.after before).next .temporals t := by
  obtain ⟨_, _, t, _, _, before, later, -, -, hrs, -, -, hfs⟩ := (h.placed.quads k _ hq).of_access
  exact ⟨before, t, later, hrs,
    Field.num.inj (List.cons.inj (List.cons.inj (List.cons.inj hfs).2).2).1⟩

theorem locate_access (h : c.IsDirected xs rs bs)
    (hq : c.quads[k]? = some [.word "ACCESS", base, x, .num a]) :
    ∃ t, Sector.locate? a = some (.temporals, t) := by
  obtain ⟨before, t, later, hrs, rfl⟩ := h.exists_pointer hq
  have hr := h.roomy
  rw [hrs] at hr
  exact ⟨t, hr.locate (Int.le_refl _) (Int.lt_succ _)⟩

/-- Operands are in other cells than pointers. -/
theorem ne_of_stored (h : c.IsDirected xs rs bs)
    (hq : c.quads[k]? = some [.word "ACCESS", base, x, .num a]) (y : Field) (hy : Stored rs y) :
    y ≠ .num a := by
  rintro rfl
  obtain ⟨before, t, later, hrs, hat⟩ := h.exists_pointer hq
  obtain ⟨u, hgiven⟩ := hy
  exact hgiven.dataCell.ne_pointer h.roomy hrs hat

end Compiler.IsDirected

/-! ## Pointers in a run -/

/-- The cells that accesses fill hold addresses of elements. -/
def Machine.Aims (c : Compiler) (m : Machine) : Prop :=
  ∀ ⦃l : Nat⦄ ⦃x : Field⦄ ⦃n base a : Int⦄ ⦃w : Value⦄, c.quads[l]? =
    some [.word "VER", x, .num 0, .num n] →
    c.quads[l + 1]? = some [.word "ACCESS", .num base, x, .num a] →
      m.memory.read (.ofInt a) = .ok w → ∃ b, w = .int b ∧ base ≤ b ∧ b < base + n

namespace Live

variable {p : Program} {k : Nat} {m m' : Machine} {regions fs : List Region} {main : Nat}

/-- An access fills its cell with the address of an element. -/
theorem aims_access (h : c.IsAimed xs rs bs) (hp : p.IsOf c) (hlive : Live c rs k m)
    (haims : m.Aims c) {l : Nat} {x : Field} {n base : Int} (hk : k = l + 1)
    (hver : c.quads[l]? = some [.word "VER", x, .num 0, .num n])
    (haccess : c.quads[k]? = some [.word "ACCESS", .num base, x, .num a])
    (hread : (p.step k m).machine.memory.read (.ofInt a) = .ok w) :
    ∃ b, w = .int b ∧ base ≤ b ∧ b < base + n := by
  obtain ⟨z, hload, hlo, hhi⟩ := hlive.checked hk hver haccess
  obtain ⟨t, hloc⟩ := h.locate_access haccess
  obtain ⟨l', v, n', y, a', hk', hfs, hver', -, hcells⟩ := h.directs.accesses haccess
  obtain rfl : l = l' := by omega
  obtain ⟨rfl, rfl, rfl⟩ : base = v.address ∧ x = y ∧ a = a' := by simpa using hfs
  obtain rfl : n = n' := by simpa [hver] using hver'
  obtain ⟨s, u, hplace, -⟩ := hcells _ (Int.le_refl _) (by omega)
  rw [Program.step_access_int (Sector.natAbs_lt_tooLong hplace) (Sector.natAbs_lt_tooLong hloc)
    (hp.quad?_eq_some haccess) hload] at hread
  cases hw : m.memory.write (.ofInt a) (.int (v.address + z)) with
  | error f =>
    rw [hw] at hread
    exact haims hver (hk ▸ haccess) hread
  | ok memory =>
    rw [hw] at hread
    have hwritten : memory.read (.ofInt a) = .ok (.int (v.address + z)) := by
      rw [Memory.read_of_write hw, if_pos (Slot.order_ofInt.2 rfl)]
    exact ⟨v.address + z, Except.ok.inj (hread.symm.trans hwritten), by omega, by omega⟩

/-- A step keeps pointers in their arrays, also if it fails. -/
theorem aims_step (h : c.IsAimed xs rs bs) (hp : p.IsOf c) (hlive : Live c rs k m)
    (haims : m.Aims c) : (p.step k m).machine.Aims c := by
  intro l x n base a w hver haccess hread
  cases hq : c.quads[k]? with
  | none =>
    rw [Program.machine_step_of_none (by rw [hp.quad?, hq]; rfl)] at hread
    exact haims hver haccess hread
  | some q =>
    by_cases hk : k = l + 1
    · subst hk
      exact hlive.aims_access h hp haims rfl hver haccess hread
    · -- other quads name other cells
      obtain ⟨t, hloc⟩ := h.locate_access haccess
      have hstored : ∀ y, Stored rs y → y ≠ .num a := h.ne_of_stored haccess
      have hnames : ¬(q.Names a ∨ .num a ∈ Quad.passed c.quads k) := by
        rintro ((hop | ⟨b, y, rfl⟩) | hpassed)
        · exact hstored _ ((h.placed.quads k q hq).stored _ hop) rfl
        · exact hk (h.apart hq haccess)
        · exact hstored _ (Quad.forall_mem_passed (fun i q hq => (h.placed.quads i q hq).stored) k _
            hpassed) rfl
      rw [(h.step_effect hp hq hlive).1.memory.read_eq hloc hnames] at hread
      exact haims hver haccess hread

/-- However a run ends, pointers are in their arrays. -/
theorem aims_run (h : c.IsAimed xs rs bs) (hr : Routed regions main c p)
    (hstands : Stands regions main c fs k m) (hlive : Live c rs k m) (haims : m.Aims c) (n : Nat) :
    (p.run n k m).2.Aims c := by
  induction n generalizing fs k m with
  | zero => exact haims
  | succ n ih =>
    have haims' := hlive.aims_step h hr.program haims
    rw [Program.run]
    split
    case h_1 i m' hstep =>
      obtain ⟨gs, j, rfl, hmoves, hlive'⟩ := hlive.step h.toIsSafe hr hstands hstep
      rw [hstep] at haims'
      exact ih (hstands.move hr hmoves) hlive' haims'
    case h_2 m' hstep | h_3 f m' hstep =>
      rw [hstep] at haims'
      exact haims'

end Live

/-- The accesses of a source and the pointers of its code, in a state of a machine. -/
structure Machine.PointsInside (xs : List Event) (c : Compiler) (m : Machine) : Prop where
  /-- The cell that an access fills, its last field, is empty or holds the address of an element of
  the array that is named there. -/
  cells : ∀ (k : Nat) (fs : List Field), c.quads[k]? = some (.word "ACCESS" :: fs) →
    ∃ v n x a, fs = [.num v.address, x, .num a] ∧ Accessed xs k v n ∧
      ∀ w, m.memory.read (.ofInt a) = .ok w → ∃ b, w = .int b ∧ v.address ≤ b ∧ b < v.address + n
  /-- What is read or written through a pointer is an element of the array that is named at its
  access. -/
  pointers : ∀ (k : Nat) (q : Quad) (a : Int), c.quads[k]? = some q → .pointer a ∈ q →
    ∃ j v n x, c.quads[j]? = some [.word "ACCESS", .num v.address, x, .num a] ∧ Accessed xs j v n ∧
      (∀ w, m.memory.load (.ofField (Field.pointer a).text) = .ok w →
        ∃ b, v.address ≤ b ∧ b < v.address + n ∧ m.memory.read (.ofInt b) = .ok w) ∧
      ∀ w memory, m.memory.store (.ofField (Field.pointer a).text) w = .ok memory →
        ∃ b, v.address ≤ b ∧ b < v.address + n ∧ m.memory.write (.ofInt b) w = .ok memory

/-- The value of an operand is read from the slot that it denotes. -/
theorem Memory.exists_of_load {r : Reference} (h : m.load r = .ok w) :
    ∃ s, m.resolve r = .ok s ∧ m.read s = .ok w := by
  unfold load at h
  cases hs : m.resolve r with
  | error f =>
    rw [hs] at h
    cases h
  | ok s =>
    rw [hs] at h
    exact ⟨s, rfl, h⟩

/-- A value is written to the slot that an operand denotes. -/
theorem Memory.exists_of_store {n : Memory} {r : Reference} (h : m.store r w = .ok n) :
    ∃ s, m.resolve r = .ok s ∧ m.write s w = .ok n := by
  unfold store at h
  cases hs : m.resolve r with
  | error f =>
    rw [hs] at h
    cases h
  | ok s =>
    rw [hs] at h
    exact ⟨s, rfl, h⟩

/-- The slot that a pointer denotes is told by the value of its cell. -/
theorem Memory.resolve_pointer {s : Slot} (ha : a.natAbs < Text.tooLong)
    (h : m.resolve (.ofField (Field.pointer a).text) = .ok s) :
    ∃ w, m.read (.ofInt a) = .ok w ∧ Slot.ofValue w = .ok s := by
  rw [Reference.ofField_pointer ha] at h
  change (m.read (.ofInt a)).bind Slot.ofValue = _ at h
  cases hw : m.read (.ofInt a) with
  | error f =>
    rw [hw] at h
    cases h
  | ok w =>
    rw [hw] at h
    exact ⟨w, rfl, h⟩

theorem Machine.Aims.pointsInside {m : Machine} (haims : m.Aims c) (h : c.IsAimed xs rs bs) :
    m.PointsInside xs c where
  cells k fs hq := by
    obtain ⟨l, v, n, x, a, rfl, rfl, hver, haccessed, -⟩ := h.directs.accesses hq
    exact ⟨v, n, x, a, rfl, haccessed, fun w hw => haims hver hq hw⟩
  pointers k q a hq hmem := by
    obtain ⟨j, base, x, haccess⟩ := h.refers.quads k q hq _ hmem a rfl
    obtain ⟨l, v, n, y, a', rfl, hfs, hver, haccessed, -⟩ := h.directs.accesses haccess
    obtain ⟨rfl, rfl, rfl⟩ : base = .num v.address ∧ x = y ∧ a = a' := by simpa using hfs
    obtain ⟨t, hloc⟩ := h.locate_access haccess
    have hresolve : ∀ s, m.memory.resolve (.ofField (Field.pointer a).text) = .ok s →
        ∃ b, v.address ≤ b ∧ b < v.address + n ∧ s = .ofInt b := by
      intro s hs
      obtain ⟨w, hw, hvalue⟩ := Memory.resolve_pointer (Sector.natAbs_lt_tooLong hloc) hs
      obtain ⟨b, rfl, hlo, hhi⟩ := haims hver haccess hw
      cases hvalue
      exact ⟨b, hlo, hhi, rfl⟩
    refine ⟨l + 1, v, n, x, haccess, haccessed, fun w hw => ?_, fun w memory hw => ?_⟩
    · obtain ⟨s, hs, hread⟩ := Memory.exists_of_load hw
      obtain ⟨b, hlo, hhi, rfl⟩ := hresolve s hs
      exact ⟨b, hlo, hhi, hread⟩
    · obtain ⟨s, hs, hwrite⟩ := Memory.exists_of_store hw
      obtain ⟨b, hlo, hhi, rfl⟩ := hresolve s hs
      exact ⟨b, hlo, hhi, hwrite⟩

/-- A new machine holds nothing but constants. -/
theorem Machine.read_prepare {t : Ty} (hloc : Sector.locate? a = some (.temporals, t))
    {randoms : Nat → Value} {constants : Bank} {inputs : Array String} :
    (({ randoms := randoms } : Machine).prepare constants inputs).memory.read (.ofInt a) =
      .error .uninitialized := by
  cases t <;>
    simp [Memory.read_eq hloc, prepare, Memory.empty, Bank.empty, PerSector.ofFn, PerSector.get,
      PerTy.ofFn, PerTy.get]

/-- In every state of every run of an accepted source without powers that has room for its cells,
pointers point into the arrays that the source names. -/
theorem Compiled.pointers_inside {line : Nat} {source : String}
    (h : (ofSource line source).rejection = none) (hroom : HasRoom line source)
    (hpow : HasNoPower line source) {randoms : Nat → Value} (hrandoms : ∀ n, (randoms n).HasTy .dec)
    (inputs : Array String) (limit : Nat) :
    ((ofSource line source).play randoms inputs limit).2.PointsInside
      (Trace.ofSource line source).events
      (ofSource line source).state := by
  obtain ⟨rs, bs, hdirected⟩ := exists_isDirected h hroom
  have haimed : (ofSource line source).state.IsAimed _ rs bs := ⟨hdirected, isPlain h hpow⟩
  obtain ⟨regions, main, hr, -⟩ := exists_routed h
  have hlive : Live _ rs 0 _ := .start (isPlain h hpow) hrandoms inputs
  have haims : Machine.Aims (ofSource line source).state
      (({ randoms := randoms } : Machine).prepare (.ofPools (ofSource line source).state.constants)
        inputs) := by
    intro l x n base a w _ haccess hread
    obtain ⟨t, hloc⟩ := haimed.locate_access haccess
    rw [Machine.read_prepare hloc] at hread
    cases hread
  exact (hlive.aims_run haimed hr (Stands.start rfl rfl) haims limit).pointsInside haimed

theorem Compiled.pointers_inside_recursion :
    let source := "program p; str a[3]; " ++
      "fun str f(int n) { if (n > 0) { a[n] = a[n - 1] + f(n - 1); } return a[n]; } a[0] = f(2);"
    (ofSource 1 source).rejection = none ∧ HasRoom 1 source ∧ HasNoPower 1 source ∧
      (∀ n : Nat, ((fun _ => .dec 0.5 : Nat → Value) n).HasTy .dec) ∧
      ∀ inputs limit, ((ofSource 1 source).play (fun _ => .dec 0.5) inputs limit).2.PointsInside
        (Trace.ofSource 1 source).events (ofSource 1 source).state := by
  intro source
  refine ⟨?accepted, ?room, ?power, ?randoms, pointers_inside ?accepted ?room ?power ?randoms⟩
  case randoms => exact fun _ => trivial
  all_goals decide +kernel

end Symphony
