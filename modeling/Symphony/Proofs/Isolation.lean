import Symphony.Proofs.Calls
import Symphony.Proofs.Effects
import Symphony.Proofs.Parts

/-!
# Local variables across calls

When a call has returned, the caller finds its parameters and local variables as they were, with one
exception: if a function calls itself and its result is one of its own variables, that variable
holds the value of the called activation.

**Theorem (`Compiled.locals_across_calls`).** This holds for every call in every run of an accepted
source, before and after the result has been copied.
-/

namespace Symphony

variable {a : Int} {F : Function} {t : Ty}

/-! ## Local cells that come back -/

/-- The value of a cell in one memory or else in another one. -/
def Memory.readOr (m saved : Memory) (s : Slot) : Except Fault Value :=
  match m.read s with
  | .ok v => .ok v
  | .error _ => saved.read s

/-- A local cell after a function has been left: the result, if the cell is the place of the result
and was set, else what was saved. -/
theorem Routine.getElem?_restored {f : Function} {callee saved : Bank}
    (hf : f.returnPlace = some (.num a) → f.result.bind Kind.ty? = some t) :
    ((restored f callee saved).get t)[Slot.ofInt a]? =
      if f.returnPlace = some (.num a) then
        ((callee.get t)[Slot.ofInt a]?).or ((saved.get t)[Slot.ofInt a]?)
      else (saved.get t)[Slot.ofInt a]? := by
  unfold restored
  split
  case h_1 u b v hleft =>
    unfold leftBehind at hleft
    split at hleft
    case h_1 hu hplace =>
      obtain ⟨w, hw, heq⟩ := Option.map_eq_some_iff.1 hleft
      cases heq
      rw [Bank.getElem?_set_put]
      by_cases hab : b = a
      · subst hab
        obtain rfl : u = t := Option.some.inj (hu.symm.trans (hf hplace))
        rw [if_pos ⟨rfl, rfl⟩, if_pos hplace, hw, Option.some_or]
      · rw [if_neg fun h => hab h.2, if_neg (by simpa [hplace] using hab)]
    case h_2 => cases hleft
  case h_2 hleft =>
    split
    case isTrue hplace =>
      rw [leftBehind, hf hplace, hplace] at hleft
      rw [Option.map_eq_none_iff.1 hleft, Option.none_or]
    case isFalse => rfl

theorem Routine.read_restored {f : Function} {inner saved other : Memory}
    (ha : Sector.locate? a = some (.locals, t))
    (hf : f.returnPlace = some (.num a) → f.result.bind Kind.ty? = some t) :
    Memory.read { other with locals := restored f inner.locals saved.locals } (.ofInt a) =
      if f.returnPlace = some (.num a) then inner.readOr saved (.ofInt a) else saved.read
        (.ofInt a) := by
  rw [Memory.readOr, Memory.read_eq ha, Memory.read_eq ha, Memory.read_eq ha]
  rw [show PerSector.get { other with locals := restored f inner.locals saved.locals } .locals =
    restored f inner.locals saved.locals from rfl, getElem?_restored hf]
  by_cases hplace : f.returnPlace = some (.num a)
  · rw [if_pos hplace, if_pos hplace, show PerSector.get inner .locals = inner.locals from rfl]
    cases ((inner.locals).get t)[Slot.ofInt a]? <;> rfl
  · rw [if_neg hplace, if_neg hplace]
    rfl

/-! ## Sources -/

namespace Compiled

/-- A variable that a function of a source declares, as it is known at the end of the function. -/
def Declares (line : Nat) (source name : String) (v : Variable) : Prop :=
  ∃ before later c, (Trace.ofSource line source).events = before ++ .endFunction :: later ∧
    Compiler.Runs before {} c ∧ c.scope = some name ∧ v ∈ c.current.declared

/-- No array of a source has a negative size, and no region of addresses is used up. -/
structure HasRoom (line : Nat) (source : String) : Prop where
  sizes : ∀ e ∈ (Trace.ofSource line source).events, ∀ n ∈ e.extents, 0 ≤ n
  fits : (Compiled.ofSource line source).state.Fits

instance (line : Nat) (source : String) : Decidable (HasRoom line source) :=
  decidable_of_iff ((∀ e ∈ (Trace.ofSource line source).events, ∀ n ∈ e.extents, 0 ≤ n) ∧
    (Compiled.ofSource line source).state.Fits) ⟨fun h => ⟨h.1, h.2⟩, fun h => ⟨h.sizes, h.fits⟩⟩

end Compiled

/-- What a cell of the caller holds after a call: what it held before, unless a function has called
itself and its result is in this very cell. -/
def Machine.kept (m inner : Machine) (caller called : String) (f : Function) (a : Int) :
    Except Fault Value :=
  if called = caller ∧ f.returnPlace = some (.num a) then inner.memory.readOr m.memory (.ofInt a)
  else m.memory.read (.ofInt a)

namespace Compiler.Phase

variable {p : Tree} {xs ys : List FunctionTree} {f : FunctionTree} {c₁ c₂ c₃ c : Compiler}

/-- The type of a result is that of its cell. -/
theorem result_ty (h : Phase p xs f ys c₁ c₂ c₃ c) (hpos : Event.Sized p.events)
    (hfits : c.Fits) {name : Scope} (hF : c.function? name = some F) {s : Sector}
    (ha : Sector.locate? a = some (s, t)) (hplace : F.returnPlace = some (.num a)) :
    F.result.bind Kind.ty? = some t := by
  obtain ⟨r₁, r₂, r₃, r₄, -, -, -, h₄⟩ := h.reached hpos
  have hroomy := h₄.roomy hfits
  obtain ⟨⟨bs, hp, -⟩, -⟩ := h₄
  obtain ⟨k, u, hk, hu, hg⟩ := hp.results F (List.mem_of_find?_eq_some hF) _ hplace
  obtain ⟨s', hs'⟩ := hg.locate hroomy
  obtain rfl : t = u := by simpa using (Prod.mk.inj (Option.some.inj (ha.symm.trans hs'))).2
  rw [hk]
  exact hu

/-- The variables of a function when a call that it has made has returned. -/
theorem read_returned (h : Phase p xs f ys c₁ c₂ c₃ c)
    (hpos : Event.Sized p.events) (hfits : c.Fits) {v : Variable}
    (hv : v ∈ c₃.current.declared) (ha : v.Covers a) {k : Nat} {name : String}
    (hlo : c₁.quads.size ≤ k) (hhi : k < c₃.quads.size)
    (hq : c.quads[k]? = some [.word "GOSUB", .word name]) (hF : c.function? (some name) = some F)
    (m inner : Machine) :
    (m.returned inner F).memory.read (.ofInt a) = m.kept inner f.name name F a := by
  obtain ⟨t, hloc, hfirst, hlast⟩ := h.declared hpos hfits hv ha
  obtain ⟨name', F', hname, hF', hplace, -⟩ := h.call hpos hfits hlo hhi hq
  cases hname
  obtain rfl := Option.some.inj (hF.symm.trans hF')
  rw [Machine.returned, Routine.read_restored hloc (h.result_ty hpos hfits hF hloc), Machine.kept]
  rcases hplace with rfl | hplace
  · simp
  · -- the result of another function is in a cell that was handed out before
    have hne : F.returnPlace ≠ some (.num a) := fun hres =>
      (hplace a hres).not_free ⟨.locals, t, hloc, hfirst⟩
    rw [if_neg hne, if_neg fun h => hne h.2]

/-- Copying the result of a call changes no variable of the caller. -/
theorem read_copied (h : Phase p xs f ys c₁ c₂ c₃ c) (hpos : Event.Sized p.events)
    (hfits : c.Fits) {v : Variable} (hv : v ∈ c₃.current.declared) (ha : v.Covers a) {k : Nat}
    {name : String} (hlo : c₁.quads.size ≤ k) (hhi : k < c₃.quads.size)
    (hq : c.quads[k]? = some [.word "GOSUB", .word name]) (hF : c.function? (some name) = some F)
    (hres : F.result ≠ none) {program : Program} (hprogram : program.IsOf c) {j : Int}
    {m m' : Machine} (hstep : program.step (k + 1 : Nat) m = .next j m') :
    m'.memory.read (.ofInt a) = m.memory.read (.ofInt a) := by
  obtain ⟨t, hloc, -, hlast⟩ := h.declared hpos hfits hv ha
  obtain ⟨name', F', hname, hF', -, hcopy⟩ := h.call hpos hfits hlo hhi hq
  cases hname
  obtain rfl := Option.some.inj (hF.symm.trans hF')
  obtain ⟨gs, hgs, htarget⟩ := hcopy hres
  have hquad := hprogram.quad?_eq_some hgs
  obtain ⟨x, d, hxd⟩ := Program.step_copy_ok hquad hstep
  obtain ⟨x', gs, rfl, rfl, hd⟩ := List.map_eq_cons_iff.1 hxd
  obtain ⟨d', gs, rfl, rfl, hnil⟩ := List.map_eq_cons_iff.1 hd
  obtain rfl := List.map_eq_nil_iff.1 hnil
  obtain ⟨b, rfl, hfree⟩ := htarget x' d' rfl
  rw [Program.step_copy hquad] at hstep
  obtain ⟨-, memory, hmemory, rfl⟩ := Program.next_eq_next hstep
  have hne : b ≠ a := by
    rintro rfl
    exact Counters.Handed.not_free ⟨.locals, t, hloc, hlast⟩ hfree
  obtain ⟨s, u, hb, -⟩ := hfree
  cases hx : m.memory.load (.ofField x'.text) with
  | error e =>
    rw [hx] at hmemory
    cases hmemory
  | ok w =>
    rw [hx] at hmemory
    have hwrite : m.memory.store (.ofField (Field.num b).text) w = .ok memory := hmemory
    rw [Memory.store_num (Sector.natAbs_lt_tooLong hb)] at hwrite
    exact Memory.read_write_of_ne hwrite hne

end Compiler.Phase

/-- In every run of a source and for every call in it that returns: a parameter or local variable of
the caller holds what `Machine.kept` says, when the call has returned and when its result has been
copied. -/
def Compiled.KeepsLocals (line : Nat) (source : String) : Prop :=
  let c := (Compiled.ofSource line source).state
  let p := (Compiled.ofSource line source).program
  ∃ rs main, c.LaidOut rs main ∧
    rs.map Region.name = (Trace.ofSource line source).events.filterMap Event.defined? ∧
    ∀ randoms inputs n k m,
      (Compiled.ofSource line source).play randoms inputs n = (.unfinished k, m) →
    ∀ l inner j m', p.Call k m l inner j m' →
    ∀ r ∈ rs, (r.start : Int) ≤ k → k < r.stop →
    ∀ v, Declares line source r.name v → ∀ a, v.Covers a →
      ∃ name f, c.quads[k.toNat]? = some [.word "GOSUB", .word name] ∧ p.function? name = some f ∧
        j = k + 1 ∧ m'.memory.read (.ofInt a) = m.kept inner r.name name f a ∧
        (f.result ≠ none → ∀ i m'', p.step j m' = .next i m'' →
          m''.memory.read (.ofInt a) = m.kept inner r.name name f a)

/-- The parameters and local variables of a caller are after a call as they were before it, but for
a result that a function has from itself and that is one of its own variables. -/
theorem Compiled.locals_across_calls {line : Nat} {source : String}
    (h : (Compiled.ofSource line source).rejection = none) (hroom : HasRoom line source) :
    KeepsLocals line source := by
  obtain ⟨tree, htree, hruns⟩ := Compiled.exists_runs h
  obtain ⟨rs, main, hr, hnames⟩ := Compiled.exists_routed h
  have htidy := (tree.laidOut hruns).1
  refine ⟨rs, main, hr.laidOut, hnames, ?_⟩
  intro randoms inputs n k m hplay l inner j m' hcall r hmem hlo hhi v hv a ha
  obtain ⟨fs, k, rfl, hstands⟩ :=
    (Stands.start rfl rfl).steps hr (Program.run_eq_unfinished.1 hplay)
  obtain ⟨s, -, F, hq, hF, rfl, rfl, -⟩ := hcall.returned hr hstands
  obtain ⟨before, later, d, hsplit, hd, hscope, hdeclared⟩ := hv
  obtain ⟨xs, f, ys, c₁, c₂, hphase⟩ :=
    Compiler.exists_phase_of_endFunction htidy (htree.trans hsplit) hd
  have hname : r.name = f.name := by
    rw [hphase.scope_body] at hscope
    exact (Option.some.inj hscope).symm
  obtain ⟨hstart, hstop⟩ := hphase.region hr hmem hname
  have hlo' : c₁.quads.size ≤ k := by omega
  have hhi' : k < d.quads.size := by
    refine Nat.lt_of_le_of_ne (by omega) ?_
    rintro rfl
    simp [hphase.ends] at hq
  have hpos : Event.Sized tree.events := htree ▸ hroom.sizes
  have hfunction : (Compiled.ofSource line source).state.function? (some s.name) = some F := hF
  have hreturned := hphase.read_returned hpos hroom.fits hdeclared ha hlo' hhi' hq hfunction m inner
  rw [hname]
  refine ⟨s.name, F, by simpa using hq, hF, rfl, hreturned, fun hres i m'' hstep => ?_⟩
  rw [hphase.read_copied hpos hroom.fits hdeclared ha hlo' hhi' hq hfunction hres hr.program hstep,
    hreturned]

/-- A function that calls itself until its parameter is zero. The run ends, so all calls return. -/
theorem Compiled.locals_across_calls_recursive :
    let source :=
      "program p; fun int f(int n) { int x; if (n > 0) { x = f(n - 1); } return n; } f(2);"
    (ofSource 1 source).rejection = none ∧ HasRoom 1 source ∧
      ((ofSource 1 source).play (fun _ => .dec 0.5) #[] 50).1 = .finished ∧
        KeepsLocals 1 source := by
  intro source
  refine ⟨?accepted, ?room, ?_, Compiled.locals_across_calls ?accepted ?room⟩ <;> decide +kernel

end Symphony
