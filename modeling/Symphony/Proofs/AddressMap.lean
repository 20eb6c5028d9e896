import Symphony.Proofs.Pools

/-!
# The map of addresses

The compiler hands out addresses and the machine finds the cells for them. Both work from the same
map: four sectors, each cut into regions of one width, one for each type. The compiler has a counter
for each region, and the machine looks for the region in which an address lies.

**Theorem (`Compile.address_map`).** An address has a region if and only if it is in one of the
sectors, and then it has one region only. The counters start where the regions do. A cell that was
handed out from the counter of a region is in that region as long as there is room; the first cell
beyond it is in the next region, or in none after the last one.

The map is told in three ways. `Sector.regionStart` and `Sector.locate?` compute it. `Sector.table`
lists the regions of a sector by steps from its start, and `Sector.search?` goes through the lists,
beginning with the last sector.
-/

namespace Symphony

variable {i : Nat}

namespace Sector

/-- The addresses from the start of a sector to its end in steps of one width. -/
def marks (s : Sector) : List Int :=
  (List.range ((s.stop - s.start + s.width - 1) / s.width).toNat).map fun i => s.start + i * s.width

/-- The regions that the marks of a sector bound: each type has one, from its mark to the next one
or to the end. -/
def table (s : Sector) : List (Ty × Int × Int) :=
  Ty.all.zip (s.marks.zip (s.marks.tail ++ [s.stop]))

/-- The region of an address, found by looking through the regions of each sector that does not
start after it. -/
def search? (a : Int) : Option (Sector × Ty) :=
  all.reverse.findSome? fun s =>
    if s.start ≤ a then (s.table.find? fun e => decide (e.2.1 ≤ a ∧ a < e.2.2)).map fun e =>
      (s, e.1)
    else none

/-- All regions in the order of their addresses. -/
def regions : List (Sector × Ty) :=
  all.flatMap fun s => Ty.all.map (s, ·)

/-- The region that begins where another one ends. -/
def next? (s : Sector) (t : Ty) : Option (Sector × Ty) :=
  regions[regions.idxOf (s, t) + 1]?

theorem marks_eq (s : Sector) : s.marks = Ty.all.map s.regionStart := by
  cases s <;> decide

theorem table_eq (s : Sector) :
    s.table = Ty.all.map fun t => (t, s.regionStart t, s.regionStop t) := by
  cases s <;> decide

/-! ## The region of an address -/

variable {a : Int} {s : Sector} {t : Ty}

theorem locate?_eq_some_iff :
    locate? a = some (s, t) ↔ s.regionStart t ≤ a ∧ a < s.regionStop t := by
  refine ⟨fun h => ?_, fun h => locate?_eq_some h.1 h.2⟩
  obtain ⟨hlo, hhi⟩ := bounds_of_locate? h
  have hcode : Ty.ofCode? ((a - s.start) / s.width).toNat = some t := by
    unfold locate? at h
    split at h
    · cases h
    · obtain ⟨u, hu, heq⟩ := Option.map_eq_some_iff.1 h
      cases heq
      exact hu
  have hquotient : ((a - s.start) / s.width).toNat = t.code := by
    generalize ((a - s.start) / s.width).toNat = n at hcode
    unfold Ty.ofCode? at hcode
    split at hcode <;> cases hcode <;> rfl
  cases s <;> cases t <;>
    simp only [regionStart, regionStop, width, start, stop, Ty.code] at hlo hhi hquotient ⊢ <;>
    omega

theorem exists_of? (hlo : 10000 ≤ a) (hhi : a < 350000) :
    ∃ s, of? a = some s ∧ s.start ≤ a ∧ a < s.stop := by
  unfold of?
  split_ifs with h₁ h₂ h₃ h₄ h₅
  · exact absurd hlo (Int.not_le.2 h₁)
  · exact ⟨globals, rfl, Int.not_lt.1 h₁, h₂⟩
  · exact ⟨temporals, rfl, Int.not_lt.1 h₂, h₃⟩
  · exact ⟨constants, rfl, Int.not_lt.1 h₃, h₄⟩
  · exact ⟨locals, rfl, Int.not_lt.1 h₄, h₅⟩
  · exact absurd hhi h₅

/-- The sectors follow each other, and their regions leave no gap. -/
theorem isSome_locate?_iff : (locate? a).isSome ↔ 10000 ≤ a ∧ a < 350000 := by
  constructor
  · intro h
    obtain ⟨⟨s, t⟩, hplace⟩ := Option.isSome_iff_exists.1 h
    have hbounds := bounds_of_locate? hplace
    cases s <;> simp only [start, stop] at hbounds <;> omega
  · rintro ⟨hlo, hhi⟩
    obtain ⟨s, hs, hstart, hstop⟩ := exists_of? hlo hhi
    have hcode : ((a - s.start) / s.width).toNat < 5 := by
      cases s <;> simp only [width, start, stop] at hstart hstop ⊢ <;> omega
    have hty : ∀ n < 5, (Ty.ofCode? n).isSome := by decide
    simpa [locate?, hs] using hty _ hcode

theorem start_le_regionStart (s : Sector) (t : Ty) : s.start ≤ s.regionStart t := by
  cases s <;> cases t <;> decide

/-- An entry of a table is found if and only if it is that of the region. -/
theorem find?_table {u : Sector} :
    (u.table.find? fun e => decide (e.2.1 ≤ a ∧ a < e.2.2)).map (fun e => (u, e.1)) = some (s, t) ↔
      u = s ∧ s.regionStart t ≤ a ∧ a < s.regionStop t := by
  rw [table_eq, List.find?_map, Option.map_map]
  constructor
  · intro h
    obtain ⟨v, hv, heq⟩ := Option.map_eq_some_iff.1 h
    obtain ⟨rfl, rfl⟩ := Prod.mk.inj heq
    exact ⟨rfl, by simpa using List.find?_some hv⟩
  · rintro ⟨rfl, hregion⟩
    have hsome : (Ty.all.find? ((fun e : Ty × Int × Int => decide (e.2.1 ≤ a ∧ a < e.2.2)) ∘
        fun t => (t, u.regionStart t, u.regionStop t))).isSome := by
      refine List.find?_isSome.2 ⟨t, by cases t <;> decide, by simpa using hregion⟩
    obtain ⟨v, hv⟩ := Option.isSome_iff_exists.1 hsome
    have hlocate := locate?_eq_some_iff.2 (by simpa using List.find?_some hv)
    rw [locate?_eq_some_iff.2 hregion] at hlocate
    cases hlocate
    rw [hv]
    rfl

/-- Looking through the tables gives the region that is computed. -/
theorem search?_eq (a : Int) : search? a = locate? a := by
  have hsound : ∀ x, search? a = some x → locate? a = some x := by
    rintro ⟨s, t⟩ h
    obtain ⟨u, -, hu⟩ := List.exists_of_findSome?_eq_some h
    split at hu
    · exact locate?_eq_some_iff.2 (find?_table.1 hu).2
    · cases hu
  cases hsearch : search? a with
  | some x => exact (hsound x hsearch).symm
  | none =>
    cases hlocate : locate? a with
    | none => rfl
    | some x =>
      obtain ⟨s, t⟩ := x
      have hregion := locate?_eq_some_iff.1 hlocate
      have hnone := List.findSome?_eq_none_iff.1 hsearch s (by cases s <;> decide)
      rw [if_pos (Int.le_trans (start_le_regionStart s t) hregion.1),
        find?_table.2 ⟨rfl, hregion⟩] at hnone
      cases hnone

/-- Where a region ends the next one begins. -/
theorem locate?_regionStop (s : Sector) (t : Ty) : locate? (s.regionStop t) = next? s t := by
  cases s <;> cases t <;> decide

end Sector

/-! ## Cells that are handed out -/

theorem Value.equal_int {a b : Int} : (int a).equal (.int b) = true ↔ a = b := by
  simp only [equal, compareReal?, int?, Option.bind_some, Option.map_some, compareOfLessAndEq]
  grind

/-- What the compiler asks one cell for. -/
inductive Request
  | declared (k : Kind) (isGlobal : Bool)
  | constant (k : Kind) (v : Value)
  | temporal (k : Kind)

namespace Request

/-- Asks for a cell and gives its place. That of a constant becomes an operand, which is not kept
here. -/
def ask : Request → Compile Field
  | .declared k isGlobal => .num <$> Compile.variableAddress k isGlobal 1
  | .constant k v => do
    Compile.pushConstant k v
    return (← Compile.pop 0).place
  | .temporal k => .num <$> Compile.temporalAddress k

/-- The region in which a request takes a new cell. A constant that is equal to an old one takes
none. -/
def region? (c : Compiler) : Request → Option (Sector × Ty)
  | .declared k isGlobal => k.ty?.map (if isGlobal then .globals else .locals, ·)
  | .constant k v => k.ty?.bind fun t =>
    if (c.constants.get t).any (·.1.equal v) then none else some (.constants, t)
  | .temporal k => k.ty?.map (.temporals, ·)

/-- The regions and places of the new cells that requests take, one after the other. -/
def cells : Compiler → List Request → List ((Sector × Ty) × Field)
  | _, [] => []
  | c, r :: rs =>
    match r.ask.runFrom c with
    | (.ok place, c') => (r.region? c).toList.map (·, place) ++ cells c' rs
    | (.error _, c') => cells c' rs

/-- The places in one region that requests take from a new compiler. -/
def placesIn (s : Sector) (t : Ty) (rs : List Request) : List Field :=
  ((cells {} rs).filter fun x => x.1 = (s, t)).map Prod.snd

variable {c : Compiler} {r : Request} {s : Sector} {t : Ty}

theorem runFrom_allocate {k : Kind} (ht : k.ty? = some t) (c : Compiler) (s : Sector) (n : Int) :
    (Compile.allocate s k n).runFrom c = (.ok (c.next s t), c.reserve s t n) := by
  simp [Compile.allocate, ht, Compiler.next, Compiler.reserve]

/-- The compiler after a request for a new cell: a constant is added at the end of its pool. -/
def serve (c : Compiler) (s : Sector) (t : Ty) : Request → Compiler
  | .constant _ v =>
    { c.reserve s t 1 with constants := c.constants.set t (c.constants.get t ++ [(v, c.next s t)]) }
  | _ => c.reserve s t 1

theorem next_serve (c : Compiler) (r : Request) (s u : Sector) (t v : Ty) :
    (r.serve c s t).next u v = c.next u v + if (s, t) = (u, v) then 1 else 0 := by
  have hcounters : (r.serve c s t).counters = c.counters.reserve ⟨s, t, 1, false⟩ := by
    cases r <;> rfl
  rw [Compiler.next, hcounters]
  by_cases h : (s, t) = (u, v)
  · cases h
    rw [if_pos rfl]
    exact Counters.next_reserve_self c.counters ⟨s, t, 1, false⟩
  · rw [if_neg h, Int.add_zero]
    exact Counters.next_reserve_of_ne c.counters ⟨s, t, 1, false⟩ fun hu => h (by rw [hu.1, hu.2])

/-- A request that takes a new cell gets the next one of its region. -/
theorem runFrom_ask (h : r.region? c = some (s, t)) :
    r.ask.runFrom c = (.ok (.num (c.next s t)), r.serve c s t) := by
  cases r with
  | declared k isGlobal =>
    obtain ⟨u, hu, heq⟩ := Option.map_eq_some_iff.1 h
    cases heq
    simp [ask, Compile.variableAddress, runFrom_allocate hu, serve]
  | temporal k =>
    obtain ⟨u, hu, heq⟩ := Option.map_eq_some_iff.1 h
    cases heq
    simp [ask, Compile.temporalAddress, runFrom_allocate hu, serve]
  | constant k v =>
    obtain ⟨u, hu, heq⟩ := Option.bind_eq_some_iff.1 h
    split at heq
    case isTrue => cases heq
    case isFalse hnew =>
      cases heq
      have hfind : (c.constants.get t).find? (·.1.equal v) = none := by simpa using hnew
      simp [ask, Compile.runFrom_pushConstant_new hu hfind, Compile.pop, serve, Compiler.reserve]

/-- A request that takes no new cell leaves the counters as they are. -/
theorem counters_ask (h : r.region? c = none) : (r.ask.runFrom c).2.counters = c.counters := by
  cases r with
  | declared k isGlobal =>
    have hk : k.ty? = none := by simpa [region?] using h
    simp [ask, Compile.variableAddress, Compile.allocate, hk]
  | temporal k =>
    have hk : k.ty? = none := by simpa [region?] using h
    simp [ask, Compile.temporalAddress, Compile.allocate, hk]
  | constant k v =>
    cases hk : k.ty? with
    | none => simp [ask, Compile.pushConstant, hk]
    | some t =>
      have hany : (c.constants.get t).any (·.1.equal v) = true := by simpa [region?, hk] using h
      obtain ⟨x, hx⟩ := Option.isSome_iff_exists.1 (List.find?_isSome.2 (List.any_eq_true.1 hany))
      simp [ask, Compile.runFrom_pushConstant_old hk hx, Compile.pop, Compiler.push]

/-- The places in a region follow each other from its counter on. -/
theorem cells_getElem? {rs : List Request} {n : Nat} {place : Field}
    (h : (((cells c rs).filter fun x => x.1 = (s, t)).map Prod.snd)[n]? = some place) :
    place = .num (c.next s t + n) := by
  induction rs generalizing c n with
  | nil => simp [cells] at h
  | cons r rs ih =>
    cases hregion : r.region? c with
    | none =>
      have hsame := counters_ask hregion
      have hnext : (r.ask.runFrom c).2.next s t = c.next s t := by
        rw [Compiler.next, hsame, Compiler.next]
      rw [← hnext]
      refine ih ?_
      rw [cells, hregion] at h
      split at h <;> simp_all
    | some x =>
      obtain ⟨u, v⟩ := x
      have hnext := next_serve c r u s v t
      simp only [cells, hregion, runFrom_ask hregion, Option.toList_some, List.map_cons,
        List.map_nil, List.singleton_append, List.filter_cons, decide_eq_true_eq] at h
      split at h
      case isTrue hsame =>
        cases hsame
        rw [if_pos rfl] at hnext
        cases n with
        | zero => simpa using h.symm
        | succ n =>
          rw [ih h, hnext]
          congr 1
          omega
      case isFalse hother =>
        rw [if_neg hother, Int.add_zero] at hnext
        rw [ih h, hnext]

/-! ## There are as many cells as are asked for -/

/-- A request for a new cell of a region; constants are told apart by a number. -/
def fresh (s : Sector) (t : Ty) (i : Nat) : Request :=
  match s with
  | .globals => .declared (.value t) true
  | .locals => .declared (.value t) false
  | .temporals => .temporal (.value t)
  | .constants => .constant (.value t) (.int i)

/-- A new cell is asked for as long as no constant has one of the numbers to come. -/
theorem region?_fresh (h : ∀ x ∈ c.constants.get t, ∀ j ≥ i, x.1.equal (.int j) = false) :
    (fresh s t i).region? c = some (s, t) := by
  have hnew : (c.constants.get t).any (·.1.equal (.int i)) = false := by
    simpa using fun v a hx => h (v, a) hx i (Nat.le_refl i)
  cases s <;> simp [fresh, region?, Kind.ty?_value, hnew]

theorem mem_constants_fresh {x : Value × Int}
    (h : x ∈ ((fresh s t i).serve c s t).constants.get t) :
    x ∈ c.constants.get t ∨ x.1 = .int i := by
  cases s with
  | constants =>
    have hmem : x ∈ c.constants.get t ++ [(.int i, c.next .constants t)] := by
      simpa [fresh, serve] using h
    refine (List.mem_append.1 hmem).imp_right fun hlast => ?_
    rw [List.mem_singleton.1 hlast]
  | globals | temporals | locals => exact .inl h

/-- Each of the requests takes a cell. -/
theorem length_cells_fresh {n : Nat}
    (h : ∀ x ∈ c.constants.get t, ∀ j ≥ i, x.1.equal (.int j) = false) :
    ((cells c ((List.range' i n).map (fresh s t))).filter fun x => x.1 = (s, t)).length = n := by
  induction n generalizing c i with
  | zero => rfl
  | succ n ih =>
    have hregion : (fresh s t i).region? c = some (s, t) := region?_fresh h
    simp only [List.range'_succ, List.map_cons, cells, hregion, runFrom_ask hregion,
      Option.toList_some, List.map_nil, List.singleton_append, decide_true, List.filter_cons_of_pos,
      List.length_cons]
    refine congrArg (· + 1) (ih fun x hx j hj => ?_)
    rcases mem_constants_fresh hx with hold | hnew
    · exact h x hold j (Nat.le_of_succ_le hj)
    · rw [hnew, Bool.eq_false_iff, Ne, Value.equal_int]
      omega

end Request

namespace Compile

/-- The compiler and the machine agree on where the cells of a sector and a type are. -/
theorem address_map :
    (∀ a, (Sector.locate? a).isSome ↔ 10000 ≤ a ∧ a < 350000) ∧
    (∀ a s t, Sector.locate? a = some (s, t) ↔ s.regionStart t ≤ a ∧ a < s.regionStop t) ∧
    (∀ a, Sector.search? a = Sector.locate? a) ∧
    (∀ s : Sector, s.marks = Ty.all.map (Counters.initial.next s) ∧
      s.table = Ty.all.map fun t => (t, Counters.initial.next s t, s.regionStop t)) ∧
    (∀ (c : Compiler) (r : Request) (s : Sector) (t : Ty), r.region? c = some (s, t) →
      ∃ c', r.ask.runFrom c = (.ok (.num (c.next s t)), c')) ∧
    (∀ (s : Sector) (t : Ty) (n : Nat), ∃ rs, (Request.placesIn s t rs).length = n) ∧
    ∀ (rs : List Request) (s : Sector) (t : Ty) (n : Nat) (place : Field),
      (Request.placesIn s t rs)[n]? = some place →
      ∃ a, place = .num a ∧ (n < s.width → Sector.locate? a = some (s, t)) ∧
        (n = s.width → Sector.locate? a = Sector.next? s t) := by
  have hinitial : ∀ (s : Sector) (t : Ty), Counters.initial.next s t = s.regionStart t :=
    Counters.next_initial
  refine ⟨fun a => Sector.isSome_locate?_iff, fun a s t => Sector.locate?_eq_some_iff,
    Sector.search?_eq, fun s => ⟨?_, ?_⟩, fun c r s t h => ⟨_, Request.runFrom_ask h⟩, fun s t n =>
      ?_, fun rs s t n place h => ?_⟩
  · rw [Sector.marks_eq, funext (hinitial s)]
  · simp only [Sector.table_eq, hinitial]
  · refine ⟨(List.range' 0 n).map (Request.fresh s t), ?_⟩
    rw [Request.placesIn, List.length_map]
    exact Request.length_cells_fresh (by simp)
  · have hplace : place = .num (s.regionStart t + n) := hinitial s t ▸ Request.cells_getElem? h
    refine ⟨_, hplace, fun hn => Sector.locate?_eq_some (by omega)
      (by unfold Sector.regionStop; omega), fun hn => ?_⟩
    rw [hn]
    exact Sector.locate?_regionStop s t

/-- The cell number 10000 for decimal constants is in the region of local integers, and the one
before it is still a decimal constant. -/
theorem address_map_constants :
    ∃ (rs : List Request) (a b : Int), (Request.placesIn .constants .dec rs)[9999]? =
      some (.num a) ∧ (Request.placesIn .constants .dec rs)[10000]? = some (.num b) ∧
      Sector.locate? a = some (.constants, .dec) ∧ Sector.locate? b = some (.locals, .int) := by
  obtain ⟨-, -, -, -, -, hmany, hplaces⟩ := address_map
  obtain ⟨rs, hrs⟩ := hmany .constants .dec 10001
  have hlast : (Request.placesIn .constants .dec rs)[9999]? = some _ :=
    List.getElem?_eq_getElem (by omega)
  have hbeyond : (Request.placesIn .constants .dec rs)[10000]? = some _ :=
    List.getElem?_eq_getElem (by omega)
  obtain ⟨a, ha, hinside, -⟩ := hplaces rs _ _ _ _ hlast
  obtain ⟨b, hb, -, houtside⟩ := hplaces rs _ _ _ _ hbeyond
  exact ⟨rs, a, b, hlast.trans (congrArg some ha), hbeyond.trans (congrArg some hb),
    hinside (by decide), houtside (by decide)⟩

end Compile

end Symphony
