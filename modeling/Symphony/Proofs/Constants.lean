import Symphony.Proofs.Entries
import Symphony.Proofs.Leftovers
import Symphony.Proofs.Pointers
import Symphony.Proofs.Pools
import Symphony.Proofs.Rounding
import Symphony.Proofs.Stores

/-!
# What becomes of constants

Literals are operands like any other: they have cells, which the machine finds filled. Nothing marks
these cells as read-only. The only quad whose destination is an operand of the source is that of a
copy of a text, and its destination may be a literal.

**Theorem (`Compiled.constants_kept`).** If a source has room for its cells, a step of a run leaves
the constants as they are, unless its quad copies a text to a literal: then the cell of that literal
gets the text. So in every state of every run all cells of constants to which no text is copied hold
what the table has for them, and the operands of these constants have their values. Without such
copies the constants are the table itself.

A pointer that was computed with a decimal may lead to the cell after its array
(`Value.aims_of_add`), which is that of another variable or the first temporal one. If a pointer is
in that very cell, it is used right after it was computed (`Steady.aims`).
-/

namespace Symphony

open Compiler

variable {a i : Int} {c : Compiler} {k : Nat} {m n : Memory} {s : Slot} {t : Ty} {x : Field}
  {bs : List Int} {rs : List Reservation} {v w : Value} {xs : List Event}

/-! ## Where pointers lead -/

/-- A slot of a variable, or of the cell after it. -/
def Slot.NearVariable (s : Slot) : Prop :=
  Sector.OfVariables s.base ∨ Sector.OfVariables (s.base - 1)

/-- Next to the variables there is only the first of the temporal cells. -/
theorem Slot.NearVariable.sector {r : Sector} (h : s.NearVariable)
    (hs : Sector.locate? s.base = some (r, t)) :
    r ≠ .constants ∧ (r = .temporals → s.base = Sector.temporals.start) := by
  have hbounds := Sector.bounds_of_locate? hs
  rcases h with ⟨r', u, hr', hvar⟩ | ⟨r', u, hr', hvar⟩
  all_goals
    have hbounds' := Sector.bounds_of_locate? hr'
    rcases hvar with rfl | rfl <;> cases r <;> simp [Sector.start, Sector.stop] at * <;> omega

/-- A value that is no address, or that of a variable or of the cell after it. -/
def Value.Aims (w : Value) : Prop :=
  ∀ s, Slot.ofValue w = .ok s → s.NearVariable

/-- Addresses of elements aim at variables, even if the index is a decimal. -/
theorem Value.aims_of_add {base n : Int} {r : Value}
    (hcells : ∀ b, base ≤ b → b < base + n → Sector.OfVariables b)
    (hw : Routine.between 0 w n = .ok true) (hadd : add (.int base) w = .ok r) : r.Aims := by
  intro s hs
  have hpos := Routine.pos_of_between hw
  have hbounds : ∀ b, base ≤ b → b < base + n → 10000 ≤ b ∧ b < 350000 := by
    intro b hlo hhi
    obtain ⟨r, t, hloc, hvar⟩ := hcells b hlo hhi
    have := Sector.bounds_of_locate? hloc
    rcases hvar with rfl | rfl <;> simp only [Sector.start, Sector.stop] at this <;> omega
  obtain ⟨hfirst, -⟩ := hbounds base (Int.le_refl _) (by omega)
  obtain ⟨-, hlast⟩ := hbounds (base + n - 1) (by omega) (by omega)
  lift base to Nat using by omega
  lift n to Nat using by omega
  obtain ⟨hlo, hhi⟩ := base_of_add (by omega) (by omega) hw hadd hs
  by_cases hend : s.base = base + n
  · exact .inr (hcells _ (by omega) (by omega))
  · exact .inl (hcells _ hlo (by omega))

/-! ## Destinations -/

namespace Quad

variable {α : Type} (fields args : List α)

theorem destination?_binary (o : BinOp) : destination? o.symbol fields args = fields[2]? := by
  cases o <;> rfl

theorem destination?_unary (o : UnOp) (x d : α) : destination? o.mnemonic [x, d] args = some d := by
  cases o <;> rfl

theorem destination?_special {name : String} {s : Special.Signature}
    (h : Special.signature? name = some s) :
    destination? name fields args =
      if s.result.isSome then fields[0]? else if name = "copy" ∧
        fields.isEmpty = true then args[0]? else none := by
  by_cases hcopy : name = "copy"
  · subst hcopy
    cases h
    simp [destination?, show Operation.ofName? "copy" = none by decide, Routine.ofName?,
      Routine.destination?, Routine.stores]
  · unfold Special.signature? at h
    split at h <;> first | cases h; rfl | exact absurd rfl hcopy | cases h

end Quad

/-- The address of the constant that is the destination of the copy of a text at an index, and the
operand that is copied. -/
def Compiler.overwrites? (c : Compiler) (k : Nat) : Option (Int × Field) :=
  match c.quads[k]?, Quad.passed c.quads k with
  | some [.word "copy"], .num a :: x :: _ =>
    if Sector.locate? a = some (.constants, .str) then some (a, x) else none
  | _, _ => none

namespace Compiler

theorem overwrites?_eq_some :
    c.overwrites? k = some (a, x) ↔ c.quads[k]? = some [.word "copy"] ∧
      (∃ rest, Quad.passed c.quads k = .num a :: x :: rest) ∧
        Sector.locate? a = some (.constants, .str) := by
  unfold overwrites?
  split
  case h_1 b y rest hq hargs => simp [hq, hargs]; grind
  case h_2 hother =>
    refine iff_of_false (by simp) ?_
    rintro ⟨hq, ⟨rest, hargs⟩, -⟩
    exact hother _ _ _ hq hargs

/-- Directed code, with what its quads store to. -/
structure IsConfined (xs : List Event) (rs : List Reservation) (bs : List Int) (c : Compiler) : Prop
    extends IsDirected xs rs bs c where
  targets : ∀ {k : Nat} {q : Quad} {a : Int}, c.quads[k]? = some q → q.target? = some a →
    ∃ t, Sector.locate? a = some (.temporals, t)
  follows : ∀ {k : Nat} {q : Quad} {a : Int}, c.quads[k]? = some q → q.StoresThrough a →
    c.FollowsAccess k a
  copies : SelfCopies c
  /-- Constants have cells of their own. -/
  constants : ∀ t, ((c.constants.get t).map Prod.snd).Nodup ∧
    ∀ x ∈ c.constants.get t, Sector.locate? x.2 = some (.constants, t)

end Compiler

theorem Compiled.exists_isConfined {line : Nat} {source : String}
    (h : (ofSource line source).rejection = none) (hroom : HasRoom line source) :
    ∃ rs bs, (ofSource line source).state.IsConfined (Trace.ofSource line source).events rs bs := by
  obtain ⟨rs, bs, hdirected⟩ := exists_isDirected h hroom
  obtain ⟨log, hbooked⟩ := exists_booked h hroom
  obtain ⟨tree, htree, hruns⟩ := exists_runs h
  have hpos : Event.Sized tree.events := htree ▸ hroom.sizes
  have hmem : ∀ (s : Sector) (a : Int), a ∈ (⟨s, a, 1⟩ : AddressBlock).cells :=
    fun _ _ => AddressBlock.mem_cells.2 ⟨Int.le_refl _, Int.lt_succ _⟩
  refine ⟨rs, bs, hdirected, fun hq ha => ?_, fun hq hstores => ?_, hbooked.copies, fun t =>
    ⟨?_, fun x hx => ?_⟩⟩
  · obtain ⟨t, hlog⟩ := hbooked.accounts.temporals hq ha
    exact ⟨t, hlog.locate hbooked.roomy (hmem _ _)⟩
  · exact tree.followsAccess (tree.laidOut hruns).1 hpos hroom.fits hq hstores
  · rw [List.Nodup, List.pairwise_map, List.pairwise_iff_getElem]
    intro i j hi hj hij heq
    have hlog := hbooked.accounts.constants (List.getElem?_eq_getElem hi)
    have hlog' := hbooked.accounts.constants (List.getElem?_eq_getElem hj)
    rw [← heq] at hlog'
    have hsame := hlog.eq_of_mem hlog' hbooked.roomy (hmem _ _) (hmem _ _)
    simp at hsame
    omega
  · obtain ⟨i, hi⟩ := List.mem_iff_getElem?.1 hx
    exact (hbooked.accounts.constants hi).locate hbooked.roomy (hmem _ _)

namespace Compiler.IsConfined

variable {q : Quad} {w : String} {fs : List Field} {d : Field}

/-- The cells of pointers are no operands. -/
theorem not_stored (h : c.IsConfined xs rs bs) (hpoints : c.Points a) : ¬Stored rs (.num a) := by
  obtain ⟨l, base, x, haccess⟩ := hpoints
  exact fun hstored => h.ne_of_stored haccess _ hstored rfl

theorem locate_points (h : c.IsConfined xs rs bs) (hpoints : c.Points a) :
    ∃ t, Sector.locate? a = some (.temporals, t) := by
  obtain ⟨l, base, x, haccess⟩ := hpoints
  exact h.locate_access haccess

/-- Of the quads that name the cell of a pointer, the access stores to it. -/
theorem access_of_names (h : c.IsConfined xs rs bs) (hq : c.quads[k]? = some q) (hnames : q.Names a)
    (hpoints : c.Points a) : ∃ base x, c.quads[k]? = some [.word "ACCESS", base, x, .num a] := by
  rcases hnames with hop | ⟨base, x, rfl⟩
  · exact absurd ((h.placed.quads k q hq).stored _ hop) (h.not_stored hpoints)
  · exact ⟨base, x, hq⟩

/-- A copy of a value to a cell is to a variable. -/
theorem copy_ofVariables (h : c.IsConfined xs rs bs)
    (hq : c.quads[k]? = some [.word "=", x, .num a]) : Sector.OfVariables a := by
  by_cases hself : ∀ y ∈ c.selfCalls, y.1 ≠ k
  · exact h.directs.copies hq hself
  push Not at hself
  obtain ⟨y, hy, rfl⟩ := hself
  obtain rfl := Field.num.inj (h.copies.eq_num hy hq)
  exact h.directs.selfCalls y hy

/-- What a quad stores to: a cell of a variable or a temporal one that it names, a pointer, or what
has been handed over for the copy of a text. -/
theorem destination_cases (h : c.IsConfined xs rs bs) (hq : c.quads[k]? = some (.word w :: fs))
    (hd : Quad.destination? w fs (Quad.passed c.quads k) = some d) :
    (∃ a s t, d = .num a ∧ Quad.Names (.word w :: fs) a ∧ Sector.locate? a = some (s, t) ∧
      s ≠ .constants) ∨ (∃ a, d = .pointer a ∧ Quad.StoresThrough (.word w :: fs) a) ∨
      (w = "copy" ∧ fs = [] ∧ (Quad.passed c.quads k)[0]? = some d) := by
  -- A cell that is named is one of a variable or the temporal one that the quad is to fill.
  have hvariable : ∀ {a : Int}, d = .num a → .num a ∈ Quad.operands (.word w :: fs) →
      Sector.OfVariables a →
      ∃ a s t, d = .num a ∧ Quad.Names (.word w :: fs) a ∧ Sector.locate? a = some (s, t) ∧
        s ≠ .constants := by
    rintro a hda hmem ⟨s, t, hloc, hs⟩
    exact ⟨a, s, t, hda, .inl hmem, hloc, by rcases hs with rfl | rfl <;> decide⟩
  have htemporal : ∀ {a : Int}, d = .num a → Quad.Names (.word w :: fs) a →
      Quad.target? (.word w :: fs) = some a →
      ∃ a s t, d = .num a ∧ Quad.Names (.word w :: fs) a ∧ Sector.locate? a = some (s, t) ∧
        s ≠ .constants := by
    intro a hda hnames htarget
    obtain ⟨t, hloc⟩ := h.targets hq htarget
    exact ⟨a, .temporals, t, hda, hnames, hloc, by decide⟩
  have htyped := h.typed.code.quads k _ hq
  generalize hargs : Quad.passed c.quads k = args at hd htyped ⊢
  generalize hword : Field.word w :: fs = q at htyped
  cases htyped with
  | @binary o l r a lt rt t hl hr ht ha =>
    obtain ⟨hw, rfl⟩ := List.cons.inj hword
    cases hw
    rw [Quad.destination?_binary] at hd
    cases hd
    refine .inl (htemporal rfl (.inl ?_) (by simp [Quad.target?, BinOp.ofSymbol?_symbol]))
    rw [Quad.operands_binary]
    simp
  | @unary o x y t u hx ht hy =>
    obtain ⟨hw, rfl⟩ := List.cons.inj hword
    cases hw
    rw [Quad.destination?_unary] at hd
    cases hd
    cases d with
    | word => exact hy.elim
    | pointer a => exact .inr (.inl ⟨a, rfl, _, x, rfl, .inr ⟨o, rfl⟩⟩)
    | num a =>
      have hmem : .num a ∈ Quad.operands [.word o.mnemonic, x, .num a] := by
        rw [Quad.operands_unary]
        simp
      -- Updates write to their operand, the others to a temporal cell.
      cases hupdates : o.updatesOperand with
      | true => exact .inl (hvariable rfl hmem (h.directs.updates hupdates hq))
      | false =>
        exact .inl (htemporal rfl (.inl hmem)
          (by simp [Quad.target?, Quad.isSign_mnemonic hupdates]))
  | copy hpair =>
    obtain ⟨hw, rfl⟩ := List.cons.inj hword
    cases hw
    obtain ⟨x, rfl⟩ : ∃ x, fs = [x, d] := by
      rcases fs with _ | ⟨x, _ | ⟨y, _ | _⟩⟩ <;> cases hd
      exact ⟨x, rfl⟩
    obtain ⟨t, -, hdest⟩ := hpair x d rfl
    cases d with
    | word => exact hdest.elim
    | pointer a => exact .inr (.inl ⟨a, rfl, _, x, rfl, .inl rfl⟩)
    | num a => exact .inl (hvariable rfl (by simp [Quad.operands]) (h.copy_ofVariables hq))
  | @access x base y hx =>
    obtain ⟨hw, rfl⟩ := List.cons.inj hword
    cases hw
    cases hd
    obtain ⟨_, v, _, _, a, -, hfields, -⟩ := h.directs.accesses hq
    obtain ⟨rfl, -, rfl⟩ : base = .num v.address ∧ x = _ ∧ d = .num a := by simpa using hfields
    exact .inl (htemporal rfl (.inr ⟨_, _, rfl⟩) (by simp [Quad.target?]))
  | @special _ name s hs hresult hfits =>
    obtain ⟨hw, rfl⟩ := List.cons.inj hword
    cases hw
    rw [Quad.destination?_special _ _ hs, hresult] at hd
    split_ifs at hd with hnone hcopy
    · cases hnone
    · exact .inr (.inr ⟨hcopy.1, rfl, hd⟩)
  | @specialValue _ name s t a hs hresult hfits ha =>
    obtain ⟨hw, rfl⟩ := List.cons.inj hword
    cases hw
    rw [Quad.destination?_special _ _ hs, hresult] at hd
    cases hd
    refine .inl (htemporal rfl (.inl ?_) (by simp [Quad.target?, hs]))
    rw [Quad.operands_special hs]
    simp
  | verify | param | gosub | endproc | goto | gotof =>
    obtain ⟨hw, rfl⟩ := List.cons.inj hword
    cases hw
    cases hd

/-- What has been handed over. -/
theorem passed (h : c.IsConfined xs rs bs) :
    ∀ x ∈ Quad.passed c.quads k, Stored rs x ∧ x.Points c.Points := by
  refine Quad.forall_mem_passed (fun i q hq x hx => ⟨(h.placed.quads i q hq).stored x hx, ?_⟩) k
  obtain ⟨w, fs, rfl⟩ := (h.isFed.quads i q hq).1.exists_word
  exact h.refers.quads i _ hq x (List.mem_cons_of_mem _ (Quad.mem_of_mem_operands hx))

/-- The operands of the copy of a text are texts. -/
theorem passed_copy (h : c.IsConfined xs rs bs) (hq : c.quads[k]? = some [.word "copy"]) :
    ∃ d x, Quad.passed c.quads k = [d, x] ∧ d.IsOf .str := by
  have htyped := h.typed.code.quads k _ hq
  generalize Quad.passed c.quads k = args at htyped
  generalize hcopy : [Field.word "copy"] = q at htyped
  cases htyped with
  | @special _ name s hs _ hfits =>
    cases hcopy
    cases hs
    obtain ⟨x, rest, -, htail, hargs⟩ := List.forall₂_cons_right_iff.1 hfits
    obtain ⟨d, rest, ⟨t, ht, hd⟩, hnil, rfl⟩ := List.forall₂_cons_right_iff.1 htail
    obtain rfl := List.forall₂_nil_right_iff.1 hnil
    obtain rfl := List.mem_singleton.1 ht
    exact ⟨d, x, by rw [← List.reverse_reverse args, hargs]; rfl, hd⟩
  | _ => simp at hcopy

end Compiler.IsConfined

/-! ## Steps -/

/-- The memory after a step: local cells have been replaced, or a cell has been set, which is that
of a pointer or a constant only if the quad says so. -/
inductive Memory.Alters (c : Compiler) (k : Nat) (m : Memory) : Memory → Prop
  | locals (b : Bank) : Alters c k m { m with locals := b }
  | cell {a : Int} {s : Sector} {t : Ty} {v : Value} {n : Memory} :
      (c.Points a → ∃ base x, c.quads[k]? = some [.word "ACCESS", base, x, .num a]) →
      Sector.locate? a = some (s, t) → (s = .constants → (c.overwrites? k).isSome) →
      m.write (.ofInt a) v = .ok n → Alters c k m n
  | near {s : Slot} {v : Value} {n : Memory} : s.NearVariable → m.write s v = .ok n → Alters c k m n

theorem Memory.constants_write {r : Sector} (hs : Sector.locate? s.base = some (r, t))
    (hr : r ≠ .constants) (h : m.write s v = .ok n) : n.constants = m.constants := by
  rw [write, hs] at h
  cases h
  exact PerSector.get_set_of_ne m _ hr.symm

theorem Memory.exists_of_write (h : m.write s v = .ok n) :
    ∃ r t, Sector.locate? s.base = some (r, t) := by
  rw [write] at h
  split at h
  case h_1 => cases h
  case h_2 r t hs => exact ⟨r, t, hs⟩

namespace Memory.Alters

theorem constants_eq (h : m.Alters c k n) (hover : c.overwrites? k = none) :
    n.constants = m.constants := by
  cases h with
  | locals b => rfl
  | cell _ hloc hs hwrite =>
    refine constants_write hloc (fun hconst => ?_) hwrite
    have hsome := hs hconst
    rw [hover] at hsome
    cases hsome
  | near hnear hwrite =>
    obtain ⟨r, t, hloc⟩ := exists_of_write hwrite
    exact constants_write hloc (hnear.sector hloc).1 hwrite

theorem read_eq (h : m.Alters c k n) (hloc : Sector.locate? a = some (.temporals, t))
    (hne : a ≠ Sector.temporals.start) (hpoints : c.Points a)
    (hk : ∀ base x, c.quads[k]? ≠ some [.word "ACCESS", base, x, .num a]) :
    n.read (.ofInt a) = m.read (.ofInt a) := by
  cases h with
  | locals b => exact read_congr hloc rfl
  | @cell b s u v n hown _ _ hwrite =>
    refine read_write_of_ne hwrite ?_
    rintro rfl
    obtain ⟨base, x, haccess⟩ := hown hpoints
    exact hk base x haccess
  | near hnear hwrite =>
    rw [read_of_write hwrite, if_neg]
    intro horder
    have hbase : _ = a := (Slot.order_eq_iff.1 horder).1
    exact hne (hbase ▸ (hnear.sector (hbase ▸ hloc)).2 rfl)

end Memory.Alters

/-- The constants after the quad at an index. -/
def Machine.constantsAfter (m : Machine) (c : Compiler) (k : Nat) : Bank :=
  match c.overwrites? k with
  | none => m.memory.constants
  | some (a, x) =>
    match m.memory.load (.ofField x.text) with
    | .ok v => m.memory.constants.put .str a v
    | .error _ => m.memory.constants

/-- A machine at an index where it has been handed the operands that the code expects, with an index
of an array that has been checked if it is about to be used, and with pointers that lead to
variables if they may be stored through. -/
structure Steady (c : Compiler) (k : Nat) (m : Machine) : Prop where
  parameters : m.parameters = (Quad.passed c.quads k).map Field.text
  checked : ∀ {l : Nat} {x base d : Field} {n : Int}, k = l + 1 →
    c.quads[l]? = some [.word "VER", x, .num 0, .num n] →
      c.quads[k]? = some [.word "ACCESS", base, x, d] →
      ∃ w, m.memory.load (.ofField x.text) = .ok w ∧ Routine.between 0 w n = .ok true
  /-- The first temporal cell may be next to a variable, so its pointer is used right away. -/
  aims : ∀ {a : Int} {w : Value}, c.Points a →
    (a ≠ Sector.temporals.start ∨ ∃ q, c.quads[k]? = some q ∧ q.StoresThrough a) →
      m.memory.read (.ofInt a) = .ok w → w.Aims

namespace Steady

variable {p : Program} {m m' : Machine} {regions fs : List Region} {main : Nat}

/-- What is stored through a pointer goes to a variable or the cell after it. -/
theorem alters_pointer (hs : Steady c k m) (ha : a.natAbs < Text.tooLong) (hpoints : c.Points a)
    (hfresh : a ≠ Sector.temporals.start ∨ ∃ q, c.quads[k]? = some q ∧ q.StoresThrough a)
    (hstore : m.memory.store (.ofField (Field.pointer a).text) v = .ok n) :
    m.memory.Alters c k n := by
  obtain ⟨s, hres, hwrite⟩ := Memory.exists_of_store hstore
  obtain ⟨w, hread, hvalue⟩ := Memory.resolve_pointer ha hres
  exact .near (hs.aims hpoints hfresh hread s hvalue) hwrite

/-- What a step does to the memory. -/
theorem alters (h : c.IsConfined xs rs bs) (hp : p.IsOf c) (hs : Steady c k m) :
    m.memory.Alters c k (p.step k m).machine.memory := by
  cases hq : c.quads[k]? with
  | none =>
    rw [Program.machine_step_of_none (by rw [hp.quad?, hq]; rfl)]
    exact .locals _
  | some q =>
    obtain ⟨w, fs, rfl⟩ := (h.isFed.quads k q hq).1.exists_word
    have hsets := Program.step_sets (hp.quad?_eq_some hq) m
    generalize (p.step k m).machine.memory = n at hsets
    cases hsets with
    | locals b => exact .locals b
    | @store field v n hdest hstore =>
      rw [hs.parameters, Quad.destination?_map, Option.map_eq_some_iff] at hdest
      obtain ⟨d, hd, rfl⟩ := hdest
      rcases h.destination_cases hq hd with ⟨a, s, t, rfl, hnames, hloc, hne⟩ | ⟨a, rfl,
        hthrough⟩ | ⟨rfl, rfl, hfirst⟩
      · rw [Memory.store_num (Sector.natAbs_lt_tooLong hloc)] at hstore
        exact .cell (h.access_of_names hq hnames) hloc (fun hconst => absurd hconst hne) hstore
      · obtain ⟨_, x, hfields, -⟩ := id hthrough
        have hpoints : c.Points a := h.refers.quads k _ hq _ (by simp [hfields]) a rfl
        obtain ⟨t, hloc⟩ := h.locate_points hpoints
        exact hs.alters_pointer (Sector.natAbs_lt_tooLong hloc) hpoints
          (.inr ⟨_, hq, hthrough⟩) hstore
      · -- Only the copy of a text may reach a constant, as its destination is handed over.
        obtain ⟨d', x, hpassed, hstr⟩ := h.passed_copy hq
        obtain rfl : d' = d := by simpa [hpassed] using hfirst
        obtain ⟨hstored, hpoints⟩ := h.passed (k := k) d' (by simp [hpassed])
        cases d' with
        | word => exact hstr.elim
        | pointer a =>
          have hne : a ≠ Sector.temporals.start := by
            rintro rfl
            cases hstr
          exact hs.alters_pointer (Sector.natAbs_lt_tooLong hstr) (hpoints a rfl) (.inl hne) hstore
        | num a =>
          obtain ⟨s, hloc⟩ := hstr
          rw [Memory.store_num (Sector.natAbs_lt_tooLong hloc)] at hstore
          refine .cell (fun hpoints => absurd hstored (h.not_stored hpoints)) hloc
            (fun hconst => ?_) hstore
          subst hconst
          rw [overwrites?_eq_some.2 ⟨hq, ⟨[], hpassed⟩, hloc⟩]
          rfl

/-- What a step does to the constants. -/
theorem constants_step (h : c.IsConfined xs rs bs) (hp : p.IsOf c) (hs : Steady c k m) :
    (p.step k m).machine.memory.constants = m.constantsAfter c k := by
  rw [Machine.constantsAfter]
  cases hover : c.overwrites? k with
  | none => exact (hs.alters h hp).constants_eq hover
  | some y =>
    obtain ⟨a, x⟩ := y
    obtain ⟨hq, ⟨rest, hpassed⟩, hloc⟩ := overwrites?_eq_some.1 hover
    rw [Program.memory_step_copy (hp.quad?_eq_some hq), hs.parameters, hpassed]
    simp only [List.map_cons, Memory.copied]
    cases hload : m.memory.load (.ofField x.text) with
    | error f => rfl
    | ok v =>
      have hwrite : m.memory.write (.ofInt a) v =
          .ok (m.memory.set .constants (m.memory.constants.put .str a v)) := by
        rw [Memory.write, show Sector.locate? (Slot.ofInt a).base =
          some (.constants, .str) from hloc]
        rfl
      rw [← Memory.store_num (Sector.natAbs_lt_tooLong hloc)] at hwrite
      simp only [Except.bind, hwrite]
      rfl

/-- An access lets its pointer lead to an element, or the cell after its array. -/
theorem aims_access (h : c.IsConfined xs rs bs) (hp : p.IsOf c) (hs : Steady c k m) {base : Field}
    (haccess : c.quads[k]? = some [.word "ACCESS", base, x, .num a])
    (hstep : p.step k m = .next i m') (hread : m'.memory.read (.ofInt a) = .ok w) : w.Aims := by
  obtain ⟨l, v, n, y, b, hk, hfields, hver, -, hcells⟩ := h.directs.accesses haccess
  obtain ⟨rfl, rfl, rfl⟩ : base = .num v.address ∧ x = y ∧ a = b := by simpa using hfields
  obtain ⟨z, hload, hbetween⟩ := hs.checked hk hver haccess
  obtain ⟨t, hloc⟩ := h.locate_access haccess
  have hpos := Routine.pos_of_between hbetween
  obtain ⟨s, u, hplace, -⟩ := hcells v.address (Int.le_refl _) (by omega)
  have hnum : Text.readInteger? (Field.num v.address).text = some v.address := by
    rw [Field.text, Text.readInteger?_toString, if_pos (Sector.natAbs_lt_tooLong hplace)]
  rw [Program.step_access (hp.quad?_eq_some haccess) hnum, hload] at hstep
  obtain ⟨-, memory, hmemory, rfl⟩ := Program.next_eq_next hstep
  change (Value.add (.int v.address) z).bind (m.memory.store (.ofField (Field.num a).text)) =
    .ok memory at hmemory
  cases hadd : Value.add (.int v.address) z with
  | error f =>
    rw [hadd] at hmemory
    cases hmemory
  | ok r =>
    rw [hadd] at hmemory
    have hwrite : m.memory.write (.ofInt a) r = .ok memory := by
      rw [← Memory.store_num (Sector.natAbs_lt_tooLong hloc)]
      exact hmemory
    rw [Memory.read_write_self hwrite] at hread
    cases hread
    exact Value.aims_of_add hcells hbetween hadd

/-- The next quad finds its index checked. -/
theorem checked_succ (hp : p.IsOf c) (hstep : p.step k m = .next i m') {l : Nat} {n : Int}
    (hl : k + 1 = l + 1) (hver : c.quads[l]? = some [.word "VER", x, .num 0, .num n]) :
    ∃ w, m'.memory.load (.ofField x.text) = .ok w ∧ Routine.between 0 w n = .ok true := by
  obtain rfl : k = l := by omega
  obtain ⟨rfl, v, l, u, hload, hlow, hhigh, hbetween⟩ :=
    Program.step_verify_ok (hp.quad?_eq_some hver) hstep
  obtain rfl := Text.eq_of_readInteger?_toString hlow
  obtain rfl := Text.eq_of_readInteger?_toString hhigh
  exact ⟨v, hload, hbetween⟩

/-- Pointers lead to variables after a step if they did before. -/
theorem aims_next (h : c.IsConfined xs rs bs) (hr : Routed regions main c p)
    (hstands : Stands regions main c fs k m) (hs : Steady c k m) {gs : List Region} {j : Nat}
    (hstep : p.step k m = .next j m') (hmoves : Moves regions main c p fs k m gs j m')
    (hpoints : c.Points a)
    (hfresh : a ≠ Sector.temporals.start ∨ ∃ q, c.quads[j]? = some q ∧ q.StoresThrough a)
    (hread : m'.memory.read (.ofInt a) = .ok w) : w.Aims := by
  by_cases haccess : ∃ base x, c.quads[k]? = some [.word "ACCESS", base, x, .num a]
  · obtain ⟨base, x, haccess⟩ := haccess
    exact hs.aims_access h hr.program haccess hstep hread
  have hne : a ≠ Sector.temporals.start := by
    rcases hfresh with hne | ⟨q, hq, hthrough⟩
    · exact hne
    · exact absurd ((h.follows hq hthrough).of_moves hr hstands hmoves) haccess
  obtain ⟨t, hloc⟩ := h.locate_points hpoints
  have halters : m.memory.Alters c k m'.memory := by
    have halters := hs.alters h hr.program
    rwa [hstep] at halters
  rw [halters.read_eq hloc hne hpoints fun base x hq => haccess ⟨base, x, hq⟩] at hread
  exact hs.aims hpoints (.inl hne) hread

theorem next (h : c.IsConfined xs rs bs) (hr : Routed regions main c p)
    (hstands : Stands regions main c fs k m) (hs : Steady c k m) (hstep : p.step k m = .next i m') :
    ∃ gs j, i = (j : Nat) ∧ Stands regions main c gs j m' ∧ Steady c j m' := by
  obtain ⟨gs, j, rfl, hmoves⟩ := hstands.moves hr hstep
  obtain ⟨q, hq⟩ := hr.program.step_next hstep
  obtain ⟨hpassed, hgoes⟩ := h.passed_move hr hstands hq hmoves
  refine ⟨gs, j, rfl, hstands.move hr hmoves, ?_, ?_, hs.aims_next h hr hstands hstep hmoves⟩
  · rw [hpassed]
    exact h.isFed.handed_next hr hstands hq hs.parameters hstep
  · intro l x base d n hj hver haccess
    rcases hgoes with rfl | hentry
    · exact checked_succ hr.program hstep hj hver
    · obtain ⟨_, _, _, _, _, _, _, -, -, -, -, hnot, -⟩ := (h.placed.quads j _ haccess).of_access
      exact absurd hentry hnot

theorem steps (h : c.IsConfined xs rs bs) (hr : Routed regions main c p)
    (hstands : Stands regions main c fs k m) (hs : Steady c k m) {n : Nat}
    (hsteps : p.Steps n k m i m') :
    ∃ gs j, i = (j : Nat) ∧ Stands regions main c gs j m' ∧ Steady c j m' := by
  refine hsteps.invariant
    (I := fun i m => ∃ fs k, i = (k : Nat) ∧ Stands regions main c fs k m ∧ Steady c k m) ?_
    ⟨fs, k, rfl, hstands, hs⟩
  rintro _ _ m m' hstep ⟨fs, k, rfl, hstands, hs⟩
  exact hs.next h hr hstands hstep

/-- What all steps do to the constants, a run does. -/
theorem run (h : c.IsConfined xs rs bs) (hr : Routed regions main c p)
    (hstands : Stands regions main c fs k m) (hs : Steady c k m) {P : Bank → Prop}
    (hP : ∀ k m, P m.memory.constants → P (Machine.constantsAfter m c k))
    (hm : P m.memory.constants) (n : Nat) : P (p.run n k m).2.memory.constants := by
  induction n generalizing fs k m with
  | zero => exact hm
  | succ n ih =>
    have hafter : P (p.step k m).machine.memory.constants := by
      rw [hs.constants_step h hr.program]
      exact hP k m hm
    rw [Program.run]
    split
    case h_1 i m' hstep =>
      obtain ⟨gs, j, rfl, hstands', hs'⟩ := hs.next h hr hstands hstep
      rw [hstep] at hafter
      exact ih hstands' hs' hafter
    case h_2 m' hstep | h_3 f m' hstep =>
      rw [hstep] at hafter
      exact hafter

end Steady

/-! ## Sources -/

/-- The cells of a pool whose addresses differ hold its values. -/
theorem Cells.getElem?_ofPool_of_mem {pool : Pool} (h : (pool.map Prod.snd).Nodup) {x : Value × Int}
    (hx : x ∈ pool) : (ofPool pool)[Slot.ofInt x.2]? = some x.1 := by
  induction pool using List.reverseRecOn with
  | nil => cases hx
  | append_singleton pool y ih =>
    rw [List.map_append, List.nodup_append] at h
    obtain ⟨hpool, -, hapart⟩ := h
    have hput : ofPool (pool ++ [y]) = (ofPool pool).put (.ofInt y.2) y.1 := by
      rw [ofPool, List.foldl_append]
      rfl
    rw [hput, Cells.getElem?_put]
    rcases List.mem_append.1 hx with hx | hx
    · rw [if_neg, ih hpool hx]
      exact fun hsame => hapart _ (List.mem_map_of_mem hx) _
        (by simp) (Slot.order_ofInt.1 hsame).symm
    · rw [List.mem_singleton.1 hx, if_pos (Slot.order_ofInt.2 rfl)]

/-- The constants of a machine are those of the table that it was given, but for those that texts
are copied to. -/
structure Machine.KeepsConstants (c : Compiler) (m : Machine) : Prop where
  cells : ∀ (t : Ty) (s : Slot), (∀ k x, c.overwrites? k ≠ some (s.base, x)) →
    (m.memory.constants.get t)[s]? = ((Bank.ofPools c.constants).get t)[s]?
  /-- The operand that stands for a constant has its value. -/
  values : ∀ (t : Ty), ∀ y ∈ c.constants.get t, (∀ k x, c.overwrites? k ≠ some (y.2, x)) →
    m.memory.load (.ofField (Field.num y.2).text) = .ok y.1
  table : (∀ k, c.overwrites? k = none) → m.memory.constants = .ofPools c.constants

theorem Machine.getElem?_constantsAfter (m : Machine)
    (h : ∀ k x, c.overwrites? k ≠ some (s.base, x)) :
    ((m.constantsAfter c k).get t)[s]? = (m.memory.constants.get t)[s]? := by
  unfold constantsAfter
  split
  case h_1 => rfl
  case h_2 a x hover =>
    split
    case h_1 v _ =>
      rw [Bank.put, Bank.getElem?_set_put_slot, if_neg]
      rintro ⟨-, hsame⟩
      have hbase : a = s.base := (Slot.order_eq_iff.1 hsame).1
      exact h k x (hbase ▸ hover)
    case h_2 => rfl

theorem Compiler.IsConfined.keepsConstants {m : Machine} (h : c.IsConfined xs rs bs)
    (hcells : ∀ (t : Ty) (s : Slot), (∀ k x, c.overwrites? k ≠ some (s.base, x)) →
      (m.memory.constants.get t)[s]? = ((Bank.ofPools c.constants).get t)[s]?)
    (htable : (∀ k, c.overwrites? k = none) → m.memory.constants = .ofPools c.constants) :
    m.KeepsConstants c := by
  refine ⟨hcells, fun t y hy hover => ?_, htable⟩
  obtain ⟨hnodup, hlocate⟩ := h.constants t
  have hloc := hlocate y hy
  have hcell : (m.memory.constants.get t)[Slot.ofInt y.2]? = some y.1 := by
    rw [hcells t _ hover, Bank.get_ofPools, Cells.getElem?_ofPool_of_mem hnodup hy]
  rw [Memory.load_num (Sector.natAbs_lt_tooLong hloc), Memory.read_eq hloc,
    show ((m.memory.get .constants).get t)[Slot.ofInt y.2]? = some y.1 from hcell]

/-- Runs of an accepted source that has room for its cells change constants only by copying texts to
literals. -/
theorem Compiled.constants_kept {line : Nat} {source : String}
    (h : (ofSource line source).rejection = none) (hroom : HasRoom line source)
    (randoms : Nat → Value) (inputs : Array String) :
    (∀ n i m, (ofSource line source).play randoms inputs n = (.unfinished i, m) →
      ∃ k : Nat, i = k ∧ ((ofSource line source).program.step i m).machine.memory.constants =
        m.constantsAfter (ofSource line source).state k) ∧
    ∀ limit, ((ofSource line source).play randoms inputs limit).2.KeepsConstants
      (ofSource line source).state := by
  obtain ⟨rs, bs, hconfined⟩ := exists_isConfined h hroom
  obtain ⟨regions, main, hr, -⟩ := exists_routed h
  -- At the start nothing has been handed over and no pointer leads anywhere.
  have hsteady : Steady (ofSource line source).state 0
      (({ randoms := randoms } : Machine).prepare (.ofPools (ofSource line source).state.constants)
        inputs) := by
    refine ⟨rfl, fun hl => absurd hl (Nat.succ_ne_zero _).symm, fun hpoints _ hread => ?_⟩
    obtain ⟨t, hloc⟩ := hconfined.locate_points hpoints
    rw [Machine.read_prepare hloc] at hread
    cases hread
  have hstands : Stands regions main (ofSource line source).state [] 0
      (({ randoms := randoms } : Machine).prepare (.ofPools (ofSource line source).state.constants)
        inputs) :=
    .start rfl rfl
  constructor
  · intro n i m hplay
    obtain ⟨fs, k, rfl, -, hk⟩ :=
      hsteady.steps hconfined hr hstands (Program.run_eq_unfinished.1 hplay)
    exact ⟨k, rfl, hk.constants_step hconfined hr.program⟩
  · intro limit
    refine (hconfined.keepsConstants (fun t s hs => ?_) fun hnone => ?_)
    · refine hsteady.run hconfined hr hstands
        (P := fun b => (b.get t)[s]? =
          ((Bank.ofPools (ofSource line source).state.constants).get t)[s]?) ?_ rfl limit
      intro k m hm
      rw [← hm]
      exact m.getElem?_constantsAfter hs
    · refine hsteady.run hconfined hr hstands
        (P := (· = .ofPools (ofSource line source).state.constants)) ?_ rfl limit
      intro k m hm
      rw [Machine.constantsAfter, hnone k]
      exact hm

/-- A text is copied to a literal, and another one to a variable. -/
theorem Compiled.constants_kept_copy :
    let source := "program p; str s; copy(\"a\", s); copy(s, \"b\"); println(\"b\");"
    (ofSource 1 source).rejection = none ∧ HasRoom 1 source ∧
      (ofSource 1 source).state.overwrites? 6 = some (220001, .num 58000) ∧
      ∀ randoms inputs limit, ((ofSource 1 source).play randoms inputs limit).2.KeepsConstants
        (ofSource 1 source).state := by
  intro source
  refine ⟨?accepted, ?room, ?_, fun randoms inputs =>
    (constants_kept ?accepted ?room randoms inputs).2⟩ <;> decide +kernel

end Symphony
