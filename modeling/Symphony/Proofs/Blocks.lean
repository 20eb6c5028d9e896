import Mathlib.Order.Interval.Finset.Basic
import Mathlib.Data.Int.Interval
import Symphony.Proofs.Isolation
import Symphony.Proofs.Typing

/-!
# Blocks of memory

Variables, constants, intermediate results and results of calls have a block of cells each. The
history of reservations is labelled with the object that each of them was made for
(`Compiler.Accounts`).

**Theorem (`Compiled.blocks_disjoint`).** If no array of an accepted source has a negative size and
no region is used up, the blocks of different objects share no cell, every block has as many cells
as its object, and all of them are in the region of its sector and type.
-/

namespace Symphony

variable {a : Int} {j k : Nat} {q : Quad} {t : Ty} {b : AddressBlock} {fs : List Field}
  {isGlobal : Bool} {log : History} {name w : String} {rs : List Reservation}

/-- What a program keeps in memory. -/
inductive Object
  /-- A variable or an array, of a function or of the main part. -/
  | variable (scope : Scope) (name : String)
  /-- A constant, by its number among those of its type. -/
  | constant (t : Ty) (i : Nat)
  /-- The intermediate result of a quad. -/
  | temporal (k : Nat)
  /-- The result of the call that a quad makes. -/
  | result (k : Nat)
deriving DecidableEq

/-- Cells that follow each other. -/
structure AddressBlock where
  sector : Sector
  address : Int
  size : Int
deriving DecidableEq

def AddressBlock.cells (b : AddressBlock) : Finset Int :=
  Int.instLocallyFiniteOrder.finsetIco b.address (b.address + b.size)

theorem AddressBlock.mem_cells : a ∈ b.cells ↔ b.address ≤ a ∧ a < b.address + b.size :=
  Finset.mem_Ico

theorem AddressBlock.card_cells (b : AddressBlock) : b.cells.card = b.size.toNat := by
  have h := Int.card_Ico b.address (b.address + b.size)
  rwa [show b.address + b.size - b.address = b.size by omega] at h

/-! ## What objects have -/

/-- The number of cells of a variable. -/
def Variable.size (v : Variable) : Int :=
  match v.elements with
  | none => 1
  | some (_, n) => n

/-- The type of a variable, or of the elements of an array. -/
def Variable.ty? (v : Variable) : Option Ty :=
  match v.elements with
  | none => v.kind.ty?
  | some (k, _) => k.ty?

namespace Quad

/-- Operators in front of an operand whose result has a cell of its own. -/
def isSign (w : String) : Bool :=
  UnOp.all.any fun o => !o.updatesOperand && o.mnemonic == w

/-- The cell that a quad has for its result: operators, accesses to arrays and special functions
have one, copies, increments and decrements write to those of variables. -/
def target? : Quad → Option Int
  | [.word w, _, _, .num a] => if (BinOp.ofSymbol? w).isSome ∨ w = "ACCESS" then some a else none
  | [.word w, _, .num a] => if isSign w then some a else none
  | [.word w, .num a] => if (Special.signature? w).isSome then some a else none
  | _ => none

/-- Quads that start with this word have no cell for a result. -/
def IsIdle (w : String) : Prop :=
  BinOp.ofSymbol? w = none ∧ w ≠ "ACCESS" ∧ isSign w = false ∧ Special.signature? w = none

instance (w : String) : Decidable (IsIdle w) :=
  inferInstanceAs (Decidable (_ ∧ _ ∧ _ ∧ _))

theorem target?_eq_none (h : IsIdle w) (fs : List Field) : target? (.word w :: fs) = none := by
  obtain ⟨h₁, h₂, h₃, h₄⟩ := h
  unfold target?
  split <;> simp_all

theorem isSign_mnemonic {o : UnOp} (h : o.updatesOperand = false) : isSign o.mnemonic = true := by
  cases o with
  | increment | decrement => cases h
  | plus | minus | not => decide

theorem isIdle_mnemonic {o : UnOp} (h : o.updatesOperand = true) : IsIdle o.mnemonic := by
  cases o with
  | increment | decrement => decide
  | plus | minus | not => cases h

theorem isFinal_of_target? (h : q.target? = some a) :
    ∃ w fs, q = .word w :: fs ∧ Compiler.IsFinal w ∧ w ≠ "GOSUB" := by
  obtain ⟨w, fs, rfl⟩ : ∃ w fs, q = .word w :: fs := by
    unfold target? at h
    split at h
    · exact ⟨_, _, rfl⟩
    · exact ⟨_, _, rfl⟩
    · exact ⟨_, _, rfl⟩
    · cases h
  refine ⟨w, fs, rfl, ⟨?_, ?_, ?_⟩, ?_⟩ <;>
    (rintro rfl; rw [target?_eq_none (by decide)] at h; cases h)

end Quad

/-! ## Labelled reservations -/

/-- Reservations with the objects that they were made for. -/
abbrev History := List (Object × Reservation)

namespace History

def counters (log : History) : Counters :=
  Counters.after (log.map Prod.snd)

/-- A block was reserved for an object. -/
def Has (log : History) (o : Object) (t : Ty) (b : AddressBlock) : Prop :=
  ∃ before r later, log = before ++ (o, r) :: later ∧ r.ty = t ∧
    b = ⟨r.sector, (counters before).next r.sector t, r.size⟩

variable {o : Object}

theorem counters_append (log : History) (o : Object) (r : Reservation) :
    counters (log ++ [(o, r)]) = log.counters.reserve r := by
  rw [counters, List.map_append, List.map_singleton, Counters.after_append, counters]

theorem Has.append (h : log.Has o t b) (more : History) : Has (log ++ more) o t b := by
  obtain ⟨before, r, later, rfl, ht, hb⟩ := h
  exact ⟨before, r, later ++ more, by simp, ht, hb⟩

theorem has_last (log : History) (o : Object) (s : Sector) (t : Ty) (n : Int) :
    Has (log ++ [(o, ⟨s, t, n, false⟩)]) o t ⟨s, log.counters.next s t, n⟩ :=
  ⟨log, _, [], rfl, rfl, rfl⟩

theorem roomy_split {before later : History} {r : Reservation}
    (h : Roomy ((before ++ (o, r) :: later).map Prod.snd)) :
    Roomy (before.map Prod.snd ++ r :: later.map Prod.snd) := by
  simpa using h

/-- The cells of a block are in the region of its sector and type. -/
theorem Has.locate (h : log.Has o t b) (hr : Roomy (log.map Prod.snd)) (ha : a ∈ b.cells) :
    Sector.locate? a = some (b.sector, t) := by
  obtain ⟨before, r, later, rfl, rfl, rfl⟩ := h
  obtain ⟨hlo, hhi⟩ := AddressBlock.mem_cells.1 ha
  exact (roomy_split hr).locate hlo hhi

theorem Has.card (h : log.Has o t b) (hr : Roomy (log.map Prod.snd)) :
    (b.cells.card : Int) = b.size := by
  obtain ⟨before, r, later, rfl, rfl, rfl⟩ := h
  have hsize := hr.sizes r (by simp)
  rw [AddressBlock.card_cells]
  exact Int.toNat_of_nonneg hsize

/-- Objects that share a cell are the same. -/
theorem Has.eq_of_mem {o' : Object} {t' : Ty} {b' : AddressBlock} (h : log.Has o t b)
    (h' : log.Has o' t' b') (hr : Roomy (log.map Prod.snd)) (ha : a ∈ b.cells)
    (ha' : a ∈ b'.cells) :
    o = o' := by
  obtain ⟨before, r, later, rfl, rfl, rfl⟩ := h
  obtain ⟨before', r', later', heq, rfl, rfl⟩ := h'
  obtain ⟨hlo, hhi⟩ := AddressBlock.mem_cells.1 ha
  obtain ⟨hlo', hhi'⟩ := AddressBlock.mem_cells.1 ha'
  have hmap : (before ++ (o, r) :: later).map Prod.snd =
      before.map Prod.snd ++ r :: later.map Prod.snd := by
    simp
  have hmap' : (before ++ (o, r) :: later).map Prod.snd =
      before'.map Prod.snd ++ r' :: later'.map Prod.snd := by simp [heq]
  obtain ⟨hbefore, -⟩ := hr.eq_of_mem hmap hmap' hlo hhi hlo' hhi'
  have hlength : before.length = before'.length := by simpa using congrArg List.length hbefore
  exact (Prod.mk.inj (List.cons.inj (List.append_inj heq hlength).2).1).1

end History

namespace Compiler

open Quad History

/-- The result of a call is copied to a cell by the quad at an index, now or once it is known where
it is. -/
def ResultAt (c : Compiler) (j : Nat) (a : Int) : Prop :=
  (∃ x, c.quads[j]? = some [.word "=", x, .num a] ∧ ∀ y ∈ c.selfCalls, y.1 ≠ j) ∨
    (j, a) ∈ c.selfCalls

/-- Every reservation was made for an object: what the compiler knows about objects agrees with the
history. The sectors of results are told by the calls. -/
structure Accounts (S : Nat → Sector → Prop) (log : History) (c : Compiler) : Prop where
  counters : c.counters = log.counters
  sizes : ∀ x ∈ log, 0 ≤ x.2.size
  declared : ∀ {s : Scope} {f : Function} {v : Variable}, c.function? s = some f → v ∈ f.declared →
    ∃ t, v.ty? = some t ∧
      log.Has (.variable s v.name) t ⟨variableSector (s == none), v.address, v.size⟩
  constants : ∀ {t : Ty} {i : Nat} {x : Value × Int}, (c.constants.get t)[i]? = some x →
    log.Has (.constant t i) t ⟨.constants, x.2, 1⟩
  temporals : ∀ {k : Nat} {q : Quad} {a : Int}, c.quads[k]? = some q → q.target? = some a →
    ∃ t, log.Has (.temporal k) t ⟨.temporals, a, 1⟩
  known : ∀ {k : Nat} {name : String}, c.quads[k]? = some [.word "GOSUB", .word name] →
    ∃ f, c.function? (some name) = some f
  results : ∀ {k : Nat} {name : String} {f : Function} {d : Kind},
    c.quads[k]? = some [.word "GOSUB", .word name] → c.function? (some name) = some f →
    f.result = some d → ∃ s t a, d.ty? = some t ∧ S k s ∧ log.Has (.result k) t ⟨s, a, 1⟩ ∧
      c.ResultAt (k + 1) a

variable {c c' : Compiler} {S S' : Nat → Sector → Prop}

theorem SelfCopies.lt (h : SelfCopies c) {y : Nat × Int} (hy : y ∈ c.selfCalls) :
    y.1 < c.quads.size := by
  obtain ⟨places, hq, -⟩ := h.copies y hy
  exact (Array.getElem?_eq_some_iff.1 hq).1

theorem getElem?_of_emit {q' : Quad} (h : (c.emit q).quads[k]? = some q') :
    c.quads[k]? = some q' ∨ k = c.quads.size ∧ q' = q := by
  rcases Nat.lt_or_ge k c.quads.size with hk | hk
  · rw [emit, Array.getElem?_push_lt hk] at h
    exact .inl (by rw [Array.getElem?_eq_getElem hk, ← h])
  · have := (Array.getElem?_eq_some_iff.1 h).1
    rw [emit, Array.size_push] at this
    exact .inr ⟨by omega, eq_of_getElem?_push hk h⟩

theorem ResultAt.emit (h : c.ResultAt j a) (q : Quad) : (c.emit q).ResultAt j a := by
  rcases h with ⟨x, hx, hne⟩ | hmem
  · exact .inl ⟨x, getElem?_of_append Array.toList_push hx, hne⟩
  · exact .inr hmem

namespace Accounts

theorem mono (h : Accounts S log c) (hS : ∀ k s, k < c.quads.size → S k s → S' k s) :
    Accounts S' log c :=
  { h with
    results := fun hq hf hres => by
      obtain ⟨s, t, a, ht, hs, hlog, hat⟩ := h.results hq hf hres
      exact ⟨s, t, a, ht, hS _ s (Array.getElem?_eq_some_iff.1 hq).1 hs, hlog, hat⟩ }

/-- What else the compiler holds does not matter. -/
theorem same (h : Accounts S log c) (hcounters : c'.counters = c.counters)
    (hfunctions : c'.functions = c.functions) (hconstants : c'.constants = c.constants)
    (hquads : c'.quads = c.quads) (hself : c'.selfCalls = c.selfCalls) : Accounts S log c' := by
  obtain ⟨_, _, _, _, _, _, _, _, _, _, _, _, _, _, _⟩ := c'
  subst hcounters hfunctions hconstants hquads hself
  exact { h with }

/-- Cells are reserved for an object. -/
theorem reserve (h : Accounts S log c) (o : Object) (s : Sector) (t : Ty) {n : Int} (hn : 0 ≤ n) :
    Accounts S (log ++ [(o, ⟨s, t, n, false⟩)]) (c.reserve s t n) where
  counters := by
    rw [counters_append, ← h.counters]
    rfl
  sizes := by
    intro x hx
    rcases List.mem_append.1 hx with hx | hx
    · exact h.sizes x hx
    · rw [List.mem_singleton.1 hx]
      exact hn
  declared hf hv := by
    obtain ⟨t, ht, hlog⟩ := h.declared hf hv
    exact ⟨t, ht, hlog.append _⟩
  constants hx := (h.constants hx).append _
  temporals hq ha := by
    obtain ⟨t, hlog⟩ := h.temporals hq ha
    exact ⟨t, hlog.append _⟩
  known := h.known
  results hq hf hres := by
    obtain ⟨s, t, a, ht, hs, hlog, hat⟩ := h.results hq hf hres
    exact ⟨s, t, a, ht, hs, hlog.append _, hat⟩

/-- The block of the object that cells have just been reserved for. -/
theorem has_reserved (h : Accounts S log c) (o : Object) (s : Sector) (t : Ty) (n : Int) :
    Has (log ++ [(o, ⟨s, t, n, false⟩)]) o t ⟨s, c.next s t, n⟩ := by
  have := has_last log o s t n
  rwa [← h.counters] at this

/-- A quad is emitted that makes no call, after a cell has been reserved for its result if it has
one. -/
theorem emit (h : Accounts S log c) (hcall : ∀ fs, q ≠ .word "GOSUB" :: fs)
    (hq : ∀ a, q.target? = some a → ∃ t, log.Has (.temporal c.quads.size) t ⟨.temporals, a, 1⟩) :
    Accounts S log (c.emit q) :=
  { h with
    temporals := fun hq' ha => by
      rcases getElem?_of_emit hq' with hq' | ⟨rfl, rfl⟩
      · exact h.temporals hq' ha
      · exact hq _ ha
    known := fun hq' => by
      rcases getElem?_of_emit hq' with hq' | ⟨rfl, rfl⟩
      · exact h.known hq'
      · exact absurd rfl (hcall _)
    results := fun hq' hf hres => by
      rcases getElem?_of_emit hq' with hq' | ⟨rfl, rfl⟩
      · obtain ⟨s, t, a, ht, hs, hlog, hat⟩ := h.results hq' hf hres
        exact ⟨s, t, a, ht, hs, hlog, hat.emit q⟩
      · exact absurd rfl (hcall _) }

theorem emit_idle (h : Accounts S log c) (hw : IsIdle w) (hcall : w ≠ "GOSUB") :
    Accounts S log (c.emit (.word w :: fs)) := by
  refine h.emit (fun gs hq => hcall ?_) fun a ha => ?_
  · simpa using (List.cons.inj hq).1
  · rw [target?_eq_none hw] at ha
    cases ha

/-- A quad is emitted with a new cell for its result. -/
theorem emit_target (h : Accounts S log c) (hq : q.target? = some (c.next .temporals t)) :
    Accounts S (log ++ [(.temporal c.quads.size, ⟨.temporals, t, 1, false⟩)])
      ((c.reserve .temporals t 1).emit q) := by
  refine (h.reserve _ .temporals t (by decide)).emit ?_ fun a ha => ?_
  · rintro fs rfl
    rw [target?_eq_none (by decide)] at hq
    cases hq
  · obtain rfl : c.next .temporals t = a := Option.some.inj (hq.symm.trans ha)
    exact ⟨t, h.has_reserved _ .temporals t 1⟩

theorem emitAll_passing (h : Accounts S log c) (i : Nat) (xs : List Operand) :
    Accounts S log (c.emitAll (passing i xs)) := by
  induction xs generalizing i c with
  | nil =>
    have : c.emitAll (passing i []) = c := by simp [passing, Compiler.emitAll]
    rwa [this]
  | cons x xs ih =>
    rw [passing, Compile.emitAll_cons]
    exact ih (h.emit_idle (by decide) (by decide)) (i + 1)

theorem point (h : Accounts S log c) (base n : Int) (t : Ty) (index : Field) :
    ∃ more, Accounts S (log ++ more) (c.point base n t index) := by
  have h₁ : Accounts S log (c.emit [.word "VER", index, .num 0, .num n]) :=
    h.emit_idle (by decide) (by decide)
  exact ⟨_, h₁.emit_target (t := t) rfl⟩

theorem newConstant (h : Accounts S log c) (t : Ty) (v : Value) :
    Accounts S (log ++ [(.constant t (c.constants.get t).length, ⟨.constants, t, 1, false⟩)])
      { c.reserve .constants t 1 with
        constants := c.constants.set t (c.constants.get t ++ [(v, c.next .constants t)]) } :=
  { h.reserve (.constant t (c.constants.get t).length) .constants t (by decide) with
    constants := fun {u i x} hx => by
      by_cases hu : u = t
      · subst hu
        rw [PerTy.get_set_self] at hx
        rcases Nat.lt_or_ge i (c.constants.get u).length with hi | hi
        · rw [List.getElem?_append_left hi] at hx
          exact (h.constants hx).append _
        · have hlen := (List.getElem?_eq_some_iff.1 hx).1
          rw [List.length_append, List.length_singleton] at hlen
          obtain rfl : i = (c.constants.get u).length := by omega
          obtain rfl : (v, c.next .constants u) = x := by simpa using hx
          exact h.has_reserved _ .constants u 1
      · rw [PerTy.get_set_of_ne _ _ hu] at hx
        exact (h.constants hx).append _ }

/-- The current function changes, but neither the type of its result nor, unless some are forgotten,
its variables. -/
theorem updateCurrent (h : Accounts S log c) {change : Function → Function}
    (hname : ∀ f, (change f).name = f.name) (hresult : ∀ f, (change f).result = f.result)
    (hdeclared : ∀ f, ∀ v ∈ (change f).declared, v ∈ f.declared) :
    Accounts S log (c.updateCurrent change) := by
  have hf : ∀ {s f'}, (c.updateCurrent change).function? s = some f' →
      ∃ f, c.function? s = some f ∧ f'.result = f.result ∧ ∀ v ∈ f'.declared, v ∈ f.declared := by
    intro s f' hf'
    rw [function?_of_update rfl hname] at hf'
    obtain ⟨f, hf, rfl⟩ := Option.map_eq_some_iff.1 hf'
    refine ⟨f, hf, ?_, ?_⟩
    · split
      · exact hresult f
      · rfl
    · split
      · exact hdeclared f
      · exact fun v hv => hv
  exact { h with
    declared := fun hf' hv => by
      obtain ⟨f, hf, -, hdecl⟩ := hf hf'
      exact h.declared hf (hdecl _ hv)
    known := fun hq => by
      obtain ⟨f, hf⟩ := h.known hq
      exact ⟨_, by rw [function?_of_update rfl hname, hf, Option.map_some]⟩
    results := fun hq hf' hres => by
      obtain ⟨f, hf, hresult, -⟩ := hf hf'
      exact h.results hq hf (hresult ▸ hres) }

theorem addVariable (h : Accounts S log c) {v : Variable} (hv : v.ty? = some t)
    (hlog : log.Has (.variable c.scope v.name) t
      ⟨variableSector (c.scope == none), v.address, v.size⟩) :
    Accounts S log (c.addVariable v) := by
  have hupdate : ∀ s, (c.addVariable v).function? s = (c.function? s).map fun f =>
      if f.name = c.scope then { f with declared := f.declared ++ [v] } else f :=
    function?_of_update rfl fun _ => rfl
  exact { h with
    declared := fun {s f' w} hf' hw => by
      rw [hupdate] at hf'
      obtain ⟨f, hf, rfl⟩ := Option.map_eq_some_iff.1 hf'
      split at hw
      case isTrue hscope =>
        rcases List.mem_append.1 hw with hw | hw
        · exact h.declared hf hw
        · obtain rfl := List.mem_singleton.1 hw
          obtain rfl : c.scope = s := hscope.symm.trans (name_of_function? hf)
          exact ⟨t, hv, hlog⟩
      case isFalse => exact h.declared hf hw
    known := fun hq => by
      obtain ⟨f, hf⟩ := h.known hq
      exact ⟨_, by rw [hupdate, hf, Option.map_some]⟩
    results := fun hq hf' hres => by
      rw [hupdate] at hf'
      obtain ⟨f, hf, rfl⟩ := Option.map_eq_some_iff.1 hf'
      refine h.results hq hf ?_
      split at hres <;> exact hres }

theorem define (h : Accounts S log c) (result : Option Ty) (hnew : c.function? (some name) = none) :
    Accounts S log (c.define result name) := by
  have hfunction : ∀ {s f}, (c.define result name).function? s = some f →
      c.function? s = some f ∨ s = some name ∧ f.declared = [] := by
    intro s f hf
    rw [function?, Compiler.define, List.find?_append] at hf
    rcases Option.or_eq_some_iff.1 hf with hf | ⟨-, hf⟩
    · exact .inl hf
    · rw [List.find?_singleton] at hf
      split at hf
      case isTrue hname =>
        obtain rfl := Option.some.inj hf
        exact .inr ⟨(beq_iff_eq.1 hname).symm, rfl⟩
      case isFalse => cases hf
  exact { h with
    declared := fun hf hv => by
      rcases hfunction hf with hf | ⟨-, hnil⟩
      · exact h.declared hf hv
      · simp [hnil] at hv
    known := fun hq => by
      obtain ⟨f, hf⟩ := h.known hq
      exact ⟨f, by rw [function?, Compiler.define, List.find?_append, ← function?, hf]; rfl⟩
    results := fun hq hf hres => by
      rcases hfunction hf with hf | ⟨hname, -⟩
      · exact h.results hq hf hres
      · obtain ⟨g, hg⟩ := h.known hq
        rw [hname, hnew] at hg
        cases hg }

/-- Jumps and copies are completed. -/
theorem completeAll (h : Accounts S log c) {ps : List (Nat × List Field)}
    (hps : ∀ p ∈ ps, ∃ w fs, c.quads[p.1]? = some (.word w :: fs) ∧ ¬IsFinal w ∧
      (w = "=" → ∃ y ∈ c.selfCalls, y.1 = p.1)) : Accounts S log (c.completeAll ps) := by
  have hother : ∀ {k : Nat}, (∀ p ∈ ps, p.1 ≠ k) → (c.completeAll ps).quads[k]? = c.quads[k]? :=
    getElem?_completeAll_of_not_mem
  have hfinal : ∀ {k : Nat} {w : String} {fs : List Field}, IsFinal w →
      (c.completeAll ps).quads[k]? = some (.word w :: fs) → c.quads[k]? = some (.word w :: fs) := by
    intro k w fs hw hq
    rwa [hother] at hq
    rintro p hp rfl
    obtain ⟨w', fs', hq', hw', -⟩ := hps p hp
    obtain ⟨gs, hgs⟩ := grown_completeAll ps hq'
    obtain rfl : w' = w := by simpa using (List.cons.inj (Option.some.inj (hgs.symm.trans hq))).1
    exact hw' hw
  rw [completeAll_eq]
  exact { h with
    temporals := fun hq ha => by
      obtain ⟨w, fs, rfl, hw, -⟩ := isFinal_of_target? ha
      exact h.temporals (hfinal hw hq) ha
    known := fun hq => h.known (hfinal (by decide) hq)
    results := fun hq hf hres => by
      obtain ⟨s, t, a, ht, hs, hlog, hat⟩ := h.results (hfinal (by decide) hq) hf hres
      refine ⟨s, t, a, ht, hs, hlog, ?_⟩
      rcases hat with ⟨x, hx, hne⟩ | hmem
      · refine .inl ⟨x, (hother fun p hp hpk => ?_).trans hx, hne⟩
        obtain ⟨w, fs, hq', hw, hcopy⟩ := hps p hp
        rw [hpk, hx] at hq'
        obtain rfl : "=" = w := by simpa using (List.cons.inj (Option.some.inj hq')).1
        obtain ⟨y, hy, hyp⟩ := hcopy rfl
        exact hne y hy (hyp.trans hpk)
      · exact .inr hmem }

/-- A call whose result is copied by the quad after it. -/
theorem call (h : Accounts S log c) {name : String} {f : Function} {d : Kind} {s : Sector} {t : Ty}
    {a : Int} (gs : List Field) (self : List (Nat × Int)) (hf : c.function? (some name) = some f)
    (hd : f.result = some d) (ht : d.ty? = some t) (hs : S c.quads.size s)
    (hlog : log.Has (.result c.quads.size) t ⟨s, a, 1⟩)
    (hself : ∀ y ∈ self, y ∈ c.selfCalls ∨ y.1 = c.quads.size + 1)
    (hmono : ∀ y ∈ c.selfCalls, y ∈ self)
    (hat : (({ c with selfCalls := self }.emit [.word "GOSUB", .word name]).emit
      (.word "=" :: gs)).ResultAt (c.quads.size + 1) a) :
    Accounts S log (({ c with selfCalls := self }.emit [.word "GOSUB", .word name]).emit
      (.word "=" :: gs)) := by
  -- A quad is an old one, the call, or the copy of its result.
  have hquad : ∀ {k : Nat} {q : Quad}, (({ c with selfCalls := self }.emit
      [.word "GOSUB", .word name]).emit (.word "=" :: gs)).quads[k]? = some q →
        c.quads[k]? = some q ∨
        k = c.quads.size ∧ q = [.word "GOSUB", .word name] ∨ q = .word "=" :: gs := by
    intro k q hq
    rcases getElem?_of_emit hq with hq | ⟨-, rfl⟩
    · rcases getElem?_of_emit hq with hq | ⟨rfl, rfl⟩
      · exact .inl hq
      · exact .inr (.inl ⟨rfl, rfl⟩)
    · exact .inr (.inr rfl)
  exact { h with
    temporals := fun hq ha => by
      rcases hquad hq with hq | ⟨-, rfl⟩ | rfl
      · exact h.temporals hq ha
      · rw [target?_eq_none (by decide)] at ha
        cases ha
      · rw [target?_eq_none (by decide)] at ha
        cases ha
    known := fun hq => by
      rcases hquad hq with hq | ⟨-, hq⟩ | hq
      · exact h.known hq
      · obtain rfl : _ = name := by simpa using hq
        exact ⟨f, hf⟩
      · simp at hq
    results := fun {k name' f' d'} hq hf' hres => by
      rcases hquad hq with hold | ⟨rfl, hcall⟩ | hcopy
      · obtain ⟨s, t, a, ht, hs, hlog, hat⟩ := h.results hold hf' hres
        refine ⟨s, t, a, ht, hs, hlog, ?_⟩
        rcases hat with ⟨x, hx, hne⟩ | hmem
        · -- Old copies are not the one that may be noted now.
          refine .inl ⟨x, ?_, fun y hy => ?_⟩
          · exact getElem?_of_append Array.toList_push (getElem?_of_append Array.toList_push hx)
          · rcases hself y hy with hy | hy
            · exact hne y hy
            · have := (Array.getElem?_eq_some_iff.1 hx).1
              omega
        · exact .inr (hmono _ hmem)
      · obtain rfl : name' = name := by simpa using hcall
        obtain rfl : f = f' := Option.some.inj (hf.symm.trans hf')
        obtain rfl : d = d' := Option.some.inj (hd.symm.trans hres)
        exact ⟨s, t, a, ht, hs, hlog, hat⟩
      · simp at hcopy }

/-- A call without a result. -/
theorem callVoid (h : Accounts S log c) {name : String} {f : Function}
    (hf : c.function? (some name) = some f) (hd : f.result = none) :
    Accounts S log (c.emit [.word "GOSUB", .word name]) :=
  { h with
    temporals := fun hq ha => by
      rcases getElem?_of_emit hq with hq | ⟨-, rfl⟩
      · exact h.temporals hq ha
      · rw [target?_eq_none (by decide)] at ha
        cases ha
    known := fun hq => by
      rcases getElem?_of_emit hq with hq | ⟨-, hq⟩
      · exact h.known hq
      · obtain rfl : _ = name := by simpa using hq
        exact ⟨f, hf⟩
    results := fun {k name' f' d'} hq hf' hres => by
      rcases getElem?_of_emit hq with hq | ⟨-, hcall⟩
      · obtain ⟨s, t, a, ht, hs, hlog, hat⟩ := h.results hq hf' hres
        exact ⟨s, t, a, ht, hs, hlog, hat.emit _⟩
      · obtain rfl : name' = name := by simpa using hcall
        rw [Option.some.inj (hf'.symm.trans hf), hd] at hres
        cases hres }

/-- A call of a function whose result has a place. -/
theorem callKnown (h : Accounts S log c) {name : String} {f : Function} {d : Kind} {s : Sector}
    {t : Ty} (hf : c.function? (some name) = some f) (hd : f.result = some d) (ht : d.ty? = some t)
    (hs : S c.quads.size s) (hself : ∀ y ∈ c.selfCalls, y.1 < c.quads.size) (place : Field) :
    Accounts S (log ++ [(.result c.quads.size, ⟨s, t, 1, false⟩)])
      (((c.reserve s t 1).emit [.word "GOSUB", .word name]).emit
        [.word "=", place, .num (c.next s t)]) := by
  refine (h.reserve (.result c.quads.size) s t (by decide)).call [place, .num (c.next s t)]
    c.selfCalls hf hd ht hs (h.has_reserved _ s t 1) (fun y hy => .inl hy) (fun y hy => hy)
    (.inl ⟨place, ?_, fun y hy => ?_⟩)
  · have hpush := @Array.getElem?_push_size Quad (c.quads.push [.word "GOSUB", .word name])
      [.word "=", place, .num (c.next s t)]
    rwa [Array.size_push] at hpush
  · exact Nat.ne_of_lt (Nat.lt_succ_of_lt (hself y hy))

/-- A call of a function whose result has no place yet. -/
theorem callSelf (h : Accounts S log c) {name : String} {f : Function} {d : Kind} {s : Sector}
    {t : Ty} (hf : c.function? (some name) = some f) (hd : f.result = some d) (ht : d.ty? = some t)
    (hs : S c.quads.size s) :
    Accounts S (log ++ [(.result c.quads.size, ⟨s, t, 1, false⟩)])
      (({ c.reserve s t 1 with
          selfCalls := c.selfCalls ++ [(c.quads.size + 1, c.next s t)] }.emit
        [.word "GOSUB", .word name]).emit [.word "="]) := by
  refine (h.reserve (.result c.quads.size) s t (by decide)).call [] _ hf hd
    ht hs (h.has_reserved _ s t 1) (fun y hy => ?_) (fun y hy => List.mem_append_left _ hy)
    (.inr (List.mem_append_right _ (List.mem_singleton.2 rfl)))
  rcases List.mem_append.1 hy with hy | hy
  · exact .inl hy
  · rw [List.mem_singleton.1 hy]
    exact .inr rfl

theorem more_none (h : Accounts S log c) : ∃ more, Accounts S (log ++ more) c :=
  ⟨[], by rwa [List.append_nil]⟩

end Accounts

theorem size_enterFunction_eq (name : Scope) (rest : List Scope) :
    (c.enterFunction name rest).quads.size =
      ({ c with called := rest }.emitAll (passing 1 c.arguments)).quads.size + 1 := by
  simp [enterFunction, emit]

theorem Operates.accounts {op : String} {l r o : Operand} (ho : Operates op l r c o c')
    (h : Accounts S log c) : ∃ more, Accounts S (log ++ more) c' := by
  cases ho with
  | @mk b lt rt t hl hr hb => exact ⟨_, h.emit_target (t := t) (by simp [target?, hb])⟩

theorem Folds.accounts {l o : Operand} {rest : List (Operand × String)} (hf : Folds l rest c o c')
    (h : Accounts S log c) : ∃ more, Accounts S (log ++ more) c' := by
  induction hf generalizing log with
  | nil => exact h.more_none
  | cons hop _ ih =>
    obtain ⟨more, h₁⟩ := hop.accounts h
    obtain ⟨more', h₂⟩ := ih h₁
    exact ⟨more ++ more', by rwa [← List.append_assoc]⟩

theorem Acts.accounts_quiet {e : Event} {N : Scope → Prop} {bs : List Int} (ha : Acts e c c')
    (he : e.isQuiet = true) (hp : Placed N rs bs c) (hself : SelfCopies c)
    (hS : ∀ w, e = .endCall w → ∀ k, c.quads.size ≤ k → S k (variableSector (c.scope == none)))
    (h : Accounts S log c) : ∃ more, Accounts S (log ++ more) c' := by
  -- The quads of a call come after those that hand over its arguments.
  have hle : ∀ rest, c.quads.size ≤
      ({ c with called := rest }.emitAll (passing 1 c.arguments)).quads.size := fun rest => by
    rw [size_emitAll]
    exact Nat.le_add_right _ _
  cases ha with
  | @newConstant _ t v =>
    have h₁ := h.newConstant t v
    exact ⟨_, { h₁ with }⟩
  | @useElement _ _ _ rest v _ n t =>
    have h₁ : Accounts S log { c with operands := rest } := { h with }
    obtain ⟨more, h₂⟩ := h₁.point v.address n t _
    exact ⟨more, { h₂ with }⟩
  | @assignVariable _ _ _ _ rest =>
    have h₁ : Accounts S log { c with operands := rest } := { h with }
    exact (h₁.emit_idle (by decide) (by decide)).more_none
  | @assignElement _ _ v _ _ rest _ n t =>
    have h₁ : Accounts S log { c with operands := rest, offset := none } := { h with }
    obtain ⟨more, h₂⟩ := h₁.point v.address n t _
    exact ⟨more, h₂.emit_idle (by decide) (by decide)⟩
  | @power _ _ _ _ _ rest _ hop =>
    have h₁ : Accounts S log { c with operands := rest } := { h with }
    obtain ⟨more, h₂⟩ := hop.accounts h₁
    exact ⟨more, { h₂ with }⟩
  | @fold _ _ o _ _ _ _ hfold =>
    have h₁ : Accounts S log { c with chained := o.symbol :: c.chained } := { h with }
    obtain ⟨more, h₂⟩ := hfold.accounts h₁
    exact ⟨more, { h₂ with }⟩
  | @update _ o x rest _ _ _ _ _ hupd =>
    have h₁ : Accounts S log { c with operands := rest } := { h with }
    have h₂ : Accounts S log ({ c with operands := rest }.emit [.word o.mnemonic, x.place,
        x.place]) :=
      h₁.emit_idle (isIdle_mnemonic hupd) (by cases o <;> decide)
    exact Accounts.more_none { h₂ with }
  | @unary _ o x rest _ u _ _ _ hupd =>
    have h₁ : Accounts S log { c with operands := rest } := { h with }
    have h₂ := h₁.emit_target (t := u)
        (q := [.word o.mnemonic, x.place, .num (c.next .temporals u)])
      (by simp only [target?, isSign_mnemonic hupd, if_true]; rfl)
    exact ⟨_, { h₂ with }⟩
  | @callVoid _ _ name rest f hcalled hf _ _ hres =>
    obtain ⟨w, rfl⟩ := Option.ne_none_iff_exists'.1 (hp.called name (by simp [hcalled]))
    have h₁ : Accounts S log { c with called := rest } := { h with }
    have h₂ := (h₁.emitAll_passing 1 c.arguments).callVoid hf hres
    exact Accounts.more_none { h₂ with }
  | @callKnown _ _ name rest f k t place hcalled hf _ _ hres hk hplace =>
    obtain ⟨w, rfl⟩ := Option.ne_none_iff_exists'.1 (hp.called name (by simp [hcalled]))
    have h₁ : Accounts S log { c with called := rest } := { h with }
    have h₂ := (h₁.emitAll_passing 1 c.arguments).callKnown hf hres hk (hS _ rfl _ (hle rest))
      (fun y hy => Nat.lt_of_lt_of_le (hself.lt hy) (hle rest)) place
    exact ⟨_, { h₂ with }⟩
  | @callSelf _ _ name rest f k t hcalled hf _ _ hres hk =>
    obtain ⟨w, rfl⟩ := Option.ne_none_iff_exists'.1 (hp.called name (by simp [hcalled]))
    have h₁ : Accounts S log { c with called := rest } := { h with }
    have h₂ := (h₁.emitAll_passing 1 c.arguments).callSelf hf hres hk (hS _ rfl _ (hle rest))
    rw [← size_enterFunction_eq (some w)] at h₂
    exact ⟨_, { h₂ with }⟩
  | @specialVoid _ _ name rest _ _ hs =>
    have h₁ : Accounts S log { c with called := rest } := { h with }
    have h₂ := (h₁.emitAll_passing 1 c.arguments).emit (q := [.word name])
      (by simp [Special.ne_call hs]) (by simp [target?])
    exact Accounts.more_none { h₂ with }
  | @specialValue _ _ name rest _ t _ hs =>
    have h₁ : Accounts S log { c with called := rest } := { h with }
    have h₂ := (h₁.emitAll_passing 1 c.arguments).emit_target (t := t)
      (q := [.word name, .num (c.next .temporals t)]) (by simp [target?, hs]; rfl)
    exact ⟨_, { h₂ with }⟩
  | oldConstant | dropSize | useVariable | selectElement | chain | beginCall | beginSpecial
  | argument =>
    exact Accounts.more_none { h with }
  | _ => cases he

/-! ## Declarations -/

theorem Declares.accounts {d : Declaration} (hd : Declares isGlobal d c c')
    (hscope : (c.scope == none) = isGlobal) (hsize : ∀ n ∈ sizesIn [d], 0 ≤ n)
    (h : Accounts S log c) : ∃ more, Accounts S (log ++ more) c' := by
  subst hscope
  cases hd with
  | @scalar t hextent _ ht =>
    have h₁ := h.reserve (.variable c.scope d.name) (variableSector (c.scope == none)) t (n := 1)
        (by decide)
    exact ⟨_, h₁.addVariable (v := ⟨d.kind, _, d.name, none⟩) ht (h.has_reserved _ _ t 1)⟩
  | @array t k n hextent _ _ ht =>
    have hn : 0 ≤ n := hsize n (by simp [sizesIn, hextent])
    have h₁ := h.reserve (.variable c.scope d.name) (variableSector (c.scope == none)) t hn
    exact ⟨_, h₁.addVariable (v := ⟨.array, _, d.name, some (d.kind, n)⟩) ht
      (h.has_reserved _ _ t n)⟩

theorem DeclaresStep.accounts {d : Declaration} (hd : DeclaresStep isGlobal d c c')
    (hsize : ∀ n ∈ sizesIn [d], 0 ≤ n)
    (h : (c.scope == none) = isGlobal ∧ ∃ more, Accounts S (log ++ more) c) :
    (c'.scope == none) = isGlobal ∧ ∃ more, Accounts S (log ++ more) c' := by
  obtain ⟨hscope, more, h⟩ := h
  refine ⟨by rwa [hd.tabulates.scope], ?_⟩
  cases hd with
  | one hd =>
    obtain ⟨more', h'⟩ := hd.accounts hscope hsize h
    exact ⟨more ++ more', by rwa [← List.append_assoc]⟩
  | kind | address =>
    exact ⟨more, h.updateCurrent (fun _ => rfl) (fun _ => rfl) fun _ _ hv => hv⟩

/-! ## Sectors of results -/

/-- A function ends after an index. -/
def EndsAfter (c : Compiler) (k : Nat) : Prop :=
  ∃ j name, k < j ∧ c.quads[j]? = some [.word "ENDPROC", .word name]

/-- The sector of the result of a call. -/
def CallSector (c : Compiler) : Position → Nat → Sector → Prop
  | .start, k, s | .between, k, s | .head, k, s => s = .locals ∧ c.EndsAfter k
  | .body, _, s => s = .locals
  | .main, k, s | .done, k, s => s = .locals ∧ c.EndsAfter k ∨ s = .globals ∧ ¬c.EndsAfter k

variable {e : Event} {p p' : Position}

/-- Only the end of a function emits a quad that ends one. -/
theorem Acts.endFunction_of_endproc (ha : Acts e c c') (hj : c.quads.size ≤ j)
    (hq : c'.quads[j]? = some (.word "ENDPROC" :: fs)) : e = .endFunction := by
  by_cases he : e.isQuiet = true
  · obtain ⟨qs, hqs, hplain⟩ := (ha.quiet he).quads
    obtain ⟨w, gs, heq, -, -, hne⟩ := Adds.of_getElem? ⟨qs, hqs, hplain⟩ hj hq
    exact absurd (Field.word.inj (List.cons.inj heq).1).symm hne
  · obtain ⟨q₀, gs, hmarks, heq, -⟩ := ha.exists_marks he hj hq
    cases hmarks with
    | endproc _ hend => exact hend
    | _ => simp at heq

theorem EndsAfter.acts {N : Scope → Prop} {bs : List Int} (ha : Acts e c c') (ht : c.Tidy e)
    (hp : Placed N rs bs c) (he : e ≠ .endFunction) : c'.EndsAfter k ↔ c.EndsAfter k := by
  have hr : TidyRuns [e] c c' := runs_singleton.2 ⟨ha, ht⟩
  constructor
  · rintro ⟨j, name, hkj, hq⟩
    have hj : j < c.quads.size := Nat.lt_of_not_le fun hj => he (ha.endFunction_of_endproc hj hq)
    exact ⟨j, name, hkj, hr.quad_before hp (by decide) hj hq⟩
  · rintro ⟨j, name, hkj, hq⟩
    exact ⟨j, name, hkj, hr.kept (by decide) hq⟩

theorem CallSector.congr {s : Sector} (h : c.CallSector p k s)
    (hends : c'.EndsAfter k ↔ c.EndsAfter k) : c'.CallSector p k s := by
  cases p <;> simpa only [CallSector, hends] using h

/-- The sector of a call stays what it is. -/
theorem Takes.callSector (h : Takes e p c p' c') {s : Sector} (hk : k < c.quads.size)
    (hs : c.CallSector p k s) : c'.CallSector p' k s := by
  obtain ⟨rs, bs, hp, -⟩ := h.placed
  have hends : e ≠ .endFunction → (c'.EndsAfter k ↔ c.EndsAfter k) :=
    EndsAfter.acts h.acts h.tidy hp
  cases h.admits with
  | size he => exact hs.congr (hends (by rintro rfl; simp [Position.IsSize] at he))
  | inner he => exact hs.congr (hends (by rintro rfl; cases he))
  | globals => exact hs.congr (p := .between) (hends (by simp))
  | define => exact hs.congr (p := .head) (hends (by simp))
  | locals => exact hs.1
  | enter => exact .inl (hs.congr (p := .between) (hends (by simp)))
  | finish => exact hs.congr (p := .done) (hends (by simp))
  | close =>
    refine ⟨hs, ?_⟩
    cases h.acts with
    | endFunction => exact ⟨c.quads.size, _, hk, Array.getElem?_push_size⟩

/-- New calls are in the sector of the part that they are made in. -/
theorem Takes.callSector_new (h : Takes (.endCall w) p c p' c') (hk : c.quads.size ≤ k) :
    c'.CallSector p' k (variableSector (c.scope == none)) := by
  obtain ⟨rs, bs, hp, -⟩ := h.placed
  have hends := EndsAfter.acts (k := k) h.acts h.tidy hp nofun
  have hat := h.isAt
  cases h.admits with
  | size he => simp [Position.IsSize] at he
  | inner he hpos =>
    rcases hpos with rfl | rfl
    · have hscope : c.scope ≠ none := hat.2 (.inr rfl)
      simp [CallSector, variableSector, hscope]
    · have hscope : c.scope = none := by
        by_contra hne
        simpa [Position.InFunction] using hat.1 hne
      refine .inr ⟨by simp [variableSector, hscope], ?_⟩
      rw [hends]
      rintro ⟨j, name, hkj, hq⟩
      have := (Array.getElem?_eq_some_iff.1 hq).1
      omega

/-- What waits has a jump at its place. -/
theorem WaitsAt.not_isFinal {i : Nat} (h : c.WaitsAt i) :
    ∃ w fs, c.quads[i]? = some (.word w :: fs) ∧ ¬IsFinal w ∧
      (w = "=" → ∃ y ∈ c.selfCalls, y.1 = i) := by
  obtain ⟨q, hq, rfl | ⟨x, rfl⟩⟩ := h
  · exact ⟨_, _, hq, by decide, fun h => by simp at h⟩
  · exact ⟨_, _, hq, by decide, fun h => by simp at h⟩

/-- Jumps that wait get a target. -/
theorem Accounts.jumpsTo (h : Accounts S log c) {is : List Nat} (hw : ∀ i ∈ is, c.WaitsAt i)
    (t : Int) : Accounts S log (c.completeAll (is.map (·, [.num t]))) := by
  refine h.completeAll fun x hx => ?_
  obtain ⟨i, hi, rfl⟩ := List.mem_map.1 hx
  exact (hw i hi).not_isFinal

/-- Statements that jump. -/
theorem Acts.accounts_jump (ha : Acts e c c') (ht : c.Tidy e) (he : e.isQuiet ≠ true)
    (hi : e.isInner = true) (hself : SelfCopies c) (h : Accounts S log c) : Accounts S log c' := by
  cases ha with
  | markLoop | leaveLoop => exact h.same rfl rfl rfl rfl rfl
  | breakLoop =>
    have h₁ : Accounts S log (c.emit [.word "GOTO"]) := h.emit_idle (by decide) (by decide)
    exact h₁.same rfl rfl rfl rfl rfl
  | @testIf _ x rest | @testLoop _ x rest =>
    have h₁ : Accounts S log (c.emit [.word "GOTOF", x.place]) :=
      h.emit_idle (by decide) (by decide)
    exact h₁.same rfl rfl rfl rfl rfl
  | @closeIf _ i rest hj =>
    have h₁ := h.jumpsTo (List.forall_mem_singleton.2 (ht i rest hj)) c.quads.size
    exact h₁.same rfl rfl rfl rfl rfl
  | @elseBranch _ i rest hj =>
    have h₁ : Accounts S log (c.emit [.word "GOTO"]) := h.emit_idle (by decide) (by decide)
    have h₂ := h₁.jumpsTo (List.forall_mem_singleton.2 ((ht i rest hj).emit _))
        (c.quads.size + 1 : Nat)
    exact h₂.same rfl rfl rfl rfl rfl
  | @closeLoop _ test condition rest hj =>
    have h₀ : Accounts S log { c with jumps := rest } := h.same rfl rfl rfl rfl rfl
    have h₁ : Accounts S log ({ c with jumps := rest }.emit [.word "GOTO", .num condition]) :=
      h₀.emit_idle (by decide) (by decide)
    have hw : ∀ i ∈ test :: c.breaks,
        ({ c with jumps := rest }.emit [.word "GOTO", .num condition]).WaitsAt i :=
      List.forall_mem_cons.2 ⟨(ht.1 _ _ hj).emit _, fun i hi => (ht.2 i hi).emit _⟩
    exact (h₁.jumpsTo hw (c.quads.size + 1 : Nat)).same rfl rfl rfl rfl rfl
  | @giveBack _ x rest =>
    have h₁ : Accounts S log (c.updateCurrent fun f => { f with returnPlace := some x.place }) :=
      h.updateCurrent (fun _ => rfl) (fun _ => rfl) fun _ _ hv => hv
    have h₂ : Accounts S log ({ c with operands := rest }.updateCurrent
        fun f => { f with returnPlace := some x.place }) := h₁.same rfl rfl rfl rfl rfl
    refine h₂.completeAll fun y hy => ?_
    obtain ⟨z, hz, rfl⟩ := List.mem_map.1 hy
    obtain ⟨places, hq, -⟩ := hself.copies z hz
    exact ⟨"=", _, hq, by decide, fun _ => ⟨z, hz, rfl⟩⟩
  | declareGlobals | declareLocals | finish | defineFunction | endFunction | enterMain => cases hi
  | _ => exact absurd rfl he

theorem Takes.accounts_of_not_inner (h : Takes e p c p' c') (he : e.isInner ≠ true)
    (hpos : ∀ n ∈ e.extents, 0 ≤ n) (hacc : Accounts S log c) :
    ∃ more, Accounts S (log ++ more) c' := by
  have hat := h.isAt
  have htidy := h.tidy
  have hacts := h.acts
  cases h.admits with
  | size hs => exact absurd (Event.isInner_of_isQuiet hs.isQuiet) he
  | inner hi => exact absurd hi he
  | globals =>
    cases hacts with
    | declareGlobals hv =>
      have hscope : c.scope = none := by
        by_contra hne
        simpa [Position.InFunction] using hat.1 hne
      have h₁ : Accounts S log (c.emit [.word "GOTO"]) := hacc.emit_idle (by decide) (by decide)
      have h₂ : Accounts S log (c.emit [.word "GOTO"]).markFirst :=
        h₁.updateCurrent (fun _ => rfl) (fun _ => rfl) fun _ _ hv => hv
      exact (hv.keeps (fun d hd _ _ hs => hs.accounts fun n hn => hpos n (mem_sizesIn hd hn))
        ⟨by simp [markFirst, updateCurrent, emit, hscope], h₂.more_none⟩).2
  | locals =>
    cases hacts with
    | declareLocals hps hvs =>
      have hscope : c.scope ≠ none := hat.2 (.inl rfl)
      have hfalse : (c.scope == none) = false := by cases hs : c.scope <;> simp_all
      rw [Event.extents, sizesIn, List.filterMap_append] at hpos
      obtain ⟨hps', hvs'⟩ := List.forall_mem_append.1 hpos
      have h₁ : Accounts S log c.markFirst :=
        hacc.updateCurrent (fun _ => rfl) (fun _ => rfl) fun _ _ hv => hv
      have h₂ := hps.keeps (fun d hd _ _ hs => hs.accounts fun n hn => hps' n (mem_sizesIn hd hn))
        ⟨hfalse, h₁.more_none⟩
      exact (hvs.keeps (fun d hd _ _ hs => hs.accounts fun n hn => hvs' n (mem_sizesIn hd hn)) h₂).2
  | define =>
    cases hacts with
    | defineFunction hnew => exact (hacc.define _ hnew).more_none
  | close =>
    cases hacts with
    | endFunction =>
      have h₁ : Accounts S log (c.updateCurrent fun f => { f with declared := [] }) :=
        hacc.updateCurrent (fun _ => rfl) (fun _ => rfl) fun _ _ hv => absurd hv List.not_mem_nil
      have h₂ : Accounts S log ((c.updateCurrent fun f => { f with declared := [] }).emit
        [.word "ENDPROC", .word c.current.name.text]) := h₁.emit_idle (by decide) (by decide)
      have h₃ : Accounts S log c.close := h₂.same rfl rfl rfl rfl rfl
      exact h₃.more_none
  | enter =>
    cases hacts with
    | enterMain =>
      have hw : ∀ i ∈ [0], c.WaitsAt i := List.forall_mem_singleton.2 htidy
      have h₁ : Accounts S log (c.complete 0 [.num c.quads.size]) := hacc.jumpsTo hw c.quads.size
      exact h₁.more_none
  | finish =>
    cases hacts with
    | finish =>
      have h₁ : Accounts S log { c with finished := true } := hacc.same rfl rfl rfl rfl rfl
      exact h₁.more_none

/-- Every event keeps the books. -/
theorem Takes.accounts (h : Takes e p c p' c') (hpos : ∀ n ∈ e.extents, 0 ≤ n)
    (hacc : Accounts (c.CallSector p) log c) :
    ∃ more, Accounts (c'.CallSector p') (log ++ more) c' := by
  have hacc' : Accounts (c'.CallSector p') log c := hacc.mono fun k s hk => h.callSector hk
  by_cases hinner : e.isInner = true
  · by_cases hquiet : e.isQuiet = true
    · obtain ⟨rs, bs, hp, -⟩ := h.placed
      refine h.acts.accounts_quiet hquiet hp h.copies (fun w hw k hk => ?_) hacc'
      subst hw
      exact h.callSector_new hk
    · exact (h.acts.accounts_jump h.tidy hquiet hinner h.copies hacc').more_none
  · exact h.accounts_of_not_inner hinner hpos hacc'

/-! ## Whole programs -/

/-- The variables of functions that have ended are in the history, though the compiler has forgotten
them. -/
def Recalls (xs : List Event) (log : History) : Prop :=
  ∀ before later d name v, xs = before ++ .endFunction :: later → Runs before {} d →
    d.scope = some name → v ∈ d.current.declared →
    ∃ t, v.ty? = some t ∧ log.Has (.variable (some name) v.name) t ⟨.locals, v.address, v.size⟩

theorem Accounts.current (h : Accounts S log c) (hscope : c.scope = some name) {v : Variable}
    (hv : v ∈ c.current.declared) :
    ∃ t, v.ty? = some t ∧ log.Has (.variable (some name) v.name) t
      ⟨.locals, v.address, v.size⟩ := by
  rw [Compiler.current, hscope] at hv
  cases hf : c.function? (some name) with
  | none => simp [hf, Function.opened] at hv
  | some f =>
    rw [hf, Option.getD_some] at hv
    exact h.declared hf hv

theorem Recalls.append {xs : List Event} (h : Recalls xs log) (hr : Runs xs {} c)
    (hacc : Accounts S log c) (e : Event) (more : History) : Recalls (xs ++ [e]) (log ++ more) := by
  intro before later d name v hsplit hd hscope hv
  rcases List.eq_nil_or_concat later with rfl | ⟨later, e', rfl⟩
  · obtain ⟨rfl, -⟩ := List.append_inj' hsplit rfl
    obtain rfl := hr.unique hd
    obtain ⟨t, ht, hlog⟩ := hacc.current hscope hv
    exact ⟨t, ht, hlog.append more⟩
  · rw [List.concat_eq_append, ← List.cons_append, ← List.append_assoc] at hsplit
    obtain ⟨rfl, -⟩ := List.append_inj' hsplit rfl
    obtain ⟨t, ht, hlog⟩ := h before later d name v rfl hd hscope hv
    exact ⟨t, ht, hlog.append more⟩

theorem accounts_empty (S : Nat → Sector → Prop) : Accounts S [] {} where
  counters := rfl
  sizes := nofun
  declared hf hv := by
    simp [function?, Function.opened] at hf
    simp [← hf.2] at hv
  constants hx := by simp [PerTy.get_ofFn] at hx
  temporals hq := by simp at hq
  known hq := by simp at hq
  results hq := by simp at hq

/-- A call is in a function if and only if it is before the main part. -/
theorem LaidOut.endsAfter_iff {rs : List Region} {main : Nat} (h : LaidOut rs main c)
    (hq : c.quads[k]? = some (.word "GOSUB" :: fs)) : c.EndsAfter k ↔ k < main := by
  constructor
  · rintro ⟨j, name, hkj, hj⟩
    by_contra hk
    exact Quad.StaysWithin.ne_endproc (h.stays j _ (by omega) hj)
  · intro hk
    have hpos : 0 < k := by
      refine Nat.pos_of_ne_zero ?_
      rintro rfl
      simp [h.first] at hq
    obtain ⟨r, hr, -, hstop⟩ := h.contiguous.exists_mem hpos hk
    have hends := (h.laid r hr).ends
    refine ⟨r.stop - 1, r.name, Nat.lt_of_le_of_ne (by omega) ?_, hends⟩
    rintro rfl
    simp [hends] at hq

/-- Where the result of a call goes, in code to which nothing is added any more. -/
theorem ResultAt.copied (hself : SelfCopies c) (howes : ¬c.OwesResult) (h : c.ResultAt j a) :
    ∃ x gs, c.quads[j]? = some (.word "=" :: x :: .num a :: gs) := by
  rcases h with ⟨x, hx, -⟩ | hmem
  · exact ⟨x, [], hx⟩
  · obtain ⟨x, places, hx⟩ := hself.filled howes hmem
    exact ⟨x, copyFields places a, hx⟩

theorem SelfCopies.not_owesResult (h : SelfCopies c) (hscope : c.scope = none) : ¬c.OwesResult := by
  rintro ⟨o, ho, hname, hres, -⟩
  exact hres (h.main o ho (hname.trans hscope))

end Compiler

open Compiler

/-- The books of a whole program. -/
theorem Tree.accounts {p : Tree} {c : Compiler} (hr : TidyRuns p.events {} c)
    (hpos : Event.Sized p.events) (hfits : c.Fits) :
    ∃ log, Accounts (c.CallSector .done) log c ∧ Recalls p.events log ∧ SelfCopies c ∧
      c.IsAt .done := by
  let I (xs : List Event) (q : Position) (d : Compiler) : Prop :=
    ∃ log, Accounts (d.CallSector q) log d ∧ Recalls xs log ∧ SelfCopies d ∧ d.IsAt q ∧ Runs xs {} d
  have hstart : I [] .start {} :=
    ⟨[], accounts_empty _, fun before later d name v h => by simp at h, selfCopies_empty,
      by simp [IsAt, Position.InFunction], .nil _⟩
  obtain ⟨log, hacc, hrecalls, hself, hat, -⟩ : I p.events .done c := by
    refine Tree.invariant hr hpos hfits hstart ?_
    rintro xs e q q' d d' he htakes ⟨log, hacc, hrecalls, hself, hat, hruns⟩
    obtain ⟨more, hacc'⟩ := htakes.accounts (hpos e he) hacc
    obtain ⟨rs, bs, hp, -⟩ := htakes.placed
    exact ⟨log ++ more, hacc', hrecalls.append hruns hacc e more,
      htakes.acts.selfCopies htakes.tidy hp hself, htakes.acts.isAt htakes.admits hat,
      runs_append.2 ⟨d, hruns, runs_singleton.2 htakes.acts⟩⟩
  exact ⟨log, hacc, hrecalls, hself, hat⟩

/-! ## Types of intermediate results -/

namespace Quad

/-- The type of the result of a quad, told by its operation and by the types of its operands. -/
inductive Gives : Quad → Ty → Prop
  | binary (o : BinOp) {l r d : Field} {lt rt t : Ty} :
      l.IsOf lt → r.IsOf rt → o.result? lt rt = some t → Gives [.word o.symbol, l, r, d] t
  | unary (o : UnOp) {x d : Field} {t u : Ty} :
      x.IsOf t → o.result? t = some u → Gives [.word o.mnemonic, x, d] u
  | special {name : String} {s : Special.Signature} {d : Field} {t : Ty} :
      Special.signature? name = some s → s.result = some t → Gives [.word name, d] t

/-- The cell of an intermediate result is of the type that the quad gives. Accesses to arrays are
different: they have a cell of the type of the elements. -/
theorem Typed.gives {K : String → List Kind → Prop} {T : Int → Prop} {args : List Field}
    (h : q.Typed K T args) (ha : q.target? = some a) :
    (∃ base x, q = [.word "ACCESS", base, x, .num a]) ∨ ∃ t, q.Gives t ∧ (Field.num a).IsOf t := by
  cases h with
  | @binary o l r d lt rt t hl hr ht hd =>
    obtain rfl : d = a := by simpa [target?, BinOp.ofSymbol?_symbol] using ha
    exact .inr ⟨t, .binary o hl hr ht, hd⟩
  | @unary o x d t u hx hu hd =>
    obtain rfl : d = .num a := by
      unfold target? at ha
      split at ha <;> simp_all
    exact .inr ⟨u, .unary o hx hu, hd⟩
  | @access x base d =>
    obtain rfl : d = .num a := by
      unfold target? at ha
      split at ha <;> simp_all
    exact .inl ⟨base, x, rfl⟩
  | @specialValue args name s t b hs ht _ hb =>
    obtain rfl : b = a := by simpa [target?, hs] using ha
    exact .inr ⟨t, .special hs ht, hb⟩
  | special => simp [target?] at ha
  | _ =>
    rw [target?_eq_none (by decide)] at ha
    cases ha

end Quad

/-- The elements of an array are where their type says. -/
theorem GivenArray.isOf {n b : Int} (h : GivenArray rs t n b) (hr : Roomy rs) (hn : 0 < n) :
    (Field.num b).IsOf t := by
  obtain ⟨-, rfl⟩ := h
  exact ⟨_, hr.locate (Int.le_refl _) (by simpa using hn)⟩

/-! ## Sources -/

namespace Compiled

/-- The block of an object of a source. Results of calls are global in the main part and local in
functions. -/
inductive Allots (line : Nat) (source : String) : Object → AddressBlock → Prop
  | ofMain {f : Function} {v : Variable} :
      (ofSource line source).state.function? none = some f → v ∈ f.declared →
      Allots line source (.variable none v.name) ⟨.globals, v.address, v.size⟩
  | ofFunction {name : String} {v : Variable} :
      Declares line source name v →
      Allots line source (.variable (some name) v.name) ⟨.locals, v.address, v.size⟩
  | constant {t : Ty} {i : Nat} {x : Value × Int} :
      ((ofSource line source).state.constants.get t)[i]? = some x →
      Allots line source (.constant t i) ⟨.constants, x.2, 1⟩
  | temporal {k : Nat} {q : Quad} {a : Int} :
      (ofSource line source).state.quads[k]? = some q → q.target? = some a →
      Allots line source (.temporal k) ⟨.temporals, a, 1⟩
  | result {k main : Nat} {name : String} {f : Function} {x : Field} {gs : List Field} {a : Int} :
      (ofSource line source).state.quads[0]? = some [.word "GOTO", .num main] →
      (ofSource line source).state.quads[k]? = some [.word "GOSUB", .word name] →
      (ofSource line source).state.function? (some name) = some f → f.result ≠ none →
      (ofSource line source).state.quads[k + 1]? = some (.word "=" :: x :: .num a :: gs) →
      Allots line source (.result k) ⟨if main ≤ k then .globals else .locals, a, 1⟩

/-- The type of an object of a source; for an array, and for the cell that holds the address of one
of its elements, that of the elements. -/
inductive HasType (line : Nat) (source : String) : Object → Ty → Prop
  | ofMain {f : Function} {v : Variable} {t : Ty} :
      (ofSource line source).state.function? none = some f → v ∈ f.declared → v.ty? = some t →
      HasType line source (.variable none v.name) t
  | ofFunction {name : String} {v : Variable} {t : Ty} :
      Declares line source name v → v.ty? = some t →
        HasType line source (.variable (some name) v.name) t
  | constant (t : Ty) (i : Nat) : HasType line source (.constant t i) t
  | temporal {k : Nat} {q : Quad} {t : Ty} :
      (ofSource line source).state.quads[k]? = some q → q.Gives t →
        HasType line source (.temporal k) t
  | pointer {k : Nat} {x y d : Field} {base n : Int} {t : Ty} :
      (ofSource line source).state.quads[k]? = some [.word "VER", x, .num 0, .num n] →
      (ofSource line source).state.quads[k + 1]? = some [.word "ACCESS", .num base, y, d] →
      (0 < n → (Field.num base).IsOf t) → HasType line source (.temporal (k + 1)) t
  | result {k : Nat} {name : String} {f : Function} {d : Kind} {t : Ty} :
      (ofSource line source).state.quads[k]? = some [.word "GOSUB", .word name] →
      (ofSource line source).state.function? (some name) = some f → f.result = some d →
        d.ty? = some t →
      HasType line source (.result k) t

variable {line : Nat} {source : String}

/-- What is known about an accepted source at its end, with the history of its reservations. -/
structure Booked (line : Nat) (source : String) (log : History) : Prop where
  accounts : Accounts ((ofSource line source).state.CallSector .done) log
    (ofSource line source).state
  recalls : Recalls (Trace.ofSource line source).events log
  roomy : Roomy (log.map Prod.snd)
  copies : SelfCopies (ofSource line source).state
  main : (ofSource line source).state.scope = none
  laidOut : ∃ rs start, (ofSource line source).state.LaidOut rs start
  typed : (ofSource line source).state.IsTyped .done
  placed : ∃ rs bs, Placed (fun _ => True) rs bs (ofSource line source).state ∧ Roomy rs

theorem exists_booked (h : (ofSource line source).rejection = none) (hroom : HasRoom line source) :
    ∃ log, Booked line source log := by
  obtain ⟨tree, htree, hruns⟩ := exists_runs h
  obtain ⟨htidy, rs, start, hlaid, -⟩ := tree.laidOut hruns
  have hpos : Event.Sized tree.events := htree ▸ hroom.sizes
  obtain ⟨log, hacc, hrecalls, hself, hat⟩ := tree.accounts htidy hpos hroom.fits
  have hempty : Reached (fun _ => True) [] {} := .empty trivial
  obtain ⟨ss, hreached⟩ := hempty.runs htidy trivial (fun _ _ _ => trivial) hpos
  refine ⟨log, hacc, htree ▸ hrecalls, ⟨?_, ?_⟩, hself, ?_, ⟨rs, start, hlaid⟩,
    tree.typed htidy hpos hroom.fits, ?_⟩
  · intro r hr
    obtain ⟨x, hx, rfl⟩ := List.mem_map.1 hr
    exact hacc.sizes x hx
  · intro s t
    have hfits := hroom.fits s t
    rwa [hacc.counters] at hfits
  · by_contra hscope
    simpa [Position.InFunction] using hat.1 hscope
  · have hr := hreached.roomy hroom.fits
    obtain ⟨⟨bs, hp, -⟩, -⟩ := hreached
    exact ⟨_, bs, hp, hr⟩

namespace Booked

theorem has_temporal (h : Booked line source log)
    (hq : (ofSource line source).state.quads[k]? = some q) (ha : q.target? = some a) :
    ∃ t, log.Has (.temporal k) t ⟨.temporals, a, 1⟩ ∧ HasType line source (.temporal k) t := by
  obtain ⟨t, hlog⟩ := h.accounts.temporals hq ha
  have hcell : (Field.num a).IsOf t := ⟨_, hlog.locate h.roomy (by simp [AddressBlock.mem_cells])⟩
  refine ⟨t, hlog, ?_⟩
  rcases (h.typed.code.quads k q hq).gives ha with ⟨base, x, rfl⟩ | ⟨u, hgives, hu⟩
  · obtain ⟨rs, bs, hp, hr⟩ := h.placed
    obtain ⟨j, y, u, n, b, before, later, rfl, hver, rfl, harray, -, hfs⟩ :=
      (hp.quads _ _ hq).of_access
    obtain ⟨rfl, rfl, hd⟩ : base = .num b ∧ x = y ∧
        Field.num a = .num ((Counters.after before).next .temporals u) := by
      simpa using hfs
    have hpointer : (Field.num a).IsOf u := by
      rw [hd]
      exact ⟨_, hr.locate (Int.le_refl _) (Int.lt_add_one_of_le (Int.le_refl _))⟩
    obtain rfl := hcell.unique hpointer
    exact .pointer hver hq (harray.isOf hr.of_append)
  · obtain rfl := hcell.unique hu
    exact .temporal hq hgives

/-- The result of a call of a function that has one. -/
theorem has_result (h : Booked line source log) {main : Nat} {f : Function}
    (hmain : (ofSource line source).state.quads[0]? = some [.word "GOTO", .num main])
    (hq : (ofSource line source).state.quads[k]? = some [.word "GOSUB", .word name])
    (hf : (ofSource line source).state.function? (some name) = some f) (hres : f.result ≠ none) :
    ∃ t a x gs, log.Has (.result k) t ⟨if main ≤ k then .globals else .locals, a, 1⟩ ∧
      HasType line source (.result k) t ∧
      (ofSource line source).state.quads[k + 1]? = some (.word "=" :: x :: .num a :: gs) := by
  obtain ⟨d, hd⟩ := Option.ne_none_iff_exists'.1 hres
  obtain ⟨s, t, a, ht, hs, hlog, hat⟩ := h.accounts.results hq hf hd
  obtain ⟨x, gs, hcopy⟩ := hat.copied h.copies (h.copies.not_owesResult h.main)
  obtain ⟨rs, start, hlaid⟩ := h.laidOut
  obtain rfl : start = main := by simpa using hlaid.first.symm.trans hmain
  have hsector : (if start ≤ k then .globals else .locals) = s := by
    rcases hs with ⟨rfl, hends⟩ | ⟨rfl, hends⟩
    · rw [if_neg (Nat.not_le_of_lt ((hlaid.endsAfter_iff hq).1 hends))]
    · rw [if_pos (Nat.le_of_not_lt fun hlt => hends ((hlaid.endsAfter_iff hq).2 hlt))]
  rw [hsector]
  exact ⟨t, a, x, gs, hlog, .result hq hf hd ht, hcopy⟩

/-- The block of an object was reserved for it, with the type of the object. -/
theorem has (h : Booked line source log) {o : Object} (ho : Allots line source o b) :
    ∃ t, log.Has o t b ∧ HasType line source o t := by
  cases ho with
  | ofMain hf hv =>
    obtain ⟨t, ht, hlog⟩ := h.accounts.declared hf hv
    exact ⟨t, hlog, .ofMain hf hv ht⟩
  | ofFunction hv =>
    obtain ⟨before, later, c, hsplit, hruns, hscope, hmem⟩ := id hv
    obtain ⟨t, ht, hlog⟩ := h.recalls before later c _ _ hsplit hruns hscope hmem
    exact ⟨t, hlog, .ofFunction hv ht⟩
  | constant hx => exact ⟨_, h.accounts.constants hx, .constant _ _⟩
  | temporal hq ha => exact h.has_temporal hq ha
  | @result k main name f x gs a hmain hq hf hres hcopy =>
    obtain ⟨t, a', x', gs', hlog, ht, hcopy'⟩ := h.has_result hmain hq hf hres
    obtain ⟨-, rfl, -⟩ : x' = x ∧ a' = a ∧ gs' = gs := by simpa using hcopy'.symm.trans hcopy
    exact ⟨t, hlog, ht⟩

end Booked

/-- Different objects have no cell in common, and their blocks are as large as they are and in the
region of their sector and type. -/
def KeepsApart (line : Nat) (source : String) : Prop :=
  (∀ o b, Allots line source o b → (b.cells.card : Int) = b.size ∧
    ∃ t, HasType line source o t ∧ ∀ a ∈ b.cells, Sector.locate? a = some (b.sector, t)) ∧
  (∀ o b o' b', Allots line source o b → Allots line source o' b' → o ≠ o' →
    Disjoint b.cells b'.cells) ∧
  ∀ k name f, (ofSource line source).state.quads[k]? = some [.word "GOSUB", .word name] →
    (ofSource line source).state.function? (some name) = some f → f.result ≠ none →
    ∃ b, Allots line source (.result k) b

/-- If no array has a negative size and no region is used up, no two objects share memory. -/
theorem blocks_disjoint (h : (ofSource line source).rejection = none)
    (hroom : HasRoom line source) :
    KeepsApart line source := by
  obtain ⟨log, hbooked⟩ := exists_booked h hroom
  refine ⟨fun o b ho => ?_, fun o b o' b' ho ho' hne => ?_, fun k name f hq hf hres => ?_⟩
  · obtain ⟨t, hlog, ht⟩ := hbooked.has ho
    exact ⟨hlog.card hbooked.roomy, t, ht, fun a => hlog.locate hbooked.roomy⟩
  · obtain ⟨t, hlog, -⟩ := hbooked.has ho
    obtain ⟨t', hlog', -⟩ := hbooked.has ho'
    rw [Finset.disjoint_left]
    intro a ha ha'
    exact hne (hlog.eq_of_mem hlog' hbooked.roomy ha ha')
  · obtain ⟨rs, main, hlaid⟩ := hbooked.laidOut
    obtain ⟨t, a, x, gs, -, -, hcopy⟩ := hbooked.has_result hlaid.first hq hf hres
    exact ⟨_, .result hlaid.first hq hf hres hcopy⟩

theorem blocks_disjoint_array :
    let source := "program p; int x, a[3]; fun int f(int n) { return n; } a[f(x)] = x + 2;"
    (ofSource 1 source).rejection = none ∧ HasRoom 1 source ∧ KeepsApart 1 source := by
  intro source
  refine ⟨?accepted, ?room, blocks_disjoint ?accepted ?room⟩ <;> decide +kernel

end Compiled

end Symphony
