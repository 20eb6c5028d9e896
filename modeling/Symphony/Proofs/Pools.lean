import Symphony.Proofs.Areas
import Symphony.Proofs.Cells
import Symphony.Proofs.Compilation
import Symphony.Proofs.Doubles
import Symphony.Session

/-!
# Pools of constants

The compiler gives equal constants of one type the same cell, whose address is an operand. Constants
of different kinds can be equal: the integer one, the decimal one and the truth value are. The table
that the machine is given is the inverse of the pools.

**Theorem (`Compile.constants_shared`).** Any sequence of pushes with at most 10000 distinct values
for each type, none of them a NaN, succeeds. Pushes of one type give the same address exactly if
their values are equal, and the address is in the region of the type. The table holds there the
first of the equal values, so the machine finds it, and the table holds nothing else. Pushes of
other types make no difference.

Equality compares what values stand for, without rounding (`Value.equal_iff`). So it divides the
values of a sequence into groups, of which `distinct` keeps the first ones; the address of a
constant is its position among them (`rank`).
-/

namespace Symphony

variable {v : Value} {calls : List (Kind × Value)} {t : Ty}

/-! ## Equality -/

open Number (Exact exact scale)

/-- What a value stands for: a text, or a number by its real and imaginary parts. -/
inductive Meaning
  | text (s : String)
  | number (re im : Exact)
deriving DecidableEq

namespace Value

/-- Whether a part of a value is not a number. -/
def isNaN : Value → Bool
  | dec x => x.isNaN
  | complex z => z.re.isNaN || z.im.isNaN
  | _ => false

/-- The real number that a value stands for. -/
def real? : Value → Option Exact
  | dec x => some (exact x)
  | v => v.int?.map .ofInt

/-- What a value stands for. -/
def meaning : Value → Meaning
  | str s => .text s
  | int n => .number (.ofInt n) (.ofInt 0)
  | bool b => .number (.ofInt (if b then 1 else 0)) (.ofInt 0)
  | dec x => .number (exact x) (.ofInt 0)
  | complex z => .number (exact z.re) (exact z.im)

theorem real?_of_ne (h : ∀ x, v = dec x → False) : v.real? = v.int?.map .ofInt := by
  cases v with
  | dec x => exact (h x rfl).elim
  | int | bool | str | complex => rfl

/-- Real numbers compare as equal if they are the same number. -/
theorem compareReal?_eq_iff {l r : Value} (hl : l.isNaN = false) (hr : r.isNaN = false) :
    compareReal? l r = some (some .eq) ↔ l.real?.isSome ∧ l.real? = r.real? := by
  fun_cases compareReal? l r with
  | case1 x y =>
    have hbeq := Number.beq_iff hl hr
    by_cases heq : (x == y) = true
    · simp [heq, Number.not_lt_of_beq heq, real?, hbeq.1 heq]
    · have hne : exact x ≠ exact y := mt hbeq.2 heq
      simp only [heq, real?, Bool.false_eq_true, if_false]
      split_ifs <;> simp [hne]
  | case2 x r hdec =>
    rw [real?_of_ne hdec, real?]
    cases r.int? with
    | none => simp
    | some n => simp [Number.compareInt?_eq_iff hl, Ordering.swap_eq_iff_eq_swap]
  | case3 l y hdec =>
    rw [real?_of_ne hdec, real?]
    cases l.int? with
    | none => simp
    | some n => simp [Number.compareInt?_eq_iff hr, @eq_comm _ (exact y)]
  | case4 l r _ hldec hrdec =>
    rw [real?_of_ne hldec, real?_of_ne hrdec]
    cases l.int? with
    | none => simp
    | some a =>
      cases r.int? with
      | none => simp
      | some b => simp [compareOfLessAndEq_eq_eq Int.le_refl Int.not_le, Number.Exact.ofInt_inj]

theorem meaning_eq_number {re im : Exact} (h : ∀ z, v = complex z → False) :
    v.meaning = .number re im ↔ v.real? = some re ∧ im = .ofInt 0 := by
  cases v with
  | complex z => exact (h z rfl).elim
  | int | bool | str | dec => simp [meaning, real?, int?, eq_comm]

/-- Values are equal if they stand for the same. -/
theorem equal_iff {l r : Value} (hl : l.isNaN = false) (hr : r.isNaN = false) :
    l.equal r = true ↔ l.meaning = r.meaning := by
  have hzero : ∀ {x : Float}, x.isNaN = false → ((x == 0) = true ↔ exact x = .ofInt 0) :=
    fun hx => by
    rw [Number.beq_iff hx Number.isNaN_zero, Number.exact_zero]
  have hcompare : ∀ {l r : Value}, l.isNaN = false → r.isNaN = false →
      ((compareReal? l r == some (some .eq)) = true ↔ l.real?.isSome ∧ l.real? = r.real?) :=
        fun hl hr => by
    rw [beq_iff_eq, compareReal?_eq_iff hl hr]
  fun_cases equal l r with
  | case1 a b => simp [meaning]
  | case2 a b =>
    simp only [isNaN, Bool.or_eq_false_iff] at hl hr
    simp [Number.beq_iff hl.1 hr.1, Number.beq_iff hl.2 hr.2, meaning]
  | case3 a r hcomplex =>
    simp only [isNaN, Bool.or_eq_false_iff] at hl
    rw [@eq_comm Meaning, meaning, meaning_eq_number hcomplex, Bool.and_eq_true, hzero hl.2,
      hcompare (l := dec a.re) hl.1 hr]
    simp [real?, and_comm, eq_comm]
  | case4 l b hcomplex =>
    simp only [isNaN, Bool.or_eq_false_iff] at hr
    rw [meaning, meaning_eq_number hcomplex, Bool.and_eq_true, hzero hr.2,
      hcompare (r := dec b.re) hl hr.1]
    simp only [real?]
    constructor
    · exact fun h => ⟨h.2.2, h.1⟩
    · exact fun h => ⟨h.2, by simp [h.1], h.1⟩
  | case5 l r hstr _ hlc hrc =>
    rw [hcompare hl hr]
    cases hreal : r.real? with
    | none =>
      obtain ⟨s, rfl⟩ : ∃ s, r = str s := by cases r <;> simp_all [real?, int?]
      have hne : l.meaning ≠ .text s := by
        cases l with
        | str a => exact (hstr a s rfl rfl).elim
        | int | dec | bool | complex => simp [meaning]
      refine iff_of_false (fun h => ?_) hne
      simp [h.2] at h
    | some e =>
      have hmeaning : r.meaning = .number e (.ofInt 0) := (meaning_eq_number hrc).2 ⟨hreal, rfl⟩
      rw [hmeaning, meaning_eq_number hlc]
      constructor
      · exact fun h => ⟨h.2, rfl⟩
      · exact fun h => ⟨by simp [h.1], h.1⟩

end Value

/-! ## Distinct values -/

namespace Pool

/-- The first of each group of equal values. -/
def distinct (vs : List Value) : List Value := vs.eraseDupsBy Value.equal

theorem eraseDupsBy_loop_concat {α : Type} (r : α → α → Bool) (vs seen : List α) (v : α) :
    List.eraseDupsBy.loop r (vs ++ [v]) seen =
      if (List.eraseDupsBy.loop r vs seen).any (r v) then List.eraseDupsBy.loop r vs seen
      else List.eraseDupsBy.loop r vs seen ++ [v] := by
  induction vs generalizing seen with
  | nil =>
    simp only [List.nil_append, List.eraseDupsBy.loop, List.any_reverse]
    cases seen.any (r v) <;> simp
  | cons w vs ih =>
    cases hw : seen.any (r w) <;> simp only [List.cons_append, List.eraseDupsBy.loop, hw] <;>
      exact ih _

theorem distinct_concat (vs : List Value) (v : Value) :
    distinct (vs ++ [v]) = if (distinct vs).any v.equal then distinct vs else distinct vs ++ [v] :=
  eraseDupsBy_loop_concat _ vs [] v

/-- The position of a value among the distinct ones. -/
def rank (vs : List Value) (v : Value) : Nat := (distinct vs).findIdx (·.equal v)

section

variable {vs : List Value} {w : Value}

theorem mem_of_mem_distinct (h : w ∈ distinct vs) : w ∈ vs := by
  induction vs using List.reverseRecOn with
  | nil => simp [distinct] at h
  | append_singleton vs v ih =>
    rw [distinct_concat] at h
    split at h
    · simp [ih h]
    · rcases List.mem_append.1 h with h | h
      · simp [ih h]
      · simp_all

/-- Each value is equal to one of the distinct ones, and that is the first one to which it is
equal. -/
theorem find?_distinct (hvs : ∀ v ∈ vs, v.isNaN = false) (hv : v.isNaN = false) :
    (distinct vs).find? (·.equal v) = vs.find? (·.equal v) := by
  induction vs using List.reverseRecOn with
  | nil => rfl
  | append_singleton vs u ih =>
    have hold : ∀ w ∈ vs, w.isNaN = false := fun w hw => hvs w (by simp [hw])
    have hu : u.isNaN = false := hvs u (by simp)
    rw [distinct_concat, List.find?_append, ← ih hold]
    split
    case isTrue hany =>
      -- a value equal to the last one has been found before
      obtain ⟨w, hw, huw⟩ := List.any_eq_true.1 hany
      have hwn := hold w (mem_of_mem_distinct hw)
      cases hfind : (distinct vs).find? (·.equal v) with
      | some x => rfl
      | none =>
        have hwv : ¬w.equal v = true := by simpa using List.find?_eq_none.1 hfind w hw
        have huv : ¬u.equal v = true := by
          rw [Value.equal_iff hwn hv] at hwv
          rw [Value.equal_iff hu hv]
          rw [Value.equal_iff hu hwn] at huw
          rw [huw]
          exact hwv
        simp [huv]
    case isFalse => rw [List.find?_append]

theorem rank_lt (hvs : ∀ v ∈ vs, v.isNaN = false) (hv : v ∈ vs) :
    rank vs v < (distinct vs).length := by
  have hfound : (vs.find? (·.equal v)).isSome := by
    rw [List.find?_isSome]
    exact ⟨v, hv, (Value.equal_iff (hvs v hv) (hvs v hv)).2 rfl⟩
  rw [← find?_distinct hvs (hvs v hv), List.find?_isSome] at hfound
  exact List.findIdx_lt_length.2 hfound

theorem getElem?_rank (hvs : ∀ v ∈ vs, v.isNaN = false) (hv : v.isNaN = false) :
    (distinct vs)[rank vs v]? = vs.find? (·.equal v) := by
  rw [← find?_distinct hvs hv, rank, List.find?_eq_getElem?_findIdx]

/-- Values have the same position exactly if they are equal. -/
theorem rank_eq_iff (hvs : ∀ v ∈ vs, v.isNaN = false) (hv : v ∈ vs) (hw : w ∈ vs) :
    rank vs v = rank vs w ↔ v.equal w = true := by
  have hvn := hvs v hv
  have hwn := hvs w hw
  rw [Value.equal_iff hvn hwn]
  constructor
  · intro h
    have hlt := rank_lt hvs hv
    have hmem : (distinct vs)[rank vs v] ∈ distinct vs := List.getElem_mem hlt
    have hn := hvs _ (mem_of_mem_distinct hmem)
    have h₁ : (distinct vs)[rank vs v].equal v = true := List.findIdx_getElem (w := hlt)
    have h₂ : (distinct vs)[rank vs v].equal w = true := by
      simp only [h]
      exact List.findIdx_getElem (w := rank_lt hvs hw)
    rw [Value.equal_iff hn hvn] at h₁
    rw [Value.equal_iff hn hwn] at h₂
    exact h₁.symm.trans h₂
  · intro h
    have hsame : ∀ u ∈ distinct vs, u.equal v = u.equal w := by
      intro u hu
      have hun := hvs u (mem_of_mem_distinct hu)
      rw [Bool.eq_iff_iff, Value.equal_iff hun hvn, Value.equal_iff hun hwn, h]
    exact Nat.le_antisymm (List.findIdx_le_findIdx fun u hu huw => (hsame u hu).trans huw)
      (List.findIdx_le_findIdx fun u hu huv => (hsame u hu).symm.trans huv)

theorem any_distinct (hvs : ∀ v ∈ vs, v.isNaN = false) (hv : v.isNaN = false) :
    (distinct vs).any v.equal = true ↔ rank vs v < (distinct vs).length := by
  rw [rank, List.findIdx_lt_length, List.any_eq_true]
  refine exists_congr fun w => and_congr_right fun hw => ?_
  have hwn := hvs w (mem_of_mem_distinct hw)
  rw [Value.equal_iff hv hwn, Value.equal_iff hwn hv, eq_comm]

/-- A further value gets the position that it would have had, and changes no other one. -/
theorem rank_concat {u : Value} (hvs : ∀ v ∈ vs ++ [u], v.isNaN = false) (hv : v ∈ vs ++ [u]) :
    rank (vs ++ [u]) v = rank vs v := by
  have hold : ∀ v ∈ vs, v.isNaN = false := fun v hv => hvs v (by simp [hv])
  have hun : u.isNaN = false := hvs u (by simp)
  rw [rank, distinct_concat]
  split
  case isTrue => rfl
  case isFalse hnew =>
    rw [any_distinct hold hun] at hnew
    rw [List.findIdx_append]
    split
    case isTrue => rfl
    case isFalse hlt =>
      -- only the new value is not among the old ones
      have hvu : v = u := by
        rcases List.mem_append.1 hv with hv | hv
        · exact absurd (rank_lt hold hv) hlt
        · exact List.mem_singleton.1 hv
      have hself : v.equal v = true := (Value.equal_iff (hvs v hv) (hvs v hv)).2 rfl
      have hle : rank vs v ≤ (distinct vs).length := List.findIdx_le_length
      subst hvu
      rw [List.findIdx_singleton, if_pos hself, Nat.zero_add]
      unfold rank at hle hnew ⊢
      omega

/-- There is room for the positions in a region. -/
theorem locate?_rank (t : Ty) (hvs : ∀ v ∈ vs, v.isNaN = false) (hv : v ∈ vs)
    (hfew : (distinct vs).length ≤ 10000) :
    Sector.locate? (Sector.constants.regionStart t + rank vs v) = some (.constants, t) := by
  have hrank := rank_lt hvs hv
  have hwidth : Sector.constants.width = 10000 := by decide
  exact Sector.locate?_eq_some (by omega) (by unfold Sector.regionStop; omega)

end

/-! ## Pushing constants -/

/-- The constants of a type, in the order in which they are pushed. -/
def ofType (t : Ty) (calls : List (Kind × Value)) : List Value :=
  (calls.filter (·.1.ty? == some t)).map (·.2)

/-- The pool of a type that holds some values in their order. -/
def ofValues (t : Ty) (vs : List Value) : Pool :=
  vs.mapIdx fun i v => (v, Sector.constants.regionStart t + i)

/-- The operand that a push gives, among all pushes. -/
def operand (calls : List (Kind × Value)) (x : Kind × Value) : Operand :=
  ⟨x.1, .num (x.1.ty?.elim 0 fun t => Sector.constants.regionStart t + rank (ofType t calls) x.2)⟩

theorem find?_ofValues (t : Ty) (vs : List Value) (v : Value) :
    (ofValues t (distinct vs)).find? (·.1.equal v) =
      (distinct vs)[rank vs v]?.map fun w => (w, Sector.constants.regionStart t + rank vs v) := by
  have hfst : (ofValues t (distinct vs)).map (·.1) = distinct vs := by
    apply List.ext_getElem?
    intro i
    rw [ofValues, List.getElem?_map, List.getElem?_mapIdx]
    cases (distinct vs)[i]? <;> rfl
  have hidx : (ofValues t (distinct vs)).findIdx (·.1.equal v) = rank vs v := by
    rw [rank]
    nth_rewrite 2 [← hfst]
    rw [List.findIdx_map]
    rfl
  rw [List.find?_eq_getElem?_findIdx, hidx, ofValues, List.getElem?_mapIdx]

theorem ofType_concat (t : Ty) (calls : List (Kind × Value)) (k : Kind) (v : Value) :
    ofType t (calls ++ [(k, v)]) = if k.ty? = some t then ofType t calls ++
      [v] else ofType t calls := by
  unfold ofType
  rw [List.filter_append, List.map_append]
  by_cases h : k.ty? = some t
  · simp [h]
  · simp [h]

theorem mem_ofType : v ∈ ofType t calls ↔ ∃ k, (k, v) ∈ calls ∧ k.ty? = some t := by
  simp [ofType]

theorem isNaN_of_mem_ofType (hnan : ∀ x ∈ calls, x.2.isNaN = false) (hv : v ∈ ofType t calls) :
    v.isNaN = false := by
  obtain ⟨k, hk, -⟩ := mem_ofType.1 hv
  exact hnan _ hk

/-- A further push changes no operand. -/
theorem operand_concat {x y : Kind × Value} (hnan : ∀ z ∈ calls ++ [x], z.2.isNaN = false)
    (hy : y ∈ calls ++ [x]) : operand (calls ++ [x]) y = operand calls y := by
  obtain ⟨k, v⟩ := x
  obtain ⟨l, w⟩ := y
  unfold operand
  cases ht : l.ty? with
  | none => rfl
  | some t =>
    have hrank : rank (ofType t (calls ++ [(k, v)])) w = rank (ofType t calls) w := by
      have hw : w ∈ ofType t (calls ++ [(k, v)]) := mem_ofType.2 ⟨l, hy, ht⟩
      have hvs : ∀ u ∈ ofType t (calls ++ [(k, v)]), u.isNaN = false :=
        fun u => isNaN_of_mem_ofType hnan
      rw [ofType_concat] at hw hvs ⊢
      split at hw
      case isTrue hk =>
        simp only [hk, if_true] at hvs ⊢
        exact rank_concat hvs hw
      case isFalse hk => rw [if_neg hk]
    simp [hrank]

end Pool

open Pool

namespace Compile

/-- Pushes constants one after the other. -/
def pushConstants (calls : List (Kind × Value)) : Compile Unit :=
  calls.forM fun x => pushConstant x.1 x.2

variable {c : Compiler} {k : Kind} {w : Value} {a : Int}

theorem runFrom_pushConstant_old (ht : k.ty? = some t)
    (hfind : (c.constants.get t).find? (·.1.equal v) = some (w, a)) :
    (pushConstant k v).runFrom c = (.ok (), c.push ⟨k, .num a⟩) := by
  simp [pushConstant, ht, hfind, Compile.push, Compiler.push]

theorem runFrom_pushConstant_new (ht : k.ty? = some t)
    (hfind : (c.constants.get t).find? (·.1.equal v) = none) :
    (pushConstant k v).runFrom c = (.ok (), { c.reserve .constants t 1 with
      constants := c.constants.set t (c.constants.get t ++ [(v, c.next .constants t)])
      operands := ⟨k, .num (c.next .constants t)⟩ :: c.operands }) := by
  simp [pushConstant, allocate, ht, hfind, Compile.push, Compiler.reserve, Compiler.next]

end Compile

namespace Compiler

variable {c : Compiler}

/-- The constants that a compiler holds after pushes. -/
structure Interned (calls : List (Kind × Value)) (c : Compiler) : Prop where
  pools : ∀ t, c.constants.get t = ofValues t (distinct (ofType t calls))
  counters : ∀ t, c.next .constants t = Sector.constants.regionStart t +
    (distinct (ofType t calls)).length
  operands : c.operands = (calls.map (operand calls)).reverse

namespace Interned

theorem empty : Interned [] {} where
  pools t := by simp [ofValues, distinct, ofType]
  counters t := by simp [Compiler.next, Counters.initial, distinct, ofType]
  operands := rfl

variable {k : Kind}

/-- The operands after a further push. -/
theorem operands_concat (h : c.Interned calls) (hnan : ∀ x ∈ calls ++ [(k, v)], x.2.isNaN = false)
    (ht : k.ty? = some t) : ((calls ++ [(k, v)]).map (operand (calls ++ [(k, v)]))).reverse =
      ⟨k, .num (Sector.constants.regionStart t + rank (ofType t calls) v)⟩ :: c.operands := by
  have hoperand : operand calls (k, v) =
      ⟨k, .num (Sector.constants.regionStart t + rank (ofType t calls) v)⟩ := by
    simp [operand, ht]
  rw [h.operands, List.map_congr_left fun y hy => operand_concat hnan hy, ← hoperand]
  simp

/-- A value that is equal to an old one gets its cell. -/
theorem push_old (h : c.Interned calls) (hnan : ∀ x ∈ calls ++ [(k, v)], x.2.isNaN = false)
    (ht : k.ty? = some t) (hold : rank (ofType t calls) v < (distinct (ofType t calls)).length) :
    (c.push ⟨k, .num (Sector.constants.regionStart t + rank (ofType t calls) v)⟩).Interned
      (calls ++ [(k, v)]) := by
  have hdistinct : ∀ u, distinct (ofType u (calls ++ [(k, v)])) = distinct (ofType u calls) := by
    intro u
    rw [ofType_concat]
    split
    case isTrue hu =>
      obtain rfl : t = u := Option.some.inj (ht.symm.trans hu)
      have hany := (any_distinct (fun w => isNaN_of_mem_ofType fun x hx => hnan x (by simp [hx]))
        (hnan (k, v) (by simp))).2 hold
      rw [distinct_concat, if_pos hany]
    case isFalse => rfl
  refine ⟨fun u => ?_, fun u => ?_, (h.operands_concat hnan ht).symm⟩
  · rw [hdistinct]
    exact h.pools u
  · rw [hdistinct]
    exact h.counters u

/-- A new value gets the next cell. -/
theorem push_new (h : c.Interned calls) (hnan : ∀ x ∈ calls ++ [(k, v)], x.2.isNaN = false)
    (ht : k.ty? = some t) (hnew : ¬rank (ofType t calls) v < (distinct (ofType t calls)).length) :
    Interned (calls ++ [(k, v)]) { c.reserve .constants t 1 with
      constants := c.constants.set t (c.constants.get t ++ [(v, c.next .constants t)])
      operands := ⟨k, .num (c.next .constants t)⟩ :: c.operands } := by
  have hrank : rank (ofType t calls) v = (distinct (ofType t calls)).length :=
    Nat.le_antisymm List.findIdx_le_length (Nat.le_of_not_lt hnew)
  have hdistinct : distinct (ofType t (calls ++ [(k, v)])) = distinct (ofType t calls) ++ [v] := by
    have hany := mt (any_distinct (fun w => isNaN_of_mem_ofType fun x hx => hnan x (by simp [hx]))
      (hnan (k, v) (by simp))).1 hnew
    rw [ofType_concat, if_pos ht, distinct_concat, if_neg hany]
  have hother : ∀ u, u ≠ t → ofType u (calls ++ [(k, v)]) = ofType u calls := by
    intro u hu
    rw [ofType_concat, if_neg]
    rw [ht]
    simpa using hu.symm
  refine ⟨fun u => ?_, fun u => ?_, ?_⟩
  · by_cases hu : u = t
    · subst hu
      rw [hdistinct, ofValues, List.mapIdx_concat, PerTy.get_set_self, h.pools,
        h.counters, ofValues]
    · rw [hother u hu, ← h.pools]
      exact PerTy.get_set_of_ne _ _ hu
  · by_cases hu : u = t
    · subst hu
      have hnext := h.counters u
      rw [hdistinct, List.length_append, List.length_singleton]
      simp only [Compiler.next, Compiler.reserve, PerSector.get_set_self,
        PerTy.get_set_self] at hnext ⊢
      omega
    · rw [hother u hu, ← h.counters]
      simp [Compiler.next, Compiler.reserve, PerTy.get_set_of_ne _ _ hu]
  · rw [h.operands_concat hnan ht, hrank, h.counters]

theorem push (h : c.Interned calls) (hnan : ∀ x ∈ calls ++ [(k, v)], x.2.isNaN = false)
    (ht : k.ty? = some t) :
    ∃ c', (Compile.pushConstant k v).runFrom c = (.ok (), c') ∧
      c'.Interned (calls ++ [(k, v)]) := by
  have hfind := find?_ofValues t (ofType t calls) v
  rw [← h.pools] at hfind
  by_cases hold : rank (ofType t calls) v < (distinct (ofType t calls)).length
  · rw [List.getElem?_eq_getElem hold] at hfind
    exact ⟨_, Compile.runFrom_pushConstant_old ht hfind, h.push_old hnan ht hold⟩
  · rw [List.getElem?_eq_none (Nat.le_of_not_lt hold)] at hfind
    exact ⟨_, Compile.runFrom_pushConstant_new ht hfind, h.push_new hnan ht hold⟩

theorem pushAll {done : List (Kind × Value)} (h : c.Interned done)
    (hnan : ∀ x ∈ done ++ calls, x.2.isNaN = false) (hkinds : ∀ x ∈ calls, x.1.ty?.isSome) :
    ∃ c', (Compile.pushConstants calls).runFrom c = (.ok (), c') ∧ c'.Interned (done ++ calls) := by
  induction calls generalizing done c with
  | nil => exact ⟨c, rfl, by simpa using h⟩
  | cons x calls ih =>
    obtain ⟨hx, hrest⟩ := List.forall_mem_cons.1 hkinds
    obtain ⟨t, ht⟩ := Option.isSome_iff_exists.1 hx
    rw [List.append_cons] at hnan ⊢
    obtain ⟨c₁, hrun, h₁⟩ := h.push (fun y hy => hnan y (List.mem_append_left _ hy)) ht
    obtain ⟨c₂, hruns, h₂⟩ := ih h₁ hnan hrest
    refine ⟨c₂, ?_, h₂⟩
    change (Compile.pushConstant x.1 x.2 >>= fun _ => Compile.pushConstants calls).runFrom c = _
    rw [Attempt.runFrom_bind, hrun]
    exact hruns

/-- The operands of one type are those that its pushes alone give. -/
theorem operands_filter (h : c.Interned calls) (hnan : ∀ x ∈ calls, x.2.isNaN = false)
    (hkinds : ∀ x ∈ calls, x.1.ty?.isSome) (t : Ty) :
    ∃ c', (Compile.pushConstants (calls.filter (·.1.ty? == some t))).runFrom {} = (.ok (), c') ∧
      c'.operands = c.operands.filter (·.kind.ty? == some t) := by
  have hmem : ∀ x ∈ calls.filter (·.1.ty? == some t), x ∈ calls ∧ x.1.ty? = some t := by simp
  obtain ⟨c', hrun, h'⟩ := empty.pushAll (fun x hx => hnan x (hmem x hx).1) fun x hx =>
    hkinds x (hmem x hx).1
  refine ⟨c', hrun, ?_⟩
  rw [List.nil_append] at h'
  rw [h'.operands, h.operands, List.filter_reverse, List.filter_map]
  refine congrArg List.reverse (List.map_congr_left fun x hx => ?_)
  have hsame : ofType t (calls.filter (·.1.ty? == some t)) = ofType t calls := by
    simp [ofType, List.filter_filter]
  simp [operand, (hmem x hx).2, hsame]

end Interned

end Compiler

/-! ## The table of constants -/

/-- The cells of a pool. -/
def Cells.ofPool (pool : Pool) : Cells :=
  pool.foldl (fun cells x => cells.put (.ofInt x.2) x.1) ∅

theorem Bank.get_ofPools (pools : PerTy Pool) (t : Ty) :
    (Bank.ofPools pools).get t = .ofPool (pools.get t) := by
  rw [Bank.ofPools, PerTy.get_ofFn]
  rfl

namespace Cells

variable (t : Ty) (vs : List Value)

theorem ofPool_concat (v : Value) :
    ofPool (ofValues t (vs ++ [v])) =
      (ofPool (ofValues t vs)).put (.ofInt (Sector.constants.regionStart t + vs.length)) v := by
  rw [ofValues, List.mapIdx_concat, ofPool, List.foldl_append]
  rfl

theorem getElem?_ofPool (i : Nat) :
    (ofPool (ofValues t vs))[Slot.ofInt (Sector.constants.regionStart t + i)]? = vs[i]? := by
  induction vs using List.reverseRecOn with
  | nil => simp [ofValues, ofPool]
  | append_singleton vs v ih =>
    rw [ofPool_concat, Cells.getElem?_put, ih]
    simp only [Slot.order_ofInt]
    rcases Nat.lt_trichotomy i vs.length with hlt | heq | hgt
    · rw [if_neg (by omega), List.getElem?_append_left hlt]
    · simp [heq]
    · rw [if_neg (by omega), List.getElem?_eq_none (by omega), List.getElem?_eq_none
        (by simp; omega)]

theorem size_ofPool : (ofPool (ofValues t vs)).size = vs.length := by
  induction vs using List.reverseRecOn with
  | nil => rfl
  | append_singleton vs v ih =>
    have hnew : (ofPool (ofValues t vs)).contains
        (.ofInt (Sector.constants.regionStart t + vs.length)) = false := by
      rw [Std.TreeMap.contains_eq_isSome_getElem?, getElem?_ofPool, List.getElem?_eq_none
        (by omega)]
      rfl
    rw [ofPool_concat, put, hnew, if_neg (by decide), Std.TreeMap.size_insert, hnew, ih]
    simp

end Cells

namespace Compile

/-- Equal constants of one type share a cell of the region of the type, in which the machine finds
the first of them. -/
theorem constants_shared (calls : List (Kind × Value)) (hkinds : ∀ x ∈ calls, x.1.ty?.isSome)
    (hnan : ∀ x ∈ calls, x.2.isNaN = false)
    (hfew : ∀ t, (distinct (ofType t calls)).length ≤ 10000) :
    ∃ c, (pushConstants calls).runFrom {} = (.ok (), c) ∧ c.operands.length = calls.length ∧
      (∀ (i : Nat) (k : Kind) (v : Value) (t : Ty), calls[i]? = some (k, v) → k.ty? = some t →
        ∃ a, c.operands.reverse[i]? = some ⟨k, .num a⟩ ∧ Sector.locate? a = some (.constants, t) ∧
          (∀ (j : Nat) (l : Kind) (w : Value) (b : Int), calls[j]? = some (l, w) → l.ty? = some t →
            c.operands.reverse[j]? = some ⟨l, .num b⟩ → (a = b ↔ v.equal w = true)) ∧
          ∃ w, (ofType t calls).find? (·.equal v) = some w ∧
            ((Bank.ofPools c.constants).get t)[Slot.ofInt a]? = some w ∧
            ∀ m : Machine, m.memory.constants = Bank.ofPools c.constants →
              (Exec.value (Field.num a).text).runFrom m = (.ok w, m)) ∧
      (∀ t, ((Bank.ofPools c.constants).get t).size = (distinct (ofType t calls)).length) ∧
      ∀ t, ∃ c', (pushConstants (calls.filter (·.1.ty? == some t))).runFrom {} = (.ok (), c') ∧
        c'.operands = c.operands.filter (·.kind.ty? == some t) := by
  obtain ⟨c, hrun, h⟩ := Compiler.Interned.empty.pushAll hnan hkinds
  rw [List.nil_append] at h
  -- Each operand is the cell of the rank that its value has among the distinct ones of its type.
  have hplace : ∀ (i : Nat) (k : Kind) (v : Value) (t : Ty), calls[i]? = some (k, v) →
      k.ty? = some t →
      c.operands.reverse[i]? =
        some ⟨k, .num (Sector.constants.regionStart t + rank (ofType t calls) v)⟩ := by
    intro i k v t hi hk
    rw [h.operands, List.reverse_reverse, List.getElem?_map, hi]
    simp [operand, hk]
  refine ⟨c, hrun, by simp [h.operands], ?_, fun t => ?_, h.operands_filter hnan hkinds⟩
  · intro i k v t hi hk
    have hvs : ∀ u ∈ ofType t calls, u.isNaN = false := fun u => isNaN_of_mem_ofType hnan
    have hv : v ∈ ofType t calls := mem_ofType.2 ⟨k, List.mem_of_getElem? hi, hk⟩
    have hlocate := locate?_rank t hvs hv (hfew t)
    refine ⟨_, hplace i k v t hi hk, hlocate, ?_, ?_⟩
    · intro j l w b hj hl hb
      have hw : w ∈ ofType t calls := mem_ofType.2 ⟨l, List.mem_of_getElem? hj, hl⟩
      rw [hplace j l w t hj hl] at hb
      obtain rfl : Sector.constants.regionStart t + rank (ofType t calls) w = b := by simpa using hb
      rw [← rank_eq_iff hvs hv hw]
      omega
    · obtain ⟨w, hfind⟩ : ∃ w, (ofType t calls).find? (·.equal v) = some w := by
        rw [← getElem?_rank hvs (hvs v hv)]
        exact ⟨_, List.getElem?_eq_getElem (rank_lt hvs hv)⟩
      -- The machine finds the value of that rank.
      have hcell := Cells.getElem?_ofPool t (distinct (ofType t calls)) (rank (ofType t calls) v)
      rw [← h.pools, ← Bank.get_ofPools, getElem?_rank hvs (hvs v hv), hfind] at hcell
      refine ⟨w, hfind, hcell, fun m hm => ?_⟩
      have hget : (m.memory.get .constants).get t = (Bank.ofPools c.constants).get t := by
        rw [← hm]; rfl
      rw [Exec.runFrom_value, Memory.load_num (Sector.natAbs_lt_tooLong hlocate),
        Memory.read_eq hlocate, hget, hcell]
  · rw [Bank.get_ofPools, h.pools, Cells.size_ofPool]

/-- The integer one, the truth value and the decimal one are equal, so they share the first cell for
integers. The decimal pool has a cell of its own for the integer. -/
theorem constants_shared_mixed :
    let calls := [(.value .int, .int 1), (.value .dec, .dec 0.5), (.value .int, .bool true),
      (.value .int, .dec 1.0), (.value .dec, .int 1)]
    (∀ x ∈ calls, x.1.ty?.isSome) ∧ (∀ x ∈ calls, x.2.isNaN = false) ∧
      (∀ t, (distinct (ofType t calls)).length ≤ 10000) ∧
      ∃ c a, (pushConstants calls).runFrom {} = (.ok (), c) ∧
        c.operands.reverse[0]? = some ⟨.value .int, .num a⟩ ∧
        c.operands.reverse[2]? = some ⟨.value .int, .num a⟩ ∧
        c.operands.reverse[3]? = some ⟨.value .int, .num a⟩ ∧
        ((Bank.ofPools c.constants).get .int)[Slot.ofInt a]? = some (.int 1) ∧
        ((Bank.ofPools c.constants).get .dec).size = 2 := by
  intro calls
  have hkinds : ∀ x ∈ calls, x.1.ty?.isSome := by decide
  have hnan : ∀ x ∈ calls, x.2.isNaN = false := by decide +kernel
  have hfew : ∀ t, (distinct (ofType t calls)).length ≤ 10000 := by
    intro t
    cases t <;> decide +kernel
  obtain ⟨c, hrun, -, hshared, hsize, -⟩ := constants_shared calls hkinds hnan hfew
  obtain ⟨a, ha, -, hsame, w, hw, hcell, -⟩ := hshared 0 _ _ _ rfl rfl
  obtain ⟨b, hb, -⟩ := hshared 2 _ _ _ rfl rfl
  obtain ⟨d, hd, -⟩ := hshared 3 _ _ _ rfl rfl
  obtain rfl : a = b := (hsame 2 _ _ _ rfl rfl hb).2 (by decide +kernel)
  obtain rfl : a = d := (hsame 3 _ _ _ rfl rfl hd).2 (by decide +kernel)
  have hfirst : (ofType .int calls).find? (·.equal (.int 1)) = some (.int 1) := by decide +kernel
  obtain rfl := Option.some.inj (hfirst.symm.trans hw)
  exact ⟨hkinds, hnan, hfew, c, a, hrun, ha, hb, hd, hcell, (hsize .dec).trans (by decide +kernel)⟩

end Compile

end Symphony
