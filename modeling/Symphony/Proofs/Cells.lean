import Mathlib.Tactic.Common
import Symphony.Machine.Memory
import Symphony.Proofs.Code

/-!
# Cells

The machine finds a cell by the text of an operand. A number is the address itself, and a pointer
stands for the address that a cell holds (`Reference.ofField_num`, `Reference.ofField_pointer`), as
long as the address is in a sector. Writing a cell changes no other one (`Memory.read_write_of_ne`).
-/

namespace Symphony

variable {t : Ty} {a : Int} {s : Sector}

/-! ## Addresses -/

theorem Sector.bounds_of_locate? (h : locate? a = some (s, t)) : s.start ≤ a ∧ a < s.stop := by
  have hof : of? a = some s := by
    unfold locate? at h
    split at h
    · cases h
    · next u hu =>
      obtain ⟨_, -, hs⟩ := Option.map_eq_some_iff.1 h
      cases hs
      exact hu
  unfold of? at hof
  cases s <;> simp only [start, stop] at hof ⊢ <;> grind

/-- Addresses are short. -/
theorem Sector.natAbs_lt_tooLong (h : locate? a = some (s, t)) : a.natAbs < Text.tooLong := by
  have hbounds := bounds_of_locate? h
  have hsmall : a.natAbs < 10 ^ 6 := by
    cases s <;> simp only [start, stop] at hbounds <;> omega
  have hlimit : 6 ≤ Text.digitLimit := by decide
  unfold Text.tooLong
  generalize Text.digitLimit = n at hlimit
  exact Nat.lt_of_lt_of_le hsmall (Nat.pow_le_pow_right (by decide) hlimit)

theorem Text.readInteger?_pointer (a : Int) : readInteger? ("&" ++ toString a) = none := by
  have hblank : ∀ c ∈ ("&" ++ toString a).toList, isPadding c = false := by
    intro c hc
    rw [String.toList_append] at hc
    rcases List.mem_append.1 hc with hc | hc
    · rw [List.mem_singleton.1 hc]
      decide
    · simp [isPadding, isBlank_of_mem_toString hc]
  rw [readInteger?, trimPadding_of_forall hblank, String.toList_append]
  rfl

namespace Reference

/-- A number is read as the address it is. -/
theorem ofField_num (h : a.natAbs < Text.tooLong) : ofField (Field.num a).text = .direct a := by
  have hread : Text.readInteger? (toString a) = some a := by
    rw [Text.readInteger?_toString, if_pos h]
  rw [ofField, Field.text]
  cases hcs : (toString a).toList with
  | nil =>
    rw [Text.toList_toString] at hcs
    split at hcs
    · cases hcs
    · exact absurd hcs Nat.toDigits_ne_nil
  | cons c cs =>
    rw [ofChars, ← hcs, String.ofList_toList, hread]

theorem ofField_pointer (h : a.natAbs < Text.tooLong) :
    ofField (Field.pointer a).text = .through (.direct a) := by
  have hcons : ("&" ++ toString a).toList = '&' :: (toString a).toList := by
    rw [String.toList_append]
    rfl
  have hnum := ofField_num h
  rw [ofField, Field.text] at hnum
  rw [ofField, Field.text, hcons, ofChars, ← hcons, String.ofList_toList,
    Text.readInteger?_pointer, hnum]

end Reference

/-! ## Reading and writing -/

namespace Bank

theorem getElem?_set_put_slot (b : Bank) (u t : Ty) (s r : Slot) (v : Value) :
    ((b.set u ((b.get u).put s v)).get t)[r]? =
      if u = t ∧ Slot.order s r = .eq then some v else (b.get t)[r]? := by
  by_cases hu : u = t
  · subst hu
    simp [Cells.getElem?_put]
  · rw [PerTy.get_set_of_ne _ _ (Ne.symm hu), if_neg fun h => hu h.1]

theorem getElem?_set_put (bank : Bank) (u t : Ty) (a b : Int) (v : Value) :
    ((bank.set u ((bank.get u).put (.ofInt b) v)).get t)[Slot.ofInt a]? =
      if u = t ∧ b = a then some v else (bank.get t)[Slot.ofInt a]? := by
  simp only [getElem?_set_put_slot, Slot.order_ofInt]

end Bank

namespace Memory

variable {m n : Memory} {b : Int} {v : Value}

theorem load_num (h : a.natAbs < Text.tooLong) :
    m.load (.ofField (Field.num a).text) = m.read (.ofInt a) := by
  rw [Reference.ofField_num h]
  rfl

theorem store_num (h : a.natAbs < Text.tooLong) :
    m.store (.ofField (Field.num a).text) v = m.write (.ofInt a) v := by
  rw [Reference.ofField_num h]
  rfl

theorem read_write_of_ne (h : m.write (.ofInt a) v = .ok n) (hab : a ≠ b) :
    n.read (.ofInt b) = m.read (.ofInt b) := by
  rw [read_of_write h, if_neg (mt Slot.order_ofInt.1 hab)]

theorem read_write_self (h : m.write (.ofInt a) v = .ok n) : n.read (.ofInt a) = .ok v := by
  rw [read_of_write h, if_pos (Slot.order_ofInt.2 rfl)]

/-- What a cell holds, if the address is in a sector. -/
theorem read_eq (h : Sector.locate? a = some (s, t)) :
    m.read (.ofInt a) =
      match ((m.get s).get t)[Slot.ofInt a]? with
      | some v => .ok v
      | none => .error .uninitialized := by
  have hbase : (Slot.ofInt a).base = a := rfl
  cases hv : ((m.get s).get t)[Slot.ofInt a]? <;> simp [read, hbase, h, hv]

/-- Cells of a sector are read from it alone. -/
theorem read_congr (h : Sector.locate? a = some (s, t)) (hs : (m.get s).get t = (n.get s).get t) :
    m.read (.ofInt a) = n.read (.ofInt a) := by
  rw [read_eq h, read_eq h, hs]

/-- What the cells of a sector are after a write. -/
theorem getElem?_write {s r : Slot} {sector : Sector}
    (hs : Sector.locate? s.base = some (sector, t)) (h : m.write s v = .ok n) (sector' : Sector)
    (u : Ty) :
    ((n.get sector').get u)[r]? =
      if sector = sector' ∧ t = u ∧
        Slot.order s r = .eq then some v else ((m.get sector').get u)[r]? := by
  rw [write, hs] at h
  cases h
  by_cases hsector : sector = sector'
  · subst hsector
    simp only [PerSector.get_set_self, true_and, Bank.getElem?_set_put_slot]
  · rw [PerSector.get_set_of_ne _ _ (Ne.symm hsector), if_neg fun h => hsector h.1]

end Memory

end Symphony
