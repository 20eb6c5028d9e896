import Std.Data.TreeMap
import Symphony.PerTy
import Symphony.Value

/-!
# Memory

A cell has a slot. Slots are the integer addresses, and the fractions between them that a pointer
can reach when it was computed with a decimal. Every sector has one set of cells for each type.

An operand of a quad is a `Reference`: an address, or a pointer, which stands for the address that
another reference holds.
-/

namespace Symphony

/-- The place of a cell: `base + part / 2 ^ 52`. -/
structure Slot where
  base : Int
  part : Nat
  /-- Whether the address was computed as a decimal. This shows in its text only. -/
  decimal : Bool
deriving DecidableEq

namespace Slot

/-- Slots are ordered as the numbers they are. -/
abbrev order : Slot → Slot → Ordering :=
  compareLex (compareOn Slot.base) (compareOn Slot.part)

/-- The slot of an integer address. -/
def ofInt (a : Int) : Slot := ⟨a, 0, false⟩

/-- The slot that a value points to. Only a number can, and an infinite one lies in no sector. -/
def ofValue : Value → Except Fault Slot
  | .int n => .ok (ofInt n)
  | .bool b => .ok (ofInt (if b then 1 else 0))
  | .dec x =>
    if x.isFinite then
      let (num, den) := Number.toRatio x
      .ok ⟨num.fdiv den, ((num.fmod den).toNat * twoPow 52) / den, true⟩
    else .error .mismatch
  | _ => .error .mismatch

/-- The decimal text of a slot. -/
def text (s : Slot) : String :=
  if s.decimal then
    let num := s.base * twoPow 52 + s.part
    Number.decimalLayout.text (Number.ofRatio (num < 0) num.natAbs (twoPow 52))
  else toString s.base

theorem order_eq_iff {s r : Slot} : order s r = .eq ↔ s.base = r.base ∧ s.part = r.part := by
  simp [order, compareLex, compareOn, Ordering.then_eq_eq]

theorem order_ofInt {a b : Int} : order (ofInt a) (ofInt b) = .eq ↔ a = b := by
  rw [order_eq_iff]
  simp [ofInt]

end Slot

/-- The cells of one type in one sector. -/
abbrev Cells := Std.TreeMap Slot Value Slot.order

/-- Replaces the value of a cell. A cell that exists keeps the address it was created with. -/
def Cells.put (cells : Cells) (s : Slot) (v : Value) : Cells :=
  if cells.contains s then cells.modify s fun _ => v else cells.insert s v

theorem Cells.getElem?_put (cells : Cells) (s r : Slot) (v : Value) :
    (cells.put s v)[r]? = if Slot.order s r = .eq then some v else cells[r]? := by
  unfold Cells.put
  split
  case isTrue h =>
    rw [Std.TreeMap.getElem?_modify]
    split
    · rw [Std.TreeMap.contains_eq_isSome_getElem?] at h
      simp_all
    · rfl
  case isFalse h => rw [Std.TreeMap.getElem?_insert]

/-- The cells of one sector. -/
abbrev Bank := PerTy Cells

def Bank.empty : Bank := .ofFn fun _ => ∅

abbrev Memory := PerSector Bank

namespace Memory

def empty : Memory := .ofFn fun _ => .empty

/-- The value of a slot. -/
def read (m : Memory) (s : Slot) : Except Fault Value :=
  match Sector.locate? s.base with
  | none => .error .mismatch
  | some (sector, t) =>
    match ((m.get sector).get t)[s]? with
    | some v => .ok v
    | none => .error .uninitialized

/-- Replaces the value of a slot. -/
def write (m : Memory) (s : Slot) (v : Value) : Except Fault Memory :=
  match Sector.locate? s.base with
  | none => .error .mismatch
  | some (sector, t) =>
    let bank := m.get sector
    .ok (m.set sector (bank.set t ((bank.get t).put s v)))

/-- A read after a write gives the value written if it is of the same slot, else what was there. -/
theorem read_of_write {m n : Memory} {s r : Slot} {v : Value} (h : m.write s v = .ok n) :
    n.read r = if Slot.order s r = .eq then .ok v else m.read r := by
  unfold write at h
  split at h
  · cases h
  · rename_i sector t located
    cases h
    unfold read
    by_cases same : Slot.order s r = .eq
    · rw [← (Slot.order_eq_iff.1 same).1, located]
      simp [same, Cells.getElem?_put]
    · cases Sector.locate? r.base with
      | none => simp [same]
      | some place =>
        obtain ⟨sector', t'⟩ := place
        by_cases hs : sector' = sector
        · subst hs
          by_cases ht : t' = t
          · subst ht
            simp [same, Cells.getElem?_put]
          · simp [same, PerTy.get_set_of_ne _ _ ht]
        · simp [same, PerSector.get_set_of_ne _ _ hs]

end Memory

/-- An operand of a quad. -/
inductive Reference
  | direct (a : Int)
  | through (r : Reference)
  /-- A text that holds no address. -/
  | nowhere
deriving DecidableEq

/-- Reads an operand: an integer is an address, and each character in front of one is a pointer. -/
def Reference.ofChars : List Char → Reference
  | [] => nowhere
  | c :: cs =>
    match Text.readInteger? (String.ofList (c :: cs)) with
    | some a => direct a
    | none => through (ofChars cs)

def Reference.ofField (s : String) : Reference :=
  ofChars s.toList

namespace Memory

/-- The slot that a reference denotes. -/
def resolve (m : Memory) : Reference → Except Fault Slot
  | .direct a => .ok (.ofInt a)
  | .through r => (m.resolve r).bind fun s => (m.read s).bind Slot.ofValue
  | .nowhere => .error .endless

/-- The value of an operand. -/
def load (m : Memory) (r : Reference) : Except Fault Value :=
  (m.resolve r).bind m.read

/-- Stores a value in the cell an operand denotes. -/
def store (m : Memory) (r : Reference) (v : Value) : Except Fault Memory :=
  (m.resolve r).bind fun s => m.write s v

end Memory

end Symphony
