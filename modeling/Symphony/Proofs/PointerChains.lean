import Symphony.Proofs.Cells

/-!
# Stores and loads through chains of pointers

An operand is an address with any number of pointers in front of it (`Text.pointers`). Each pointer
stands for one step: from a cell to the cell whose address it holds. The machine reads the text from
the left and so takes the last step first; `Memory.follow` goes the way of the pointers, from the
address on.

**Theorem (`Exec.store_through`).** A store that succeeds changes one cell, the one at the end of
the chain, and it succeeds whenever the chain ends in a sector. After it, an operand whose chain
does not pass through that cell has the value that was stored if its own chain ends there, and else
the value or the fault it had before.

A store may overwrite a pointer of its own chain or of another one, and then these lead elsewhere. A
chain that does not pass through the cell leads to the same place as before (`Memory.follow_write`).
-/

namespace Symphony

variable {a : Int} {u : String}

/-! ## Texts of operands -/

namespace Text

/-- An address behind pointers. -/
def pointers (k : Nat) (address : String) : String :=
  String.ofList (List.replicate k '&') ++ address

theorem toList_pointers (k : Nat) (u : String) :
    (pointers k u).toList = List.replicate k '&' ++ u.toList := by
  simp [pointers]

/-- What follows a pointer, be it padding or not, does not make an integer of it. -/
theorem readInteger?_ampersand (cs : List Char) :
    readInteger? (String.ofList ('&' :: cs)) = none := by
  have htrim : ∃ ds, trimPadding ('&' :: cs) = '&' :: ds := by
    have hfront : ('&' :: cs).dropWhile isPadding = '&' :: cs :=
      List.dropWhile_cons_of_neg (by decide)
    have hback : ['&'].dropWhile isPadding = ['&'] := by decide
    rw [trimPadding, hfront, List.reverse_cons, List.dropWhile_append]
    split
    · exact ⟨[], by rw [hback]; rfl⟩
    · exact ⟨_, List.reverse_append⟩
  obtain ⟨ds, hds⟩ := htrim
  rw [readInteger?, String.toList_ofList, hds]
  rfl

end Text

namespace Reference

/-- A reference behind pointers. -/
def behind (r : Reference) : Nat → Reference
  | 0 => r
  | k + 1 => .through (r.behind k)

theorem ofChars_of_readInteger? (h : Text.readInteger? u = some a) :
    ofChars u.toList = .direct a := by
  cases hu : u.toList with
  | nil =>
    obtain rfl : u = "" := String.toList_eq_nil_iff.1 hu
    cases h
  | cons c cs =>
    rw [ofChars, ← hu, String.ofList_toList, h]

theorem ofField_pointers (h : Text.readInteger? u = some a) (k : Nat) :
    ofField (Text.pointers k u) = (direct a).behind k := by
  rw [ofField, Text.toList_pointers]
  induction k with
  | zero => exact ofChars_of_readInteger? h
  | succ k ih =>
    rw [List.replicate_succ, List.cons_append, ofChars, Text.readInteger?_ampersand, ih]
    rfl

end Reference

/-! ## Following pointers -/

namespace Memory

variable {m n : Memory} {s cell : Slot} {v : Value}

/-- The slot to which pointers lead from a slot. -/
def follow (m : Memory) : Nat → Slot → Except Fault Slot
  | 0, s => .ok s
  | k + 1, s => ((m.read s).bind Slot.ofValue).bind (m.follow k)

/-- The address to which pointers lead from an address, if all of them are integers. -/
def followIntegers (m : Memory) : Nat → Int → Option Int
  | 0, a => some a
  | k + 1, a =>
    match m.read (.ofInt a) with
    | .ok (.int b) => m.followIntegers k b
    | _ => none

theorem follow_of_integers {k : Nat} {c : Int} (h : m.followIntegers k a = some c) :
    m.follow k (.ofInt a) = .ok (.ofInt c) := by
  induction k generalizing a with
  | zero => rw [follow, Option.some.inj h]
  | succ k ih =>
    rw [followIntegers] at h
    split at h
    · next b hb =>
      rw [follow, hb]
      exact ih h
    · cases h

/-- The last step of a chain. -/
theorem follow_succ (m : Memory) (k : Nat) (s : Slot) :
    m.follow (k + 1) s = (m.follow k s).bind fun s => (m.read s).bind Slot.ofValue := by
  induction k generalizing s with
  | zero =>
    show ((m.read s).bind Slot.ofValue).bind Except.ok = (m.read s).bind Slot.ofValue
    cases (m.read s).bind Slot.ofValue <;> rfl
  | succ k ih =>
    rw [follow, follow]
    cases (m.read s).bind Slot.ofValue with
    | error f => rfl
    | ok s' => exact ih s'

/-- A reference behind pointers denotes the slot to which they lead. -/
theorem resolve_behind (m : Memory) (a : Int) (k : Nat) :
    m.resolve ((Reference.direct a).behind k) = m.follow k (.ofInt a) := by
  induction k with
  | zero => rfl
  | succ k ih => rw [follow_succ, ← ih, Reference.behind, resolve]

/-- A chain passes through the slots of its pointers. The slot it leads to is not one of them. -/
def Passes (m : Memory) (k : Nat) (s cell : Slot) : Prop :=
  ∃ i < k, ∃ r, m.follow i s = .ok r ∧ Slot.order cell r = .eq

/-- A chain that does not pass through the cell that is written leads where it led before. -/
theorem follow_write (h : m.write cell v = .ok n) {k : Nat} (hk : ¬m.Passes k s cell) :
    n.follow k s = m.follow k s := by
  induction k generalizing s with
  | zero => rfl
  | succ k ih =>
    have hread : n.read s = m.read s := by
      rw [read_of_write h, if_neg fun heq => hk ⟨0, Nat.succ_pos k, s, rfl, heq⟩]
    rw [follow, follow, hread]
    cases hs : (m.read s).bind Slot.ofValue with
    | error f => rfl
    | ok s' =>
      refine ih fun hpasses => hk ?_
      obtain ⟨i, hi, r, hr, heq⟩ := hpasses
      exact ⟨i + 1, Nat.succ_lt_succ hi, r, by rw [follow, hs]; exact hr, heq⟩

theorem write_eq_ok_iff : (∃ n, m.write cell v = .ok n) ↔ (Sector.locate? cell.base).isSome := by
  unfold write
  split <;> simp_all

end Memory

/-! ## Stores and loads -/

namespace Exec

variable {m m' : Machine} {v : Value}

theorem runFrom_value_pointers (hu : Text.readInteger? u = some a) (k : Nat) (m : Machine) :
    (value (Text.pointers k u)).runFrom m =
      ((m.memory.follow k (.ofInt a)).bind m.memory.read, m) := by
  rw [runFrom_value, Reference.ofField_pointers hu, Memory.load, Memory.resolve_behind]

/-- A store writes the cell at the end of its chain. -/
theorem runFrom_store_pointers (hu : Text.readInteger? u = some a) (k : Nat) :
    (store v (Text.pointers k u)).runFrom m = (.ok (), m') ↔
      ∃ cell n, m.memory.follow k (.ofInt a) = .ok cell ∧ m.memory.write cell v = .ok n ∧
        m' = { m with memory := n } := by
  rw [runFrom_store, Reference.ofField_pointers hu, Memory.store, Memory.resolve_behind]
  cases m.memory.follow k (.ofInt a) with
  | error f => simp [Except.bind]
  | ok cell => cases hwrite : m.memory.write cell v <;> simp [Except.bind, hwrite, eq_comm]

/-- A store through pointers sets the cell at their end and nothing else, and is seen through all
chains that end there. -/
theorem store_through (hu : Text.readInteger? u = some a) (k : Nat) (v : Value) (m : Machine) :
    ((∃ m', (store v (Text.pointers k u)).runFrom m = (.ok (), m')) ↔
      ∃ cell, m.memory.follow k (.ofInt a) = .ok cell ∧ (Sector.locate? cell.base).isSome) ∧
    ∀ m', (store v (Text.pointers k u)).runFrom m = (.ok (), m') →
      ∃ cell sector t, m.memory.follow k (.ofInt a) = .ok cell ∧
        (∀ c, m.memory.followIntegers k a = some c → cell = .ofInt c) ∧
        Sector.locate? cell.base = some (sector, t) ∧
        m' = { m with memory := m'.memory } ∧
        (∀ sector' t' r, ((m'.memory.get sector').get t')[r]? =
          if sector = sector' ∧ t = t' ∧ Slot.order cell r = .eq then some v
          else ((m.memory.get sector').get t')[r]?) ∧
        ∀ (w : String) (b : Int) (j : Nat), Text.readInteger? w = some b →
          ¬m.memory.Passes j (.ofInt b) cell →
          ((∃ s, m.memory.follow j (.ofInt b) = .ok s ∧ Slot.order cell s = .eq) →
            (value (Text.pointers j w)).runFrom m' = (.ok v, m')) ∧
          ((¬∃ s, m.memory.follow j (.ofInt b) = .ok s ∧ Slot.order cell s = .eq) →
            (value (Text.pointers j w)).runFrom m' =
              (((value (Text.pointers j w)).runFrom m).1, m')) := by
  constructor
  · constructor
    · rintro ⟨m', h⟩
      obtain ⟨cell, n, hcell, hwrite, -⟩ := (runFrom_store_pointers hu k).1 h
      exact ⟨cell, hcell, Memory.write_eq_ok_iff.1 ⟨n, hwrite⟩⟩
    · rintro ⟨cell, hcell, hlocated⟩
      obtain ⟨n, hwrite⟩ := Memory.write_eq_ok_iff.2 hlocated
      exact ⟨_, (runFrom_store_pointers hu k).2 ⟨cell, n, hcell, hwrite, rfl⟩⟩
  intro m' h
  obtain ⟨cell, n, hcell, hwrite, rfl⟩ := (runFrom_store_pointers hu k).1 h
  obtain ⟨⟨sector, t⟩, hlocate⟩ := Option.isSome_iff_exists.1 (Memory.write_eq_ok_iff.1 ⟨n, hwrite⟩)
  refine ⟨cell, sector, t, hcell, ?integers, hlocate, rfl,
    fun _ _ _ => Memory.getElem?_write hlocate hwrite _ _, ?values⟩
  case integers =>
    intro c hc
    rw [Memory.follow_of_integers hc] at hcell
    exact (Except.ok.inj hcell).symm
  case values =>
    intro w b j hw hpasses
    -- Away from the cell the chain leads to the same end before and after.
    rw [runFrom_value_pointers hw, runFrom_value_pointers hw, Memory.follow_write hwrite hpasses]
    cases m.memory.follow j (.ofInt b) with
    | error f => exact ⟨by simp, fun _ => rfl⟩
    | ok s =>
      have hread := Memory.read_of_write (r := s) hwrite
      constructor
      · rintro ⟨_, hs, heq⟩
        obtain rfl := Except.ok.inj hs
        rw [if_pos heq] at hread
        simp [Except.bind, hread]
      · intro hne
        rw [if_neg fun heq => hne ⟨s, rfl, heq⟩] at hread
        simp [Except.bind, hread]

/-- The second pointer of the chain is the cell at its end. The store overwrites it, and what one
pointer leads to is then the new value. -/
theorem store_through_own_chain :
    let m : Machine := { memory := { Memory.empty with
      globals := PerTy.set Bank.empty .int
        (Cells.put (Cells.put ∅ (.ofInt 10000) (.int 10001)) (.ofInt 10001) (.int 10001)) } }
    m.memory.followIntegers 2 10000 = some 10001 ∧
      ∃ m', (store (.int 7) "&&10000").runFrom m = (.ok (), m') ∧
        (value "10000").runFrom m' = (.ok (.int 10001), m') ∧
          (value "&10000").runFrom m' = (.ok (.int 7), m') := by
  intro m
  have haddress : Text.readInteger? "10000" = some 10000 := by decide +kernel
  have hchain : m.memory.followIntegers 2 10000 = some 10001 := by decide +kernel
  have hfirst : m.memory.followIntegers 1 10000 = some 10001 := by decide +kernel
  have hbefore : ((value (Text.pointers 0 "10000")).runFrom m).1 = .ok (.int 10001) := by
    decide +kernel
  obtain ⟨hsucceeds, hstored⟩ := store_through haddress 2 (.int 7) m
  obtain ⟨m', hm'⟩ := hsucceeds.2 ⟨_, Memory.follow_of_integers hchain, by decide⟩
  obtain ⟨cell, sector, t, -, hcell, -, -, -, hvalues⟩ := hstored m' hm'
  obtain rfl := hcell _ hchain
  refine ⟨hchain, m', hm', ?_, ?_⟩
  · have hvalue := (hvalues "10000" 10000 0 haddress ?_).2 ?_
    · exact hvalue.trans (congrArg (·, m') hbefore)
    · rintro ⟨i, hi, -⟩
      exact absurd hi (Nat.not_lt_zero i)
    · rintro ⟨s, hs, heq⟩
      obtain rfl := Except.ok.inj hs
      exact absurd heq (by decide)
  · refine (hvalues "10000" 10000 1 haddress ?_).1 ⟨_, Memory.follow_of_integers hfirst, by decide⟩
    rintro ⟨i, hi, s, hs, heq⟩
    obtain rfl : i = 0 := Nat.lt_one_iff.1 hi
    obtain rfl := Except.ok.inj hs
    exact absurd heq (by decide)

end Exec

end Symphony
