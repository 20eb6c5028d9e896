import Mathlib.Tactic.Common
import Symphony.Machine.Operation
import Symphony.Machine.Routine

/-!
# Values of a type

The machine checks no types, but its operators keep to the tables of the compiler: on values of the
types that an operator takes they give a value of the type that the table says (`BinOp.apply_hasTy`,
`UnOp.apply_hasTy`). Only powers do not, because a negative exponent makes a decimal of two
integers.
-/

namespace Symphony

variable {l v : Value} {n : Int}

/-- The values that a cell of a type may hold. -/
def Value.HasTy : Value → Ty → Prop
  | .int _, .int => True
  | .str s, .char => ∃ c, s = String.singleton c
  | .str _, .str => True
  | .bool _, .bool => True
  | .dec _, .dec => True
  | _, _ => False

namespace Value

variable {r : Value}

theorem hasTy_int : v.HasTy .int ↔ ∃ n, v = .int n := by
  cases v <;> simp [HasTy]

theorem hasTy_char : v.HasTy .char ↔ ∃ c, v = .str (String.singleton c) := by
  cases v <;> simp [HasTy]

theorem hasTy_str : v.HasTy .str ↔ ∃ s, v = .str s := by
  cases v <;> simp [HasTy]

theorem hasTy_bool : v.HasTy .bool ↔ ∃ b, v = .bool b := by
  cases v <;> simp [HasTy]

theorem hasTy_dec : v.HasTy .dec ↔ ∃ x, v = .dec x := by
  cases v <;> simp [HasTy]

theorem of_toDec {f : Float → Except Fault Value} (h : (toDec n).bind f = .ok v) :
    ∃ x, f x = .ok v := by
  cases hn : toDec n with
  | error e =>
    rw [hn] at h
    cases h
  | ok x =>
    rw [hn] at h
    exact ⟨x, h⟩

/-- Comparisons give truth values. -/
theorem order_hasTy {test : Ordering → Bool} (h : order test l r = .ok v) : v.HasTy .bool := by
  unfold order at h
  split at h
  · cases h
    trivial
  · split at h <;> cases h
    · trivial
    · trivial

end Value

/-! ## Operators -/

namespace BinOp

variable {o : BinOp} {r : Value} {a b t : Ty}

/-- Operators that give truth values on all that they take. -/
def isTest : BinOp → Bool
  | equals | .gt | .lt | .ge | .le => true
  | _ => false

def isArithmetic : BinOp → Bool
  | add | sub | mul | div | mod => true
  | _ => false

theorem apply_hasTy_of_isTest (ho : o.isTest = true) (h : o.apply l r = .ok v) : v.HasTy .bool := by
  cases o with
  | equals =>
    cases h
    trivial
  | gt | lt | ge | le => exact Value.order_hasTy h
  | _ => cases ho

theorem result?_of_isTest (ho : o.isTest = true) (h : o.result? a b = some t) : t = .bool := by
  revert h
  cases a <;> cases b <;> cases t <;> cases o <;> first | decide | cases ho

theorem hasTy_of_isTest (ho : o.isTest = true) (ht : o.result? a b = some t)
    (h : o.apply l r = .ok v) : v.HasTy t :=
  result?_of_isTest ho ht ▸ apply_hasTy_of_isTest ho h

theorem apply_hasTy_int (ho : o ≠ .pow) (x y : Int) (ht : o.result? .int .int = some t)
    (h : o.apply (.int x) (.int y) = .ok v) : v.HasTy t := by
  cases o with
  | add | sub | mul =>
    cases ht
    cases h
    trivial
  | div =>
    cases ht
    change (if y = 0 then Except.error Fault.zeroDivisor else _) = _ at h
    split at h
    · cases h
    · split at h <;> cases h
      trivial
  | mod =>
    cases ht
    change (if y = 0 then Except.error Fault.zeroDivisor else _) = _ at h
    split at h <;> cases h
    trivial
  | pow => exact absurd rfl ho
  | equals | gt | lt | ge | le => exact hasTy_of_isTest rfl ht h
  | and | or => cases ht

theorem apply_hasTy_decs (ho : o ≠ .pow) (x y : Float) (ht : o.result? .dec .dec = some t)
    (h : o.apply (.dec x) (.dec y) = .ok v) : v.HasTy t := by
  cases o with
  | add | sub | mul =>
    cases ht
    cases h
    trivial
  | div | mod =>
    cases ht
    change (if (y == 0) = true then Except.error Fault.zeroDivisor else _) = _ at h
    split at h <;> cases h
    trivial
  | pow => exact absurd rfl ho
  | equals | gt | lt | ge | le => exact hasTy_of_isTest rfl ht h
  | and | or => cases ht

/-- An integer becomes a decimal beside one. -/
theorem exists_dec_left (ho : o.isArithmetic = true) {y : Float}
    (h : o.apply (.int n) (.dec y) = .ok v) : ∃ x, o.apply (.dec x) (.dec y) = .ok v := by
  cases o with
  | add | sub | mul | div | mod => exact Value.of_toDec h
  | _ => cases ho

theorem exists_dec_right (ho : o.isArithmetic = true) {x : Float}
    (h : o.apply (.dec x) (.int n) = .ok v) : ∃ y, o.apply (.dec x) (.dec y) = .ok v := by
  cases o with
  | add | sub | mul | div | mod => exact Value.of_toDec h
  | _ => cases ho

/-- Numbers are compared or computed with. -/
theorem isTest_or_isArithmetic (ho : o ≠ .pow) (ht : o.result? .dec .dec = some t) :
    o.isTest = true ∨ o.isArithmetic = true := by
  cases o with
  | pow => exact absurd rfl ho
  | and | or => cases ht
  | _ => decide

theorem apply_hasTy_text (ha : a = .char ∨ a = .str) (hb : b = .char ∨ b = .str) (x y : String)
    (ht : o.result? a b = some t) (h : o.apply (.str x) (.str y) = .ok v) : v.HasTy t := by
  have hadd : o.isTest = true ∨ (o = .add ∧ t = .str) := by
    rcases ha with rfl | rfl <;> rcases hb with rfl | rfl <;> revert ht <;>
      cases o <;> cases t <;> decide
  rcases hadd with htest | ⟨rfl, rfl⟩
  · exact hasTy_of_isTest htest ht h
  · cases h
    trivial

theorem apply_hasTy_bool (x y : Bool) (ht : o.result? .bool .bool = some t)
    (h : o.apply (.bool x) (.bool y) = .ok v) : v.HasTy t := by
  have hconnective : o.isTest = true ∨ ((o = .and ∨ o = .or) ∧ t = .bool) := by
    revert ht
    cases o <;> cases t <;> decide
  rcases hconnective with htest | ⟨rfl | rfl, rfl⟩
  · exact hasTy_of_isTest htest ht h
  · cases h
    trivial
  · cases h
    trivial

/-- On operands of the types that it takes, an operator gives what the table says, unless it is a
power. -/
theorem apply_hasTy (ho : o ≠ .pow) (hl : l.HasTy a) (hr : r.HasTy b) (ht : o.result? a b = some t)
    (h : o.apply l r = .ok v) : v.HasTy t := by
  have hnone : Ty.binaryRow a b ≠ [] := by
    intro hrow
    simp [result?, hrow] at ht
  cases a with
  | int =>
    cases b with
    | int =>
      obtain ⟨x, rfl⟩ := Value.hasTy_int.1 hl
      obtain ⟨y, rfl⟩ := Value.hasTy_int.1 hr
      exact apply_hasTy_int ho x y ht h
    | dec =>
      -- Tests give a boolean anyway; otherwise the integer is taken as a decimal.
      rcases isTest_or_isArithmetic ho ht with htest | harith
      · exact hasTy_of_isTest htest ht h
      · obtain ⟨n, rfl⟩ := Value.hasTy_int.1 hl
        obtain ⟨y, rfl⟩ := Value.hasTy_dec.1 hr
        obtain ⟨x, hx⟩ := exists_dec_left harith h
        exact apply_hasTy_decs ho x y ht hx
    | _ => exact absurd rfl hnone
  | dec =>
    cases b with
    | int =>
      rcases isTest_or_isArithmetic ho ht with htest | harith
      · exact hasTy_of_isTest htest ht h
      · obtain ⟨x, rfl⟩ := Value.hasTy_dec.1 hl
        obtain ⟨n, rfl⟩ := Value.hasTy_int.1 hr
        obtain ⟨y, hy⟩ := exists_dec_right harith h
        exact apply_hasTy_decs ho x y ht hy
    | dec =>
      obtain ⟨x, rfl⟩ := Value.hasTy_dec.1 hl
      obtain ⟨y, rfl⟩ := Value.hasTy_dec.1 hr
      exact apply_hasTy_decs ho x y ht h
    | _ => exact absurd rfl hnone
  | bool =>
    cases b with
    | bool =>
      obtain ⟨x, rfl⟩ := Value.hasTy_bool.1 hl
      obtain ⟨y, rfl⟩ := Value.hasTy_bool.1 hr
      exact apply_hasTy_bool x y ht h
    | _ => exact absurd rfl hnone
  | char =>
    obtain ⟨x, rfl⟩ := Value.hasTy_char.1 hl
    cases b with
    | char =>
      obtain ⟨y, rfl⟩ := Value.hasTy_char.1 hr
      exact apply_hasTy_text (.inl rfl) (.inl rfl) _ _ ht h
    | str =>
      obtain ⟨y, rfl⟩ := Value.hasTy_str.1 hr
      exact apply_hasTy_text (.inl rfl) (.inr rfl) _ _ ht h
    | _ => exact absurd rfl hnone
  | str =>
    obtain ⟨x, rfl⟩ := Value.hasTy_str.1 hl
    cases b with
    | char =>
      obtain ⟨y, rfl⟩ := Value.hasTy_char.1 hr
      exact apply_hasTy_text (.inr rfl) (.inl rfl) _ _ ht h
    | str =>
      obtain ⟨y, rfl⟩ := Value.hasTy_str.1 hr
      exact apply_hasTy_text (.inr rfl) (.inr rfl) _ _ ht h
    | _ => exact absurd rfl hnone

end BinOp

theorem UnOp.apply_hasTy {o : UnOp} {w : Value} {t u : Ty} (hv : v.HasTy t)
    (ht : o.result? t = some u) (h : o.apply v = .ok w) : w.HasTy u := by
  cases t with
  | int =>
    obtain ⟨x, rfl⟩ := Value.hasTy_int.1 hv
    cases o <;> cases ht <;> cases h <;> trivial
  | dec =>
    cases o with
    | increment =>
      exact BinOp.apply_hasTy (o := .add) (l := .int 1) (a := .int) nofun trivial hv ht h
    | decrement =>
      exact BinOp.apply_hasTy (o := .sub) (r := .int 1) (b := .int) nofun hv trivial ht h
    | plus | minus =>
      obtain ⟨x, rfl⟩ := Value.hasTy_dec.1 hv
      cases ht
      cases h
      trivial
    | not => cases ht
  | bool =>
    cases o <;> cases ht
    cases h
    trivial
  | _ => cases o <;> cases ht

/-! ## Special functions -/

namespace Routine

variable {w : Value}

theorem sqrtOf_hasTy (h : sqrtOf v = .ok w) : w.HasTy .dec := by
  have hroot : ∀ x : Float, (if x < 0 then Except.error Fault.domain else .ok (.dec x.sqrt)) =
      Except.ok w → w.HasTy .dec := by
    intro x hx
    split at hx <;> cases hx
    trivial
  unfold sqrtOf at h
  split at h
  · exact hroot _ h
  · split at h
    · obtain ⟨x, hx⟩ := Value.of_toDec h
      exact hroot x hx
    · cases h

theorem logOf_hasTy (h : logOf v = .ok w) : w.HasTy .dec := by
  unfold logOf at h
  split at h
  · split at h <;> cases h
    trivial
  · split at h
    · cases h
    · split at h
      · cases h
      · split at h <;> cases h <;> trivial

theorem roundWith_hasTy {round : Float → Int} (h : roundWith round v = .ok w) : w.HasTy .int := by
  unfold roundWith at h
  split at h
  · split at h
    · cases h
    · split at h <;> cases h
      trivial
  · split at h <;> cases h
    trivial

theorem lengthOf_hasTy (h : lengthOf v = .ok w) : w.HasTy .int := by
  unfold lengthOf at h
  split at h <;> cases h
  trivial

theorem characterOf_hasTy {text index : Value} (h : characterOf text index = .ok w) :
    w.HasTy .char := by
  unfold characterOf at h
  split at h
  · dsimp only at h
    split at h <;> cases h
    exact ⟨_, rfl⟩
  · cases h

theorem text_hasTy (h : v.text.map Value.str = .ok w) : w.HasTy .str := by
  cases ht : v.text with
  | error f =>
    rw [ht] at h
    cases h
  | ok s =>
    rw [ht] at h
    cases h
    trivial

/-- An integer that passes the check of an index. -/
theorem between_int {low high z : Int} (h : between low (.int z) high = .ok true) :
    low ≤ z ∧ z < high := by
  change Except.ok ((compareOfLessAndEq low z).isLE && (compareOfLessAndEq z high).isLT) = _ at h
  obtain ⟨hlow, hhigh⟩ := Bool.and_eq_true_iff.1 (Except.ok.inj h)
  constructor
  · by_contra hlt
    simp [compareOfLessAndEq, show ¬low < z by omega, show low ≠ z by omega] at hlow
  · by_contra hlt
    unfold compareOfLessAndEq at hhigh
    rw [if_neg hlt] at hhigh
    split at hhigh <;> cases hhigh

end Routine

theorem Operation.ok_of_nameDividend {x : Except Fault Value} (h : nameDividend l x = .ok v) :
    x = .ok v := by
  unfold nameDividend at h
  split at h
  · cases ht : l.text <;> simp [ht, Except.bind] at h
  · exact h

end Symphony
