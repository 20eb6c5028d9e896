import Mathlib
import Symphony.Number.Binary

/-!
# What a double stands for

A double is not a number, or it is infinite, or it stands for a whole number of units of `2 ^
-1074`. The parts that the bits give are those that the comparison of doubles uses (`unpacks`), so
doubles are equal exactly if they stand for the same number (`beq_iff`). Integers are compared with
doubles in the same units, without rounding (`compareInt?_eq`).
-/

namespace Symphony.Number

open Float.Model Float.Model.UnpackedFloat

variable {s : UnpackedFloat.Sign} {y : Float}

/-! ## Parts -/

/-- The sign of a double. -/
def Parts.sign (p : Parts) : UnpackedFloat.Sign := if p.negative then .negative else .positive

/-- The mantissa has 53 bits unless the exponent is the least one. -/
structure Parts.IsCanonical (p : Parts) : Prop where
  mantissa : p.mantissa < 2 ^ 53
  exponent : leastExponent ≤ p.exponent
  normal : p.exponent = leastExponent ∨ 2 ^ 52 ≤ p.mantissa

/-- What a double with given parts unpacks to. -/
inductive Parts.Unpacks (p : Parts) : UnpackedFloat → Prop
  | notANumber : Unpacks p .notANumber
  | infinity : Unpacks p (.infinity p.sign)
  | zero (h : p.mantissa = 0) : Unpacks p (.zero p.sign)
  | finite (h : 0 < p.mantissa) : Unpacks p (.finite p.sign p.mantissa p.exponent h)

theorem toNat_unpackExponent (b : BitVec Format.binary64.numBits) :
    (unpackExponent b).toNat = b.toNat / 2 ^ 52 % 2 ^ 11 := by
  simp [unpackExponent, BitVec.extractLsb_toNat, Nat.shiftRight_eq_div_pow]

theorem toNat_unpackMantissa (b : BitVec Format.binary64.numBits) :
    (unpackMantissa b).toNat = b.toNat % 2 ^ 52 := by
  simp [unpackMantissa, BitVec.extractLsb_toNat]

theorem toNat_unpackSign (b : BitVec Format.binary64.numBits) :
    (unpackSign b).toNat = b.toNat / 2 ^ 63 := by
  have hb : b.toNat < 2 ^ 64 := b.isLt
  simp [unpackSign, BitVec.extractLsb_toNat, Nat.shiftRight_eq_div_pow]
  omega

variable {x : Float}

theorem parts_of_subnormal (h : x.toBits.toNat / 2 ^ 52 % 2 ^ 11 = 0) :
    parts x = ⟨x.toBits.toNat / 2 ^ 63 == 1, x.toBits.toNat % 2 ^ 52, leastExponent⟩ :=
  if_pos h

theorem parts_of_normal (h : x.toBits.toNat / 2 ^ 52 % 2 ^ 11 ≠ 0) :
    parts x = ⟨x.toBits.toNat / 2 ^ 63 == 1, 2 ^ 52 + x.toBits.toNat % 2 ^ 52,
      leastExponent - 1 + (x.toBits.toNat / 2 ^ 52 % 2 ^ 11 : Nat)⟩ :=
  if_neg h

theorem isCanonical_parts (x : Float) : (parts x).IsCanonical := by
  have hfraction : x.toBits.toNat % 2 ^ 52 < 2 ^ 52 := Nat.mod_lt _ (by decide)
  by_cases h : x.toBits.toNat / 2 ^ 52 % 2 ^ 11 = 0
  · rw [parts_of_subnormal h]
    exact ⟨by simp only; omega, Int.le_refl _, .inl rfl⟩
  · rw [parts_of_normal h]
    exact ⟨by simp only; omega, by simp only; omega, .inr (by simp only; omega)⟩

theorem negative_parts (x : Float) : (parts x).negative = (x.toBits.toNat / 2 ^ 63 == 1) := by
  by_cases h : x.toBits.toNat / 2 ^ 52 % 2 ^ 11 = 0
  · rw [parts_of_subnormal h]
  · rw [parts_of_normal h]

theorem sign_parts (x : Float) (b : BitVec Format.binary64.numBits)
    (hb : b = x.toModel.toBits.toBitVec) :
    (parts x).sign = UnpackedFloat.Sign.ofBitVec (unpackSign b) := by
  have hsign : (unpackSign b).toNat = x.toBits.toNat / 2 ^ 63 := by
    rw [toNat_unpackSign, hb]
    rfl
  have hlt := (unpackSign b).isLt
  unfold Parts.sign UnpackedFloat.Sign.ofBitVec
  rw [negative_parts, ← hsign]
  by_cases h : unpackSign b = 0#1
  · simp [h]
  · have hone : (unpackSign b).toNat = 1 := by
      have : (unpackSign b).toNat ≠ 0 := fun h0 => h (BitVec.eq_of_toNat_eq h0)
      omega
    simp [h, hone]

theorem Parts.Unpacks.of_finite {p : Parts} {m : Nat} {e : Int} (hs : p.sign = s)
    (hm : p.mantissa = m) (he : p.exponent = e) (h : 0 < m) : p.Unpacks (.finite s m e h) := by
  subst hs hm he
  exact .finite h

theorem unpacks (x : Float) : (parts x).Unpacks x.toModel.unpack := by
  obtain ⟨b, hb⟩ : ∃ b : BitVec Format.binary64.numBits, b = x.toModel.toBits.toBitVec := ⟨_, rfl⟩
  have hsign := sign_parts x b hb
  have hexponent : (unpackExponent b).toNat = x.toBits.toNat / 2 ^ 52 % 2 ^ 11 := by
    rw [toNat_unpackExponent, hb]
    rfl
  have hmantissa : (unpackMantissa b).toNat = x.toBits.toNat % 2 ^ 52 := by
    rw [toNat_unpackMantissa, hb]
    rfl
  have hbias : (Format.binary64.exponentBias + Format.binary64.mantissaBitsWithoutImplicit : Int) =
      1075 := rfl
  unfold Float.Model.unpack
  rw [← hb]
  unfold UnpackedFloat.unpack
  simp only [← hsign]
  split_ifs with hall hnone hzero hm
  · exact .infinity
  · exact .notANumber
  · have hfield : x.toBits.toNat / 2 ^ 52 % 2 ^ 11 = 0 := by rw [← hexponent, hzero]; rfl
    have hfraction : x.toBits.toNat % 2 ^ 52 = 0 := by rw [← hmantissa, hm]; rfl
    exact .zero (by rw [parts_of_subnormal hfield]; exact hfraction)
  · have hfield : x.toBits.toNat / 2 ^ 52 % 2 ^ 11 = 0 := by rw [← hexponent, hzero]; rfl
    refine .of_finite rfl ?_ ?_ _
    · rw [parts_of_subnormal hfield, hmantissa]
    · rw [parts_of_subnormal hfield, hzero]
      rfl
  · have hfield : x.toBits.toNat / 2 ^ 52 % 2 ^ 11 ≠ 0 := by
      rw [← hexponent]
      exact fun h => hzero (BitVec.eq_of_toNat_eq h)
    refine .of_finite rfl ?_ ?_ _
    · rw [parts_of_normal hfield, BitVec.toNat_append, hmantissa,
        ← Nat.shiftLeft_add_eq_or_of_lt (Nat.mod_lt _ (by decide))]
      rfl
    · rw [parts_of_normal hfield, hexponent]
      simp only [leastExponent, hbias]
      omega

/-! ## Values -/

/-- A double that is a number, exactly. Finite ones are whole numbers of units of `2 ^ -1074`. -/
inductive Exact
  | infinite (negative : Bool)
  | finite (units : Int)
deriving DecidableEq

/-- The number of units in one. -/
@[irreducible] def scale : Nat := 2 ^ (-leastExponent).toNat

theorem scale_eq : scale = 2 ^ (-leastExponent).toNat := by
  unfold scale
  rfl

theorem scale_pos : 0 < scale := by
  rw [scale_eq]
  exact Nat.two_pow_pos _

namespace Parts

/-- The number of units, without the sign. -/
def magnitude (p : Parts) : Nat := p.mantissa * 2 ^ (p.exponent - leastExponent).toNat

/-- The number of units. -/
def units (p : Parts) : Int := if p.negative then -(p.magnitude : Int) else p.magnitude

variable {p q : Parts}

theorem magnitude_eq_zero : p.magnitude = 0 ↔ p.mantissa = 0 := by
  have hpow : 2 ^ (p.exponent - leastExponent).toNat ≠ 0 := Nat.ne_of_gt (Nat.two_pow_pos _)
  rw [magnitude, Nat.mul_eq_zero, or_iff_left hpow]

theorem units_eq_zero : p.units = 0 ↔ p.mantissa = 0 := by
  rw [← magnitude_eq_zero]
  unfold units
  split <;> omega

/-- Of two doubles with different exponents, the one with the greater exponent is greater. -/
theorem magnitude_lt (hp : p.IsCanonical) (hq : q.IsCanonical) (h : p.exponent < q.exponent) :
    p.magnitude < q.magnitude := by
  obtain ⟨k, hk⟩ : ∃ k, (q.exponent - leastExponent).toNat = (p.exponent - leastExponent).toNat +
      (k + 1) :=
    ⟨(q.exponent - p.exponent).toNat - 1, by have := hp.exponent; omega⟩
  have hnormal : 2 ^ 52 ≤ q.mantissa := hq.normal.resolve_left (by have := hp.exponent; omega)
  have hpow : 0 < 2 ^ (p.exponent - leastExponent).toNat := Nat.two_pow_pos _
  unfold magnitude
  rw [hk, Nat.pow_add, Nat.mul_left_comm, Nat.mul_comm]
  refine Nat.mul_lt_mul_of_pos_left ?_ hpow
  calc p.mantissa < 2 ^ 52 * 2 := hp.mantissa
    _ ≤ q.mantissa * 2 ^ (k + 1) :=
      Nat.mul_le_mul hnormal (by rw [Nat.pow_succ]; have := Nat.two_pow_pos k; omega)

theorem magnitude_inj (hp : p.IsCanonical) (hq : q.IsCanonical) (h : p.magnitude = q.magnitude) :
    p.mantissa = q.mantissa ∧ p.exponent = q.exponent := by
  rcases Int.lt_trichotomy p.exponent q.exponent with hlt | heq | hgt
  · exact absurd h (Nat.ne_of_lt (magnitude_lt hp hq hlt))
  · refine ⟨?_, heq⟩
    rw [magnitude, magnitude, heq] at h
    exact Nat.eq_of_mul_eq_mul_right (Nat.two_pow_pos _) h
  · exact absurd h.symm (Nat.ne_of_lt (magnitude_lt hq hp hgt))

theorem sign_inj : p.sign = q.sign ↔ p.negative = q.negative := by
  unfold sign
  cases p.negative <;> cases q.negative <;> simp

theorem units_inj (hp : p.IsCanonical) (hq : q.IsCanonical) (hpos : 0 < p.mantissa) :
    p.units = q.units ↔ p.sign = q.sign ∧ p.mantissa = q.mantissa ∧ p.exponent = q.exponent := by
  have hmag : p.magnitude ≠ 0 := mt magnitude_eq_zero.1 (by omega)
  rw [sign_inj]
  constructor
  · intro h
    obtain ⟨hn, hm⟩ : p.negative = q.negative ∧ p.magnitude = q.magnitude := by
      unfold units at h
      cases hpn : p.negative <;> cases hqn : q.negative <;> simp only [hpn, hqn] at h <;>
        simp at h ⊢ <;> omega
    exact ⟨hn, magnitude_inj hp hq hm⟩
  · rintro ⟨hn, hm, he⟩
    simp only [units, magnitude, hn, hm, he]

end Parts

/-- What a double stands for that is a number. -/
def exact (x : Float) : Exact :=
  if x.isInf then .infinite (parts x).negative else .finite (parts x).units

theorem isNaN_eq (x : Float) : x.isNaN = x.toModel.unpack.isNaN := rfl

theorem isInf_eq (x : Float) : x.isInf = x.toModel.unpack.isInf := rfl

theorem isFinite_eq (x : Float) : x.isFinite = x.toModel.unpack.isFinite := rfl

theorem beq_eq (x y : Float) :
    (x == y) = (x.toModel.unpack.compare y.toModel.unpack == some .eq) := rfl

theorem lt_iff : x < y ↔ (x.toModel.unpack.compare y.toModel.unpack == some .lt) = true :=
  decide_eq_true_iff

theorem isNaN_of_isFinite (h : x.isFinite = true) : x.isNaN = false := by
  rw [isFinite_eq] at h
  rw [isNaN_eq]
  cases hu : x.toModel.unpack <;> simp [hu, UnpackedFloat.isFinite, UnpackedFloat.isNaN] at h ⊢

theorem isInf_of_isFinite (h : x.isFinite = true) : x.isInf = false := by
  rw [isFinite_eq] at h
  rw [isInf_eq]
  cases hu : x.toModel.unpack <;> simp [hu, UnpackedFloat.isFinite, UnpackedFloat.isInf] at h ⊢

theorem isFinite_of_isInf (hnan : x.isNaN = false) (hinf : x.isInf = false) :
    x.isFinite = true := by
  rw [isNaN_eq] at hnan
  rw [isInf_eq] at hinf
  rw [isFinite_eq]
  cases hu : x.toModel.unpack <;>
    simp [hu, UnpackedFloat.isFinite, UnpackedFloat.isNaN, UnpackedFloat.isInf] at hnan hinf ⊢

/-! ## Comparisons -/

theorem compare_infinity {t : UnpackedFloat.Sign} :
    UnpackedFloat.compare (.infinity s) (.infinity t) = some .eq ↔ s = t := by
  cases s <;> cases t <;> simp [UnpackedFloat.compare, compare]

theorem compare_finite {t : UnpackedFloat.Sign} {m n : Nat} {e f : Int} {hm : 0 < m} {hn : 0 < n} :
    UnpackedFloat.compare (.finite s m e hm) (.finite t n f hn) = some .eq ↔ s = t ∧ m = n ∧
      e = f := by
  cases s <;> cases t <;> simp [UnpackedFloat.compare, Ordering.swap_eq_eq,
    Ordering.then_eq_eq, and_comm]

/-- Doubles are equal if they stand for the same number. Two zeros may differ in their signs. -/
theorem beq_iff (hx : x.isNaN = false) (hy : y.isNaN = false) :
    (x == y) = true ↔ exact x = exact y := by
  have hxc := isCanonical_parts x
  have hyc := isCanonical_parts y
  have hxu := unpacks x
  have hyu := unpacks y
  rw [isNaN_eq] at hx hy
  rw [beq_eq, beq_iff_eq, exact, exact, isInf_eq, isInf_eq]
  generalize x.toModel.unpack = u at *
  generalize y.toModel.unpack = v at *
  cases hxu with
  | notANumber => cases hx
  | infinity =>
    cases hyu with
    | notANumber => cases hy
    | infinity => simp [compare_infinity, Parts.sign_inj, UnpackedFloat.isInf]
    | zero | finite => cases (parts x).sign <;> simp [UnpackedFloat.compare, UnpackedFloat.isInf]
  | zero h =>
    have hzero := Parts.units_eq_zero.2 h
    cases hyu with
    | notANumber => cases hy
    | infinity => cases (parts y).sign <;> simp [UnpackedFloat.compare, UnpackedFloat.isInf]
    | zero h' => simp [UnpackedFloat.compare, UnpackedFloat.isInf, hzero, Parts.units_eq_zero.2 h']
    | finite h' =>
      have hne : 0 ≠ (parts y).units := fun hunits =>
          absurd (Parts.units_eq_zero.1 hunits.symm) (by omega)
      cases (parts y).sign <;> simp [UnpackedFloat.compare, UnpackedFloat.isInf, hzero, hne]
  | finite h =>
    cases hyu with
    | notANumber => cases hy
    | infinity => cases (parts y).sign <;> simp [UnpackedFloat.compare, UnpackedFloat.isInf]
    | zero h' =>
      have hne : (parts x).units ≠ 0 := fun hunits =>
          absurd (Parts.units_eq_zero.1 hunits) (by omega)
      cases (parts x).sign <;> simp [UnpackedFloat.compare, UnpackedFloat.isInf, hne,
        Parts.units_eq_zero.2 h']
    | finite h' => simp [compare_finite, Parts.units_inj hxc hyc h, UnpackedFloat.isInf]

/-- Doubles that are equal are not one below the other. -/
theorem not_lt_of_beq (h : (x == y) = true) : ¬x < y := by
  rw [beq_eq, beq_iff_eq] at h
  rw [lt_iff, h]
  decide

/-- The ratio of a double, in units. -/
theorem toRatio_spec (x : Float) :
    ∃ k : Nat, (parts x).units = (toRatio x).1 * 2 ^ k ∧ scale = (toRatio x).2 * 2 ^ k := by
  have hexp := (isCanonical_parts x).exponent
  by_cases hpos : 0 ≤ (parts x).exponent
  · refine ⟨(-leastExponent).toNat, ?_, ?_⟩
    · have hk : ((parts x).exponent - leastExponent).toNat = (parts x).exponent.toNat +
          (-leastExponent).toNat := by
        unfold leastExponent at hexp ⊢
        omega
      simp only [toRatio, if_pos hpos, Parts.units, Parts.magnitude, hk, twoPow, Nat.pow_eq]
      split <;> push_cast <;> ring
    · simp only [toRatio, if_pos hpos, scale_eq, Nat.one_mul]
  · refine ⟨((parts x).exponent - leastExponent).toNat, ?_, ?_⟩
    · simp only [toRatio, if_neg hpos, Parts.units, Parts.magnitude]
      split <;> push_cast <;> ring
    · simp only [toRatio, if_neg hpos, scale_eq, twoPow, Nat.pow_eq, ← Nat.pow_add]
      congr 1
      unfold leastExponent at hexp ⊢
      omega

/-- An integer and a double that is finite compare as their numbers of units. -/
theorem compareInt?_eq (n : Int) (hx : x.isFinite = true) :
    compareInt? n x = some (compareOfLessAndEq (n * scale) (parts x).units) := by
  obtain ⟨k, hunits, hscale⟩ := toRatio_spec x
  have hpow : (0 : Int) < 2 ^ k := by positivity
  unfold compareInt? compareOfLessAndEq
  rw [isNaN_of_isFinite hx, isInf_of_isFinite hx, hunits, hscale]
  simp only [Bool.false_eq_true, if_false]
  push_cast
  rw [← mul_assoc]
  simp only [mul_lt_mul_iff_of_pos_right hpow, mul_left_inj' hpow.ne']

/-- An integer, in units. -/
def Exact.ofInt (n : Int) : Exact := .finite (n * scale)

theorem Exact.ofInt_inj {a b : Int} : ofInt a = ofInt b ↔ a = b := by
  simp [ofInt, scale_pos.ne']

theorem exact_zero : exact 0 = .ofInt 0 := by decide +kernel

theorem isNaN_zero : (0 : Float).isNaN = false := by decide +kernel

theorem compareInt?_eq_iff {n : Int} (hx : x.isNaN = false) :
    compareInt? n x = some .eq ↔ exact x = .ofInt n := by
  by_cases hinf : x.isInf = true
  · have hne : exact x ≠ .ofInt n := by
      rw [exact, if_pos hinf]
      exact Exact.noConfusion
    rw [compareInt?, hx, if_neg Bool.false_ne_true, if_pos hinf]
    split <;> simp [hne]
  · rw [Bool.not_eq_true] at hinf
    rw [compareInt?_eq n (isFinite_of_isInf hx hinf), exact, hinf, Exact.ofInt, Option.some.injEq,
      compareOfLessAndEq_eq_eq Int.le_refl Int.not_le]
    simp [eq_comm]

/-- The integers below a double, in units. -/
theorem le_floor_iff {a : Int} : a ≤ floor x ↔ a * scale ≤ (parts x).units := by
  obtain ⟨k, hunits, hscale⟩ := toRatio_spec x
  have hpow : (0 : Int) < 2 ^ k := by positivity
  have hden : (0 : Int) < (toRatio x).2 := by
    exact_mod_cast Nat.pos_of_mul_pos_right (hscale ▸ scale_pos)
  have hfloor : floor x = (toRatio x).1.fdiv (toRatio x).2 := rfl
  rw [hfloor, Int.fdiv_eq_ediv_of_nonneg _ hden.le, Int.le_ediv_iff_mul_le hden, hunits, hscale]
  push_cast
  rw [← mul_assoc, mul_le_mul_iff_of_pos_right hpow]

end Symphony.Number
