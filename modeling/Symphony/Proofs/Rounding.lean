import Symphony.Proofs.Doubles
import Symphony.Proofs.Values

/-!
# Sums of an integer and a double

The address of an array element is the sum of the address of the array and an index. An index that
was computed as a decimal makes the sum a decimal, and then it is rounded.

**Theorem (`Value.base_of_add`).** If an index has been checked against the size of an array, the
sum points to a cell of the array or, when it was rounded up, to the cell after the last one. It
never points below the array.

Rounding goes to one of the two neighbours (`round_eq`). Integers of at most 53 bits are doubles
themselves, so no rounding passes one (`add_between`).
-/

namespace Symphony.Number

open Float.Model Float.Model.UnpackedFloat

variable {m : Nat} {e : Int}

/-! ## Mantissas -/

theorem mantissa_shiftRight (em : ExtendedMantissa) (k : Nat) :
    (em >>> k).mantissa = em.mantissa / 2 ^ k := by
  change (k.repeat ExtendedMantissa.shiftRightOne em).mantissa = _
  induction k with
  | zero => simp [Nat.repeat]
  | succ k ih =>
    change (k.repeat ExtendedMantissa.shiftRightOne em).mantissa / 2 = _
    rw [ih, Nat.div_div_eq_div_mul, Nat.pow_succ]

theorem roundedMantissa_bounds (em : ExtendedMantissa) :
    em.mantissa ≤ em.roundedMantissa ∧ em.roundedMantissa ≤ em.mantissa + 1 := by
  obtain ⟨m, roundBit, stickyBit⟩ := em
  have hmod : m % 2 < 2 := Nat.mod_lt _ (by decide)
  cases roundBit <;> cases stickyBit <;>
    (simp [ExtendedMantissa.roundedMantissa, ExtendedMantissa.accuracy,
      Accuracy.roundToNearestEven]; try omega)

/-- The exponent at which a mantissa has 53 bits. -/
theorem targetExponent_eq (h : leastExponent ≤ m.log2 + e - 52) :
    Format.binary64.targetExponent (totalExponent m e) = m.log2 + e - 52 := by
  unfold leastExponent at h
  simp only [Format.targetExponent, totalExponent, Format.mantissaBits, Format.minExponent]
  omega

theorem shiftToTargetExponent_eq (h : leastExponent ≤ m.log2 + e - 52) :
    (shiftToTargetExponent Format.binary64 m e .exact).1.mantissa = m / 2 ^ (m.log2 - 52) ∧
      (shiftToTargetExponent Format.binary64 m e .exact).2 = e + (m.log2 - 52 : Nat) := by
  have hshift : (m.log2 + e - 52 - e).toNat = m.log2 - 52 := by omega
  simp only [shiftToTargetExponent, shiftToExponent, targetExponent_eq h, hshift,
    mantissa_shiftRight]
  exact ⟨rfl, trivial⟩

theorem log2_div {k : Nat} (h : m.log2 = 52 + k) : 2 ^ 52 ≤ m / 2 ^ k ∧ m / 2 ^ k < 2 ^ 53 := by
  have hm : m ≠ 0 := by
    rintro rfl
    simp at h
    omega
  have hlo := Nat.log2_self_le hm
  have hhi := Nat.lt_log2_self (n := m)
  rw [h, Nat.pow_add] at hlo
  rw [h, Nat.add_right_comm, Nat.pow_add] at hhi
  exact ⟨(Nat.le_div_iff_mul_le (Nat.two_pow_pos k)).2 hlo,
    (Nat.div_lt_iff_lt_mul (Nat.two_pow_pos k)).2 hhi⟩

/-- A double with a mantissa of 53 bits that stands for `r · 2 ^ t`. -/
def IsNormal (s : UnpackedFloat.Sign) (r : Nat) (t : Int) (u : UnpackedFloat) : Prop :=
  ∃ (m k : Nat) (h : 0 < m), u = .finite s m (t + k) h ∧ 2 ^ 52 ≤ m ∧ m < 2 ^ 53 ∧ k ≤ 1 ∧
    r = m * 2 ^ k

theorem roundWithAccuracy_eq {k : Nat} (s : UnpackedFloat.Sign) (hm : m.log2 = 52 + k)
    (he : leastExponent ≤ e + k) :
    ∃ r, m / 2 ^ k ≤ r ∧ r ≤ m / 2 ^ k + 1 ∧
      IsNormal s r (e + k) (roundWithAccuracy Format.binary64 s m e .exact) := by
  have hk : m.log2 - 52 = k := by omega
  obtain ⟨hfirst, hexponent⟩ := shiftToTargetExponent_eq (m := m) (e := e) (by omega)
  rw [hk] at hfirst hexponent
  obtain ⟨hlo, hhi⟩ := log2_div hm
  unfold roundWithAccuracy
  generalize shiftToTargetExponent Format.binary64 m e .exact = first at *
  obtain ⟨em, e₁⟩ := first
  dsimp only at hfirst hexponent ⊢
  obtain ⟨hle, hge⟩ := roundedMantissa_bounds em
  rw [hfirst] at hle hge
  refine ⟨em.roundedMantissa, hle, hge, ?_⟩
  generalize em.roundedMantissa = r at hle hge
  subst hexponent
  -- only 2 ^ 53 has a bit too many
  have hlog : ∃ c : Nat, r.log2 = 52 + c ∧ c ≤ 1 ∧ r = r / 2 ^ c * 2 ^ c := by
    by_cases hr : r < 2 ^ 53
    · refine ⟨0, (Nat.log2_eq_iff (by omega)).2 ⟨by omega, hr⟩, by omega, by simp⟩
    · have hmax : r = 2 ^ 53 := by omega
      exact ⟨1, by rw [hmax, Nat.log2_two_pow], Nat.le_refl _, by rw [hmax]; rfl⟩
  obtain ⟨c, hc, hone, heq⟩ := hlog
  obtain ⟨hsecond, hexponent⟩ := shiftToTargetExponent_eq (m := r) (e := e + k) (by omega)
  rw [show r.log2 - 52 = c by omega] at hsecond hexponent
  obtain ⟨hlo', hhi'⟩ := log2_div hc
  rw [dif_neg (by rw [hsecond]; omega)]
  simp only [hsecond, hexponent]
  exact ⟨_, c, _, rfl, hlo', hhi', hone, heq⟩

theorem log2_mul_two_pow (hm : m ≠ 0) (k : Nat) : (m * 2 ^ k).log2 = m.log2 + k := by
  have hpow := Nat.two_pow_pos k
  rw [Nat.log2_eq_iff (Nat.mul_ne_zero hm hpow.ne'), Nat.add_right_comm, Nat.pow_add, Nat.pow_add]
  exact ⟨Nat.mul_le_mul_right _ (Nat.log2_self_le hm),
    Nat.mul_lt_mul_of_pos_right Nat.lt_log2_self hpow⟩

theorem round_eq (s : UnpackedFloat.Sign) (hm : 0 < m) (he : leastExponent ≤ m.log2 + e - 52) :
    ∃ r, m * 2 ^ (52 - m.log2) / 2 ^ (m.log2 - 52) ≤ r ∧ r ≤ m * 2 ^ (52 - m.log2) / 2 ^
      (m.log2 - 52) + 1 ∧
      IsNormal s r (m.log2 + e - 52) (UnpackedFloat.round Format.binary64 s m e) := by
  have hshift : (e - (m.log2 + e - 52)).toNat = 52 - m.log2 := by omega
  have hlog : (m * 2 ^ (52 - m.log2)).log2 = 52 + (m.log2 - 52) := by
    rw [log2_mul_two_pow hm.ne']
    omega
  have hexponent : e - (52 - m.log2 : Nat) + (m.log2 - 52 : Nat) = m.log2 + e - 52 := by omega
  have hround := roundWithAccuracy_eq (e := e - (52 - m.log2 : Nat)) s hlog (by omega)
  rw [hexponent] at hround
  unfold UnpackedFloat.round decreaseExponent
  rw [targetExponent_eq he]
  dsimp only
  rwa [hshift, Nat.shiftLeft_eq]

/-- A positive number between two integers is rounded to a double between them. -/
theorem round_between {a b : Nat} (he : leastExponent ≤ e) (ha : 0 < a) (hb : b ≤ 2 ^ 53)
    (hlo : a * scale ≤ m * 2 ^ (e - leastExponent).toNat)
    (hhi : m * 2 ^ (e - leastExponent).toNat < b * scale) :
    ∃ (m' : Nat) (e' : Int) (h : 0 < m'),
      UnpackedFloat.round Format.binary64 .positive m e = .finite .positive m' e' h ∧ 2 ^ 52 ≤ m' ∧
        m' < 2 ^ 53 ∧
      leastExponent ≤ e' ∧ e' ≤ 1 ∧ a * scale ≤ m' * 2 ^ (e' - leastExponent).toNat ∧
      m' * 2 ^ (e' - leastExponent).toNat ≤ b * scale := by
  have hm : 0 < m := Nat.pos_of_mul_pos_right (Nat.lt_of_lt_of_le (Nat.mul_pos ha scale_pos) hlo)
  obtain ⟨N, hN⟩ : ∃ N : Nat, (N : Int) = -leastExponent := ⟨1074, rfl⟩
  have hscale : scale = 2 ^ N := by rw [scale_eq, ← hN]; rfl
  obtain ⟨D, hD⟩ : ∃ D : Nat, (e - leastExponent).toNat = D := ⟨_, rfl⟩
  rw [hD, hscale] at hlo hhi
  have hlow : N < m.log2 + 1 + D := by
    refine (Nat.pow_lt_pow_iff_right (by decide : 1 < 2)).1 ?_
    calc 2 ^ N ≤ a * 2 ^ N := Nat.le_mul_of_pos_left _ ha
      _ ≤ m * 2 ^ D := hlo
      _ < 2 ^ (m.log2 + 1) * 2 ^ D :=
        Nat.mul_lt_mul_of_pos_right Nat.lt_log2_self (Nat.two_pow_pos D)
      _ = 2 ^ (m.log2 + 1 + D) := (Nat.pow_add ..).symm
  have hhigh : m.log2 + D < 53 + N := by
    refine (Nat.pow_lt_pow_iff_right (by decide : 1 < 2)).1 ?_
    calc 2 ^ (m.log2 + D) = 2 ^ m.log2 * 2 ^ D := Nat.pow_add ..
      _ ≤ m * 2 ^ D := Nat.mul_le_mul_right _ (Nat.log2_self_le hm.ne')
      _ < b * 2 ^ N := hhi
      _ ≤ 2 ^ 53 * 2 ^ N := Nat.mul_le_mul_right _ hb
      _ = 2 ^ (53 + N) := (Nat.pow_add ..).symm
  have hleast : 52 ≤ N := by unfold leastExponent at hN; omega
  -- the unit in the last place of the result divides one
  obtain ⟨T, hT⟩ : ∃ T : Nat, T + 52 = m.log2 + D := ⟨m.log2 + D - 52, by omega⟩
  obtain ⟨R, hR⟩ : ∃ R : Nat, N = R + T := ⟨N - T, by omega⟩
  obtain ⟨r, hle, hge, m', k, hm', hround, hnormal, hbits, hone, hr⟩ :=
    round_eq (m := m) (e := e) .positive hm (by omega)
  have hquotient : m * 2 ^ (52 - m.log2) / 2 ^ (m.log2 - 52) = m * 2 ^ D / 2 ^ T := by
    have hpow : 2 ^ T * 2 ^ (52 - m.log2) = 2 ^ (m.log2 - 52) * 2 ^ D := by
      rw [← Nat.pow_add, ← Nat.pow_add]
      congr 1
      omega
    rw [← Nat.mul_div_mul_right _ _ (Nat.two_pow_pos D), ← hpow, Nat.mul_right_comm,
      Nat.mul_div_mul_right _ _ (Nat.two_pow_pos _)]
  rw [hquotient] at hle hge
  rw [hR, Nat.pow_add, ← Nat.mul_assoc] at hlo hhi
  have hlower := (Nat.le_div_iff_mul_le (Nat.two_pow_pos T)).2 hlo
  have hupper := (Nat.div_lt_iff_lt_mul (Nat.two_pow_pos T)).2 hhi
  have hunits : m' * 2 ^ (m.log2 + e - 52 + k - leastExponent).toNat = r * 2 ^ T := by
    rw [hr, Nat.mul_assoc, ← Nat.pow_add]
    congr 2
    omega
  refine ⟨m', _, hm', hround, hnormal, hbits, by omega, by omega, ?_, ?_⟩
  · rw [hunits, hscale, hR, Nat.pow_add, ← Nat.mul_assoc]
    exact Nat.mul_le_mul_right _ (Nat.le_trans hlower hle)
  · rw [hunits, hscale, hR, Nat.pow_add, ← Nat.mul_assoc]
    exact Nat.mul_le_mul_right _ (by omega)

/-! ## Packing -/

theorem ofBitVec_unpackSign (s : UnpackedFloat.Sign) (e : BitVec 11) (m : BitVec 52) :
    UnpackedFloat.Sign.ofBitVec (unpackSign (packComponents Format.binary64 s e m)) = s := by
  simp only [unpackSign, packComponents, BitVec.extractLsb]
  rw [BitVec.extractLsb'_append_eq_of_le (by omega), BitVec.extractLsb'_append_eq_of_le (by omega)]
  cases s <;> rfl

theorem unpack_pack {s : UnpackedFloat.Sign} {h : 0 < m} (hlo : 2 ^ 52 ≤ m) (hhi : m < 2 ^ 53)
    (hleast : leastExponent ≤ e) (he : e ≤ 1) :
    (Float.Model.pack (.finite s m e h)).unpack = .finite s m e h := by
  unfold leastExponent at hleast
  have hlog : m.log2 = 52 := (Nat.log2_eq_iff h.ne').2 ⟨hlo, hhi⟩
  have hbias : (e + Format.binary64.exponentBias +
      Format.binary64.mantissaBitsWithoutImplicit).toNat = (e + 1075).toNat := by
    change (e + (1023 : Nat) + (52 : Nat)).toNat = _
    omega
  have hmantissa : (1#1 ++ BitVec.ofNat 52 m).toNat = m := by
    rw [BitVec.toNat_append, ← Nat.shiftLeft_add_eq_or_of_lt (BitVec.ofNat 52 m).isLt,
      BitVec.toNat_ofNat, Nat.shiftLeft_eq]
    simp
    omega
  have hexponent : (BitVec.ofNat 11 (e + 1075).toNat).toNat = (e + 1075).toNat := by
    rw [BitVec.toNat_ofNat]
    exact Nat.mod_eq_of_lt (by omega)
  have hones : BitVec.ofNat 11 (e + 1075).toNat ≠ -1#11 := by
    intro heq
    have := hexponent.symm.trans (congrArg BitVec.toNat heq)
    simp at this
    omega
  have hzero : BitVec.ofNat 11 (e + 1075).toNat ≠ 0#11 := by
    intro heq
    have := hexponent.symm.trans (congrArg BitVec.toNat heq)
    simp at this
    omega
  change UnpackedFloat.unpack Format.binary64
    (UnpackedFloat.pack Format.binary64 (.finite s m e h)) = _
  rw [UnpackedFloat.pack, hlog, hbias, if_neg (show ¬2 ^ 11 ≤ (e + 1075).toNat + 1 by omega),
    if_pos (show 52 + 1 = Format.binary64.mantissaBits from rfl), UnpackedFloat.unpack]
  simp only [unpackMantissa_packComponents, unpackExponent_packComponents, ofBitVec_unpackSign]
  rw [if_neg hones, if_neg hzero]
  simp only [hmantissa, hexponent]
  congr 1
  change ((e + 1075).toNat : Int) - ((1023 : Nat) + (52 : Nat)) = e
  omega

/-! ## Sums -/

theorem isFinite_of_unpack {x : Float} {h : 0 < m}
    (hx : x.toModel.unpack = .finite .positive m e h) :
    x.isFinite = true ∧ (parts x).units = (m * 2 ^ (e - leastExponent).toNat : Nat) := by
  have hunpacks := unpacks x
  rw [isFinite_eq]
  rw [hx] at hunpacks ⊢
  refine ⟨rfl, ?_⟩
  generalize hs : UnpackedFloat.Sign.positive = s at hunpacks
  cases hunpacks with
  | finite =>
    unfold Parts.sign at hs
    unfold Parts.units Parts.magnitude
    split at hs
    · cases hs
    · rw [if_neg ‹_›]

theorem Parts.units_eq (p : Parts) : p.units = p.sign.apply p.magnitude := by
  unfold units sign
  split <;> rfl

/-- A double between two integers has a mantissa of 53 bits. -/
theorem Parts.IsCanonical.normal_of_le {p : Parts} (hp : p.IsCanonical) (hlo : scale ≤ p.magnitude)
    (hhi : p.magnitude < 2 ^ 53 * scale) : 2 ^ 52 ≤ p.mantissa ∧ p.exponent ≤ 1 := by
  obtain ⟨N, hN⟩ : ∃ N : Nat, (N : Int) = -leastExponent := ⟨1074, rfl⟩
  have hleast : 53 ≤ N := by unfold leastExponent at hN; omega
  have hscale : scale = 2 ^ N := by rw [scale_eq, ← hN]; rfl
  have hexponent := hp.exponent
  rw [hscale] at hlo hhi
  unfold Parts.magnitude at hlo hhi
  have hnormal : 2 ^ 52 ≤ p.mantissa := by
    refine hp.normal.resolve_left fun heq => ?_
    rw [heq, Int.sub_self, Int.toNat_zero, Nat.pow_zero, Nat.mul_one] at hlo
    exact absurd (Nat.lt_of_le_of_lt hlo hp.mantissa)
      (Nat.not_lt.2 (Nat.pow_le_pow_right (by decide) hleast))
  have hlt : 52 + (p.exponent - leastExponent).toNat < 53 + N := by
    refine (Nat.pow_lt_pow_iff_right (by decide : 1 < 2)).1 ?_
    rw [Nat.pow_add, Nat.pow_add]
    exact Nat.lt_of_le_of_lt (Nat.mul_le_mul_right _ hnormal) hhi
  exact ⟨hnormal, by omega⟩

/-- The number of units, from the mantissa at a smaller exponent. -/
theorem Parts.units_aligned (p : Parts) (hleast : leastExponent ≤ e) (he : e ≤ p.exponent) :
    p.units = p.sign.apply (decreaseExponent p.mantissa p.exponent e).1 *
      (2 ^ (e - leastExponent).toNat : Nat) := by
  have hmagnitude : p.magnitude = (decreaseExponent p.mantissa p.exponent e).1 * 2 ^
      (e - leastExponent).toNat := by
    unfold magnitude decreaseExponent
    dsimp only
    rw [Nat.shiftLeft_eq, Nat.mul_assoc, ← Nat.pow_add]
    congr 2
    omega
  rw [units_eq, hmagnitude]
  cases p.sign with
  | positive => exact Int.natCast_mul ..
  | negative => simp only [UnpackedFloat.Sign.apply, Int.natCast_mul, Int.neg_mul]

theorem normalize_of_pos {m : Int} {s : UnpackedFloat.Sign} (hm : 0 < m) :
    UnpackedFloat.normalize Format.binary64 m e s = UnpackedFloat.round Format.binary64 .positive
      m.toNat e := by
  unfold UnpackedFloat.normalize
  rw [Int.compare_eq_gt.2 hm]

theorem toModel_add (x y : Float) :
    (x + y).toModel = Float.Model.pack
      (UnpackedFloat.add Format.binary64 x.toModel.unpack y.toModel.unpack) :=
  rfl

variable {x y : Float} {a b : Nat}

/-- A double that is packed again. -/
theorem isFinite_of_pack (ha : 0 < a) (hb : b ≤ 2 ^ 53) (hlo : (a * scale : Nat) ≤ (parts x).units)
    (hhi : (parts x).units < (b * scale : Nat)) (hpos : 0 < (parts x).mantissa)
    (h : y.toModel = Float.Model.pack (.finite (parts x).sign (parts x).mantissa
      (parts x).exponent hpos)) :
    y.isFinite = true ∧ (parts y).units = (parts x).units := by
  have hscale := Nat.mul_pos ha scale_pos
  have hsign : (parts x).sign = .positive := by
    unfold Parts.sign
    split
    case isTrue hneg =>
      rw [Parts.units, if_pos hneg] at hlo
      omega
    case isFalse => rfl
  have hunits : (parts x).units = (parts x).magnitude := by rw [Parts.units_eq, hsign]; rfl
  rw [hunits] at hlo hhi ⊢
  obtain ⟨hnormal, hexponent⟩ := (isCanonical_parts x).normal_of_le
    (Nat.le_trans (Nat.le_mul_of_pos_left _ ha) (Int.ofNat_le.1 hlo))
    (Nat.lt_of_lt_of_le (Int.ofNat_lt.1 hhi) (Nat.mul_le_mul_right _ hb))
  have hunpack : y.toModel.unpack = .finite .positive (parts x).mantissa
      (parts x).exponent hpos := by
    rw [h, unpack_pack hnormal (isCanonical_parts x).mantissa (isCanonical_parts x).exponent
      hexponent, hsign]
  exact isFinite_of_unpack hunpack

/-- A sum between two positive integers is rounded to a double between them. -/
theorem add_between (hx : x.isFinite = true) (hy : y.isFinite = true) (ha : 0 < a) (hb : b ≤ 2 ^ 53)
    (hlo : (a * scale : Nat) ≤ (parts x).units + (parts y).units)
    (hhi : (parts x).units + (parts y).units < (b * scale : Nat)) :
    (x + y).isFinite = true ∧ (a * scale : Nat) ≤ (parts (x + y)).units ∧
      (parts (x + y)).units ≤ (b * scale : Nat) := by
  have hscale := Nat.mul_pos ha scale_pos
  have hxe := (isCanonical_parts x).exponent
  have hye := (isCanonical_parts y).exponent
  have hxu := unpacks x
  have hyu := unpacks y
  have hadd := toModel_add x y
  rw [isFinite_eq] at hx hy
  generalize x.toModel.unpack = u at *
  generalize y.toModel.unpack = v at *
  cases hxu with
  | notANumber | infinity => cases hx
  | zero h =>
    rw [Parts.units_eq_zero.2 h, Int.zero_add] at hlo hhi
    cases hyu with
    | notANumber | infinity => cases hy
    | zero h' =>
      rw [Parts.units_eq_zero.2 h'] at hlo
      omega
    | finite h' =>
      obtain ⟨hfinite, hunits⟩ := isFinite_of_pack ha hb hlo hhi h' hadd
      exact ⟨hfinite, by omega, by omega⟩
  | finite h =>
    cases hyu with
    | notANumber | infinity => cases hy
    | zero h' =>
      rw [Parts.units_eq_zero.2 h', Int.add_zero] at hlo hhi
      obtain ⟨hfinite, hunits⟩ := isFinite_of_pack ha hb hlo hhi h hadd
      exact ⟨hfinite, by omega, by omega⟩
    | finite h' =>
      -- at the smaller exponent the mantissas are added
      obtain ⟨e, he⟩ : ∃ e, e = min (parts x).exponent (parts y).exponent := ⟨_, rfl⟩
      obtain ⟨n, hn⟩ : ∃ n, n = (parts x).sign.apply
          (decreaseExponent (parts x).mantissa (parts x).exponent e).1 +
        (parts y).sign.apply (decreaseExponent (parts y).mantissa (parts y).exponent e).1 :=
          ⟨_, rfl⟩
      have hsum : (parts x).units + (parts y).units = n *
          (2 ^ (e - leastExponent).toNat : Nat) := by
        rw [(parts x).units_aligned (e := e) (by omega) (by omega),
          (parts y).units_aligned (e := e) (by omega) (by omega), hn, Int.add_mul]
      rw [hsum] at hlo hhi
      have hpos : 0 < n := by
        by_contra hle
        have := Int.mul_nonpos_of_nonpos_of_nonneg (Int.not_lt.1 hle)
          (Int.natCast_nonneg (2 ^ (e - leastExponent).toNat))
        omega
      obtain ⟨m, rfl⟩ := Int.eq_ofNat_of_zero_le hpos.le
      obtain ⟨m', e', hm', hround, hnormal, hbits, hleast, hone, hlower, hupper⟩ :=
        round_between (m := m) (e := e) (by omega) ha hb (by exact_mod_cast hlo)
          (by exact_mod_cast hhi)
      have hmodel : (x + y).toModel = Float.Model.pack (.finite .positive m' e' hm') := by
        rw [hadd, ← hround, ← Int.toNat_natCast m, ← normalize_of_pos (s := .positive) hpos, hn, he]
        rfl
      have hunpack := unpack_pack (s := .positive) (h := hm') hnormal hbits hleast hone
      rw [← hmodel] at hunpack
      obtain ⟨hfinite, hunits⟩ := isFinite_of_unpack hunpack
      rw [hunits]
      exact ⟨hfinite, Int.ofNat_le.2 hlower, Int.ofNat_le.2 hupper⟩

/-! ## Integers -/

theorem unpack_of_toNat {bits : BitVec Format.binary64.numBits} {f : Nat} (hlo : 2 ^ 52 ≤ m)
    (hhi : m < 2 ^ 53) (hpos : 0 < f) (hf : f < 2047) (h : bits.toNat = f * 2 ^ 52 + (m - 2 ^ 52)) :
    UnpackedFloat.unpack Format.binary64 bits = .finite .positive m (leastExponent - 1 + f)
      (by omega) := by
  have hsign : (unpackSign bits).toNat = 0 := by
    rw [toNat_unpackSign]
    omega
  have hexponent : (unpackExponent bits).toNat = f := by
    rw [toNat_unpackExponent]
    omega
  have hmantissa : (unpackMantissa bits).toNat = m - 2 ^ 52 := by
    rw [toNat_unpackMantissa]
    omega
  have hones : unpackExponent bits ≠ -1#_ := by
    intro heq
    have := hexponent.symm.trans (congrArg BitVec.toNat heq)
    simp at this
    omega
  have hzero : unpackExponent bits ≠ 0#_ := by
    intro heq
    have := hexponent.symm.trans (congrArg BitVec.toNat heq)
    simp at this
    omega
  have hwhole : (1#1 ++ unpackMantissa bits).toNat = m := by
    rw [BitVec.toNat_append, hmantissa, ← Nat.shiftLeft_add_eq_or_of_lt
      (by change m - 2 ^ 52 < 2 ^ 52; omega)]
    simp [Nat.shiftLeft_eq]
    omega
  have hpositive : UnpackedFloat.Sign.ofBitVec (unpackSign bits) = .positive := by
    rw [show unpackSign bits = 0#1 from BitVec.eq_of_toNat_eq hsign]
    rfl
  rw [UnpackedFloat.unpack, if_neg hones, if_neg hzero]
  simp only [hwhole, hexponent, hpositive]
  congr 1

/-- The double with the given bits. -/
theorem unpack_ofBits {f : Nat} (hlo : 2 ^ 52 ≤ m) (hhi : m < 2 ^ 53) (hpos : 0 < f)
    (hf : f ≤ 1076) :
    (Float.ofBits (f * 2 ^ 52 + (m - 2 ^ 52)).toUInt64).toModel.unpack =
      .finite .positive m (leastExponent - 1 + f) (by omega) := by
  have hbits : (f * 2 ^ 52 + (m - 2 ^ 52)).toUInt64.toBitVec.toNat = f * 2 ^ 52 + (m - 2 ^ 52) := by
    rw [UInt64.toNat_toBitVec]
    exact UInt64.toNat_ofNat_of_lt' (by change _ < 2 ^ 64; omega)
  change (Float.Model.pack (UnpackedFloat.unpack Format.binary64 _)).unpack = _
  rw [unpack_of_toNat hlo hhi hpos (by omega) hbits]
  exact unpack_pack hlo hhi (by omega) (by unfold leastExponent; omega)

theorem roundDiv_one (m : Nat) : roundDiv m 1 = m := by
  simp [roundDiv, Nat.mod_one]

/-- Integers of at most 53 bits are doubles. -/
theorem units_ofRatio {n : Nat} (hpos : 0 < n) (hn : n < 2 ^ 53) :
    (ofRatio false n 1).isFinite = true ∧ (parts (ofRatio false n 1)).units =
      (n * scale : Nat) := by
  have hlog : n.log2 ≤ 52 := by
    have := (Nat.log2_lt hpos.ne').2 hn
    omega
  have hone : (1 : Nat).log2 = 0 := rfl
  obtain ⟨hlo, hhi⟩ := log2_div (m := n * 2 ^ (52 - n.log2)) (k := 0)
    (by rw [log2_mul_two_pow hpos.ne']; omega)
  rw [Nat.pow_zero, Nat.div_one] at hlo hhi
  -- Scaled to 53 bits the quotient is a whole number, as the divisor is one.
  have hscaled : ∀ {e : Int} {k : Nat}, e = -k → scaled n 1 e = (n * 2 ^ k, 1) := by
    intro e k he
    unfold scaled
    split
    · obtain rfl : k = 0 := by omega
      simp [he]
    · rw [show (-e).toNat = k by omega]
      rfl
  have hdown : scaled n 1 (n.log2 - (1 : Nat).log2 - 53) = (n * 2 ^ (53 - n.log2), 1) :=
    hscaled (by rw [hone]; omega)
  have hround : scaled n 1 (n.log2 - 52) = (n * 2 ^ (52 - n.log2), 1) := hscaled (by omega)
  have hbits : ¬n * 2 ^ (53 - n.log2) / 1 < twoPow 53 := by
    rw [Nat.div_one, show 53 - n.log2 = 52 - n.log2 + 1 by omega, Nat.pow_succ, ← Nat.mul_assoc]
    change ¬_ < 2 ^ 53
    omega
  -- So nothing is rounded away.
  have hratio : ofRatio false n 1 = assemble ⟨false, n * 2 ^ (52 - n.log2), n.log2 - 52⟩ := by
    unfold ofRatio
    rw [if_neg hpos.ne']
    dsimp only
    rw [hdown, if_neg hbits, show (n.log2 : Int) - (1 : Nat).log2 - 53 + 1 =
      n.log2 - 52 by rw [hone]; omega,
      Int.max_eq_left (by unfold leastExponent; omega), hround, roundDiv_one]
    exact if_neg (by change _ ≠ 2 ^ 53; omega)
  -- The double has the leading bit of the significand left out.
  have hassemble : assemble ⟨false, n * 2 ^ (52 - n.log2), n.log2 - 52⟩ =
      Float.ofBits ((n.log2 + 1023) * 2 ^ 52 + (n * 2 ^ (52 - n.log2) - 2 ^ 52)).toUInt64 := by
    have hfield : ((n.log2 : Int) - 52 - leastExponent + 1).toNat = n.log2 + 1023 := by
      unfold leastExponent; omega
    unfold assemble
    dsimp only
    rw [if_neg (by change ¬_ < 2 ^ 52; omega), hfield, if_pos (by omega)]
    simp
  have hunpack : (ofRatio false n 1).toModel.unpack =
      .finite .positive (n * 2 ^ (52 - n.log2)) (n.log2 - 52) (by omega) := by
    have hexponent : leastExponent - 1 + (n.log2 + 1023 : Nat) = n.log2 - 52 := by
      unfold leastExponent; omega
    rw [hratio, hassemble, unpack_ofBits hlo hhi (by omega) (by omega), hexponent]
  obtain ⟨hfinite, hunits⟩ := isFinite_of_unpack hunpack
  refine ⟨hfinite, ?_⟩
  rw [hunits, Nat.mul_assoc, ← Nat.pow_add, scale_eq]
  congr 3
  unfold leastExponent
  omega

end Symphony.Number

namespace Symphony

open Number

variable {w : Value}

/-- Small positive integers are decimals. -/
theorem Value.toDec_of_pos {n : Nat} (hpos : 0 < n) (hn : n < 2 ^ 53) :
    ∃ x : Float, toDec n = .ok x ∧ x.isFinite = true ∧ (parts x).units = (n * scale : Nat) := by
  obtain ⟨hfinite, hunits⟩ := units_ofRatio hpos hn
  have hnonneg : decide ((n : Int) < 0) = false :=
    decide_eq_false (Int.not_lt.2 (Int.natCast_nonneg n))
  refine ⟨ofRatio false n 1, ?_, hfinite, hunits⟩
  simp only [toDec, ofInt?, hnonneg, Int.natAbs_natCast, hfinite, if_true]

/-- An index that has been checked is a number in its bounds. -/
theorem Routine.between_cases {n : Int} (h : between 0 w n = .ok true) :
    (∃ z, w.int? = some z ∧ 0 ≤ z ∧ z < n) ∨
      ∃ y, w = .dec y ∧ y.isFinite = true ∧ 0 ≤ (parts y).units ∧ (parts y).units < n * scale := by
  cases w with
  | int z => exact .inl ⟨z, rfl, between_int h⟩
  | bool b => exact .inl ⟨if b then 1 else 0, rfl, between_int (z := if b then 1 else 0) h⟩
  | str | complex => cases h
  | dec y =>
    right
    change Except.ok ((compareInt? 0 y).any Ordering.isLE &&
      ((compareInt? n y).map Ordering.swap).any Ordering.isLT) = _ at h
    obtain ⟨hlow, hhigh⟩ := Bool.and_eq_true_iff.1 (Except.ok.inj h)
    have hnan : y.isNaN = false := by
      by_contra hnan
      rw [Bool.not_eq_false] at hnan
      rw [compareInt?, if_pos hnan] at hlow
      cases hlow
    have hinf : y.isInf = false := by
      by_contra hinf
      rw [Bool.not_eq_false] at hinf
      rw [compareInt?, hnan, if_neg Bool.false_ne_true, if_pos hinf] at hlow hhigh
      split at hlow
      · cases hlow
      · rw [if_neg ‹_›] at hhigh
        cases hhigh
    have hfinite := isFinite_of_isInf hnan hinf
    rw [compareInt?_eq _ hfinite] at hlow hhigh
    refine ⟨y, rfl, hfinite, ?_, ?_⟩
    · by_contra hlt
      unfold compareOfLessAndEq at hlow
      rw [Int.zero_mul, if_neg (by omega), if_neg (by omega)] at hlow
      cases hlow
    · by_contra hle
      unfold compareOfLessAndEq at hhigh
      split_ifs at hhigh with hlt heq
      · cases hhigh
      · cases hhigh
      · omega

theorem Routine.pos_of_between {n : Int} (h : between 0 w n = .ok true) : 0 < n := by
  rcases between_cases h with ⟨z, -, hlo, hhi⟩ | ⟨y, -, -, hlo, hhi⟩
  · exact Int.lt_of_le_of_lt hlo hhi
  · exact pos_of_mul_pos_left (Int.lt_of_le_of_lt hlo hhi) (Int.natCast_nonneg scale)

/-- The slot that a decimal points to is below it. -/
theorem Slot.base_of_dec {x : Float} {s : Slot} (h : ofValue (.dec x) = .ok s) :
    s.base = floor x := by
  unfold ofValue at h
  dsimp only at h
  split at h
  · cases h
    rfl
  · cases h

/-- The address of an element with a checked index is in its array, or that of the next cell. -/
theorem Value.base_of_add {base n : Nat} {r : Value} {s : Slot} (hbase : 0 < base)
    (hn : base + n ≤ 2 ^ 53) (hw : Routine.between 0 w n = .ok true)
    (hadd : add (.int base) w = .ok r) (hs : Slot.ofValue r = .ok s) :
    base ≤ s.base ∧ s.base ≤ base + n := by
  rcases Routine.between_cases hw with ⟨z, hz, hlo, hhi⟩ | ⟨y, rfl, hy, hlo, hhi⟩
  · have hsum : r = .int (base + z) := by
      cases w with
      | int | bool =>
        cases hz
        cases hadd
        rfl
      | dec | str | complex => cases hz
    rw [hsum] at hs
    cases hs
    exact ⟨Int.le_add_of_nonneg_right hlo, Int.add_le_add_left hhi.le _⟩
  · have hpos := Routine.pos_of_between hw
    obtain ⟨x, hx, hfinite, hunits⟩ := toDec_of_pos hbase (by omega)
    change (toDec base).bind (fun x => .ok (.dec (x + y))) = .ok r at hadd
    rw [hx] at hadd
    cases hadd
    have hscale : ((base + n : Nat) * scale : Nat) = (base * scale : Nat) + (n : Int) * scale := by
      push_cast
      ring
    obtain ⟨-, hlower, hupper⟩ := add_between (a := base) (b := base + n) hfinite hy hbase hn
      (by omega) (by omega)
    rw [Slot.base_of_dec hs]
    constructor
    · exact le_floor_iff.2 (by exact_mod_cast hlower)
    · by_contra hlt
      have hfloor : ((base + n : Nat) : Int) + 1 ≤ floor (x + y) := by push_cast; omega
      have hunits := le_floor_iff.1 hfloor
      have hpos := scale_pos
      push_cast at hunits hupper
      nlinarith

end Symphony
