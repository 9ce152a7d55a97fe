import Lox.Proofs.Number.Rounding

namespace Lox.Number

open Float.Model Float.Model.UnpackedFloat

/-- The double nearest to a number that is not negative, the one with an even mantissa of two.
Infinity takes the place of doubles beyond the greatest. -/
def Nearest (v : ℚ) (x : Float) : Prop :=
  Decimal.negative x = false ∧
    match Decimal.magnitude x with
    | .finite n t => v < limit ∧ ∀ y m q, Decimal.magnitude y = .finite m q →
        |n * 2 ^ t - v| ≤ |m * 2 ^ q - v| ∧
          (|m * 2 ^ q - v| = |n * 2 ^ t - v| → (m * 2 ^ q : ℚ) = n * 2 ^ t ∨ Even n)
    | .infinite => limit ≤ v
    | .nan => False

theorem bounds_of_magnitude {x : Float} {m : ℕ} {q : ℤ} (h : Decimal.magnitude x = .finite m q) :
    m < 2 ^ 53 ∧ -1074 ≤ q := by
  have hidden : Decimal.hiddenBit = 2 ^ 52 := rfl
  have fraction : x.toBits.toNat % 2 ^ 52 < 2 ^ 52 := Nat.mod_lt _ (by decide)
  unfold Decimal.magnitude at h
  rw [hidden] at h
  dsimp only at h
  split at h
  · cases h
    exact ⟨fraction.trans (by decide), le_rfl⟩
  · split at h <;> cases h
  · rename_i nonzero _
    cases h
    have positive : x.toBits.toNat / 2 ^ 52 % 2048 ≠ 0 := nonzero
    constructor
    · omega
    · omega

section Bits

variable {x : Float} {e m : ℕ} (bits : x.toBits.toNat = e * 2 ^ 52 + m) (small : m < 2 ^ 52)
include bits small

theorem fraction_of_bits : x.toBits.toNat % Decimal.hiddenBit = m := by
  show x.toBits.toNat % 2 ^ 52 = m
  omega

theorem field_of_bits (inside : e < 2048) : x.toBits.toNat / Decimal.hiddenBit % 2048 = e := by
  show x.toBits.toNat / 2 ^ 52 % 2048 = e
  omega

theorem negative_of_bits (inside : e < 2048) : Decimal.negative x = false := by
  have power : Decimal.scale 2 63 = 2 ^ 63 := rfl
  unfold Decimal.negative
  rw [power, beq_eq_false_iff_ne]
  omega

theorem magnitude_subnormal (least : e = 0) : Decimal.magnitude x = .finite m (-1074) := by
  unfold Decimal.magnitude
  rw [fraction_of_bits bits small, field_of_bits bits small (by omega), least]
  rfl

theorem magnitude_infinite (greatest : e = 2047) (zero : m = 0) :
    Decimal.magnitude x = .infinite := by
  unfold Decimal.magnitude
  rw [fraction_of_bits bits small, field_of_bits bits small (by omega), greatest, zero]
  rfl

theorem magnitude_normal (positive : e ≠ 0) (inside : e < 2047) :
    Decimal.magnitude x = .finite (2 ^ 52 + m) ((e : ℤ) - 1075) := by
  unfold Decimal.magnitude
  rw [fraction_of_bits bits small, field_of_bits bits small (by omega)]
  split
  · contradiction
  · omega
  · rfl

end Bits

theorem toNat_mantissa (x : Float) :
    (@unpackMantissa Format.binary64 x.toModel.toBits.toBitVec).toNat =
      x.toBits.toNat % 2 ^ 52 := by
  rw [unpackMantissa, BitVec.toNat_cast, BitVec.extractLsb_toNat]
  rfl

theorem toNat_exponent (x : Float) :
    (@unpackExponent Format.binary64 x.toModel.toBits.toBitVec).toNat =
      x.toBits.toNat / 2 ^ 52 % 2048 := by
  rw [unpackExponent, BitVec.toNat_cast, BitVec.extractLsb_toNat, Nat.shiftRight_eq_div_pow]
  rfl

theorem exponent_ne {x : Float} {e : BitVec 11} (other : x.toBits.toNat / 2 ^ 52 % 2048 ≠ e.toNat) :
    @unpackExponent Format.binary64 x.toModel.toBits.toBitVec ≠ e := by
  intro same
  rw [← toNat_exponent, same] at other
  exact other rfl

theorem sign_positive {x : Float} (positive : Decimal.negative x = false) :
    Sign.ofBitVec (@unpackSign Format.binary64 x.toModel.toBits.toBitVec) = .positive := by
  have power : Decimal.scale 2 63 = 2 ^ 63 := rfl
  have size : x.toBits.toNat < 2 ^ 64 := x.toBits.toNat_lt
  unfold Decimal.negative at positive
  rw [power, beq_eq_false_iff_ne] at positive
  apply if_pos
  apply BitVec.eq_of_toNat_eq
  rw [unpackSign, BitVec.toNat_cast, BitVec.extractLsb_toNat, Nat.shiftRight_eq_div_pow]
  show x.toBits.toNat / 2 ^ 63 % 2 = 0
  omega

theorem unpack_of_magnitude {x : Float} {m : ℕ} {q : ℤ} (positive : Decimal.negative x = false)
    (h : Decimal.magnitude x = .finite m q) (pos : 0 < m) :
    x.toModel.unpack = .finite .positive m q pos := by
  have fraction := toNat_mantissa x
  have field := toNat_exponent x
  have hidden : Decimal.hiddenBit = 2 ^ 52 := rfl
  unfold Decimal.magnitude at h
  rw [hidden] at h
  dsimp only at h
  unfold Float.Model.unpack UnpackedFloat.unpack
  dsimp only
  rw [sign_positive positive]
  split at h
  · rename_i zero
    cases h
    have least : @unpackExponent Format.binary64 x.toModel.toBits.toBitVec = 0#11 :=
      BitVec.eq_of_toNat_eq (field.trans zero)
    have nonzero : @unpackMantissa Format.binary64 x.toModel.toBits.toBitVec ≠ 0#52 := by
      intro zero
      rw [zero] at fraction
      exact pos.ne fraction
    rw [if_neg (exponent_ne (zero ▸ by decide)), if_pos least, dif_neg nonzero]
    simp only [fraction, field, zero]
    rfl
  · split at h <;> cases h
  · rename_i nonzero other
    cases h
    have digits : (1#1 ++ @unpackMantissa Format.binary64 x.toModel.toBits.toBitVec).toNat =
        2 ^ 52 + x.toBits.toNat % 2 ^ 52 := by
      rw [BitVec.toNat_append, ← Nat.shiftLeft_add_eq_or_of_lt (BitVec.isLt _), fraction]
      rfl
    have last : @unpackExponent Format.binary64 x.toModel.toBits.toBitVec ≠ -1#11 :=
      exponent_ne other
    have first : @unpackExponent Format.binary64 x.toModel.toBits.toBitVec ≠ 0#11 :=
      exponent_ne nonzero
    rw [if_neg last, if_neg first]
    simp only [digits, field]
    rfl

def double (f : UnpackedFloat) : Float := ⟨Float.Model.pack f⟩

theorem toNat_components (e : BitVec 11) (m : BitVec 52) :
    (packComponents Format.binary64 .positive e m).toNat = e.toNat * 2 ^ 52 + m.toNat := by
  show (Sign.positive.toBitVec ++ e ++ m).toNat = _
  rw [BitVec.toNat_append, ← Nat.shiftLeft_add_eq_or_of_lt m.isLt, Nat.shiftLeft_eq,
    BitVec.toNat_append]
  simp [Sign.toBitVec]

section Pack

variable {m : ℕ} {e : ℤ} (pos : 0 < m)

theorem pack_eq : UnpackedFloat.pack Format.binary64 (.finite .positive m e pos) =
    if 2 ^ 11 ≤ (e + 1023 + 52).toNat + 1 then packedInfinity Format.binary64 .positive
    else if m.log2 + 1 = 53 then
      packComponents Format.binary64 .positive (.ofNat 11 (e + 1023 + 52).toNat) (.ofNat 52 m)
    else packComponents Format.binary64 .positive 0 (.ofNat 52 m) := rfl

theorem toBits_double (f : UnpackedFloat) :
    (double f).toBits.toNat = (UnpackedFloat.pack Format.binary64 f).toNat := rfl

theorem toBits_infinite (large : 972 ≤ e) :
    (double (.finite .positive m e pos)).toBits.toNat = 2047 * 2 ^ 52 + 0 := by
  rw [toBits_double, pack_eq, if_pos (by omega)]
  rfl

theorem toBits_normal (least : -1074 ≤ e) (most : e ≤ 971) (digits : 2 ^ 52 ≤ m) (small : m < 2 ^ 53) :
    (double (.finite .positive m e pos)).toBits.toNat =
      (e + 1075).toNat * 2 ^ 52 + (m - 2 ^ 52) := by
  have log : m.log2 = 52 := (Nat.log2_eq_iff pos.ne').mpr ⟨digits, small⟩
  rw [toBits_double, pack_eq, if_neg (by omega), if_pos (by omega), toNat_components,
    BitVec.toNat_ofNat, BitVec.toNat_ofNat]
  omega

theorem toBits_subnormal (least : e = -1074) (small : m < 2 ^ 52) :
    (double (.finite .positive m e pos)).toBits.toNat = 0 * 2 ^ 52 + m := by
  have log : m.log2 < 52 := (Nat.log2_lt pos.ne').mpr small
  rw [toBits_double, pack_eq, if_neg (by omega), if_neg (by omega), toNat_components,
    BitVec.toNat_ofNat, Nat.mod_eq_of_lt small]
  rfl

theorem double_finite (least : -1074 ≤ e) (small : m < 2 ^ 53) (digits : e = -1074 ∨ 2 ^ 52 ≤ m) :
    Decimal.negative (double (.finite .positive m e pos)) = false ∧
      Decimal.magnitude (double (.finite .positive m e pos)) =
        if e ≤ 971 then .finite m e else .infinite := by
  by_cases most : e ≤ 971
  · rw [if_pos most]
    by_cases full : 2 ^ 52 ≤ m
    · have bits := toBits_normal pos least most full small
      have fraction : m - 2 ^ 52 < 2 ^ 52 := by omega
      refine ⟨negative_of_bits bits fraction (by omega), ?_⟩
      have mantissa : 2 ^ 52 + (m - 2 ^ 52) = m := by omega
      have exponent : ((e + 1075).toNat : ℤ) - 1075 = e := by omega
      rw [magnitude_normal bits fraction (by omega) (by omega), mantissa, exponent]
    · obtain rfl := digits.resolve_right full
      have bits := toBits_subnormal pos rfl (by omega)
      exact ⟨negative_of_bits bits (by omega) (by decide), magnitude_subnormal bits (by omega) rfl⟩
  · rw [if_neg most]
    have bits := toBits_infinite (e := e) pos (by omega)
    exact ⟨negative_of_bits bits (by decide) (by decide), magnitude_infinite bits (by decide) rfl rfl⟩

end Pack

def unpacked (n : ℕ) (t : ℤ) : UnpackedFloat :=
  if zero : n = 0 then .zero .positive else .finite .positive n t (Nat.pos_of_ne_zero zero)

def carried (n : ℕ) (t : ℤ) : UnpackedFloat :=
  if n < 2 ^ 53 then unpacked n t else unpacked (2 ^ 52) (t + 1)

theorem Rounds.magnitude {v : ℚ} {n : ℕ} {t : ℤ} (h : Rounds v n t) :
    Decimal.negative (double (carried n t)) = false ∧
      Decimal.magnitude (double (carried n t)) =
        if v < limit then if n < 2 ^ 53 then .finite n t else .finite (2 ^ 52) (t + 1)
        else .infinite := by
  have least := h.least
  have normal := h.normal
  simp only [h.lt_limit_iff]
  unfold carried
  by_cases zero : n = 0
  · subst zero
    obtain rfl := normal.resolve_right (by decide)
    exact ⟨rfl, rfl⟩
  by_cases small : n < 2 ^ 53
  · obtain ⟨positive, magnitude⟩ :=
      double_finite (Nat.pos_of_ne_zero zero) least small normal
    rw [if_pos small, if_pos small, unpacked, dif_neg zero]
    refine ⟨positive, magnitude.trans (if_congr ?_ rfl rfl)⟩
    omega
  · obtain ⟨positive, magnitude⟩ :=
      double_finite (m := 2 ^ 52) (e := t + 1) (by decide) (by omega) (by decide) (.inr le_rfl)
    rw [if_neg small, if_neg small]
    refine ⟨positive, magnitude.trans (if_congr ?_ rfl rfl)⟩
    omega

theorem Rounds.nearest_carried {v : ℚ} {n : ℕ} {t : ℤ} (h : Rounds v n t) :
    Nearest v (double (carried n t)) := by
  obtain ⟨positive, magnitude⟩ := h.magnitude
  refine ⟨positive, ?_⟩
  rw [magnitude]
  by_cases lower : v < limit
  · rw [if_pos lower]
    have others : ∀ y m q, Decimal.magnitude y = .finite m q → _ := fun y m q double =>
      h.nearest (bounds_of_magnitude double).1 (bounds_of_magnitude double).2
    by_cases small : n < 2 ^ 53
    · rw [if_pos small]
      exact ⟨lower, others⟩
    · rw [if_neg small]
      -- Rounding up gave one digit too many: the mantissa cut short stands for the same number.
      obtain rfl : n = 2 ^ 53 := le_antisymm h.le (not_lt.mp small)
      have same : ((2 ^ 52 : ℕ) * 2 ^ (t + 1) : ℚ) = (2 ^ 53 : ℕ) * 2 ^ t := by
        rw [zpow_add_one₀ two_ne_zero]
        push_cast
        ring
      refine ⟨lower, fun y m q double => ?_⟩
      rw [same]
      exact ⟨(others y m q double).1, fun _ => .inr (by decide)⟩
  · rw [if_neg lower]
    exact not_lt.mp lower

section Round

variable {m : ℕ} {e : ℤ}

theorem shift_carried {n : ℕ} {t : ℤ} (least : -1074 ≤ t) (small : n ≤ 2 ^ 53) :
    let second := shiftToTargetExponent Format.binary64 n t .exact
    unpacked second.1.mantissa second.2 = carried n t := by
  rw [shift_eq]
  unfold carried
  rcases small.lt_or_eq with small | rfl
  · have digits : n.log2 < 53 := by
      by_cases zero : n = 0
      · simp [zero]
      · exact (Nat.log2_lt zero).mpr small
    have unshifted : (target n t - t).toNat = 0 := by
      unfold target
      omega
    rw [unshifted, if_pos small]
    simp [HShiftRight.hShiftRight, Nat.repeat, ExtendedMantissa.ofMantissaAndAccuracy]
  · have one : (target (2 ^ 53) t - t).toNat = 1 := by
      unfold target
      rw [Nat.log2_two_pow]
      omega
    rw [one]
    rfl

theorem roundWithAccuracy_eq {n : ℕ} {t : ℤ} {a : Accuracy}
    (mantissa : (shiftToTargetExponent Format.binary64 m e a).1.roundedMantissa = n)
    (scale : (shiftToTargetExponent Format.binary64 m e a).2 = t)
    (least : -1074 ≤ t) (small : n ≤ 2 ^ 53) :
    roundWithAccuracy Format.binary64 .positive m e a = carried n t := by
  rw [← shift_carried least small, ← mantissa, ← scale]
  rfl

theorem roundWithAccuracy_nearest {a : Accuracy} {x : ℚ}
    (holds : Holds (.ofMantissaAndAccuracy m a) x) (fine : e ≤ target m e) :
    Nearest (x * 2 ^ e) (double (roundWithAccuracy Format.binary64 .positive m e a)) := by
  have first := rounds holds fine
  have scale : (shiftToTargetExponent Format.binary64 m e a).2 = target m e := by
    rw [shift_eq]
    dsimp only
    omega
  rw [roundWithAccuracy_eq rfl scale first.least first.le]
  exact first.nearest_carried

theorem roundWithAccuracy_exact (least : -1074 ≤ e) (digits : 2 ^ 52 ≤ m) (small : m < 2 ^ 53) :
    roundWithAccuracy Format.binary64 .positive m e .exact = unpacked m e := by
  have log : m.log2 = 52 := (Nat.log2_eq_iff (by omega)).mpr ⟨digits, small⟩
  have unshifted : (target m e - e).toNat = 0 := by
    unfold target
    omega
  have first : shiftToTargetExponent Format.binary64 m e .exact = (⟨m, false, false⟩, e) := by
    rw [shift_eq, unshifted]
    simp [HShiftRight.hShiftRight, Nat.repeat, ExtendedMantissa.ofMantissaAndAccuracy]
  rw [roundWithAccuracy_eq (n := m) (t := e) (by rw [first]; rfl) (by rw [first]) least small.le,
    carried, if_pos small]

end Round

theorem le_quotient {m₁ m₂ k : ℕ} (pos₁ : 0 < m₁) (pos₂ : 0 < m₂)
    (enough : 53 + m₂.log2 ≤ m₁.log2 + k) : 2 ^ 52 ≤ m₁ * 2 ^ k / m₂ := by
  rw [Nat.le_div_iff_mul_le pos₂]
  calc 2 ^ 52 * m₂ ≤ 2 ^ 52 * 2 ^ (m₂.log2 + 1) := Nat.mul_le_mul_left _ Nat.lt_log2_self.le
    _ = 2 ^ (53 + m₂.log2) := by rw [← pow_add]; congr 1; omega
    _ ≤ 2 ^ (m₁.log2 + k) := Nat.pow_le_pow_right (by decide) enough
    _ = 2 ^ m₁.log2 * 2 ^ k := pow_add 2 _ _
    _ ≤ m₁ * 2 ^ k := Nat.mul_le_mul_right _ (Nat.log2_self_le pos₁.ne')

theorem div_nearest {m₁ m₂ : ℕ} (e₁ e₂ : ℤ) (pos₁ : 0 < m₁) (pos₂ : 0 < m₂) :
    Nearest (m₁ * 2 ^ e₁ / (m₂ * 2 ^ e₂)) (double (UnpackedFloat.div Format.binary64
      (.finite .positive m₁ e₁ pos₁) (.finite .positive m₂ e₂ pos₂))) := by
  obtain ⟨t, scale⟩ : ∃ t, t = min (e₁ - e₂)
      (Format.binary64.targetExponent (totalExponent m₁ e₁ - totalExponent m₂ e₂)) := ⟨_, rfl⟩
  obtain ⟨k, shift⟩ : ∃ k : ℕ, t + k = e₁ - e₂ := Int.le.dest (scale ▸ min_le_left _ _)
  have quotient : divCore Format.binary64 m₁ e₁ m₂ e₂ =
      (m₁ * 2 ^ k / m₂, t, accuracyOfFraction (m₁ * 2 ^ k % m₂) m₂) := by
    have count : (e₁ - e₂ - t).toNat = k := by omega
    unfold divCore
    rw [← scale]
    dsimp only
    rw [count, Nat.shiftLeft_eq]
  have value : ((m₁ * 2 ^ k : ℕ) / m₂ * 2 ^ t : ℚ) = m₁ * 2 ^ e₁ / (m₂ * 2 ^ e₂) := by
    have exponent : e₁ = t + k + e₂ := by omega
    rw [exponent, zpow_add₀ two_ne_zero, zpow_add₀ two_ne_zero, zpow_natCast]
    push_cast
    field_simp
  have fine : t ≤ target (m₁ * 2 ^ k / m₂) t := by
    have limits : t ≤ max (m₁.log2 + e₁ - (m₂.log2 + e₂) - 53) (-1074) := by
      rw [scale]
      refine (min_le_right _ _).trans (le_of_eq ?_)
      simp only [Format.targetExponent, totalExponent, Format.mantissaBits, Format.minExponent]
      norm_num
      omega
    rcases le_max_iff.mp limits with digits | least
    · have enough : 53 + m₂.log2 ≤ m₁.log2 + k := by omega
      have full := le_quotient pos₁ pos₂ enough
      have log : 52 ≤ (m₁ * 2 ^ k / m₂).log2 := (Nat.le_log2 (by omega)).mpr full
      exact le_max_of_le_left (by omega)
    · exact le_max_of_le_right least
  have nearest := roundWithAccuracy_nearest (holds_quotient (m₁ * 2 ^ k) pos₂) fine
  rw [value] at nearest
  unfold UnpackedFloat.div
  dsimp only
  rw [quotient]
  exact nearest

end Lox.Number
