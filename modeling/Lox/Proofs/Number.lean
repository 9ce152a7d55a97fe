import Lox.Proofs.Number.Double

namespace Lox.Number

open Float.Model Float.Model.UnpackedFloat

theorem unpack_powerOfTen {k : ℕ} (small : k < Float.exactlyRepresentablePowersOfTen.size) :
    ∃ (m : ℕ) (e : ℤ) (pos : 0 < m), (m * 2 ^ e : ℚ) = 10 ^ k ∧
      Float.exactlyRepresentablePowersOfTen[k].toModel.unpack = .finite .positive m e pos := by
  have table : ∀ k : Fin 23, Decimal.negative Float.exactlyRepresentablePowersOfTen[k.1] = false ∧
      Decimal.magnitude Float.exactlyRepresentablePowersOfTen[k.1] =
        .finite (10 ^ k.1 * 2 ^ 52 / 2 ^ (10 ^ k.1).log2) ((10 ^ k.1).log2 - 52) := by
    decide +kernel
  have exact : ∀ k : Fin 23, 10 ^ k.1 * 2 ^ 52 / 2 ^ (10 ^ k.1).log2 * 2 ^ (10 ^ k.1).log2 =
      10 ^ k.1 * 2 ^ 52 := by
    decide +kernel
  obtain ⟨positive, magnitude⟩ := table ⟨k, small⟩
  have whole := exact ⟨k, small⟩
  dsimp only at positive magnitude whole
  have pos : 0 < 10 ^ k * 2 ^ 52 / 2 ^ (10 ^ k).log2 := by
    apply Nat.pos_of_ne_zero
    intro zero
    rw [zero, zero_mul] at whole
    exact absurd whole (by positivity)
  refine ⟨_, _, pos, ?_, unpack_of_magnitude positive magnitude pos⟩
  rw [zpow_sub₀ two_ne_zero, zpow_natCast, ← mul_div_assoc, div_eq_iff (by positivity)]
  exact_mod_cast whole

theorem toFloat_eq {m k : ℕ} (digits : 52 = m.log2 + k) (low : 2 ^ 52 ≤ m * 2 ^ k)
    (high : m * 2 ^ k < 2 ^ 53) (pos : 0 < m) (small : m < 2 ^ 53) :
    m.toUInt64.toFloat = double (unpacked (m * 2 ^ k) (-k)) := by
  have word : m.toUInt64.toNat = m := Nat.mod_eq_of_lt (small.trans (by decide))
  have shift : (0 - target m 0).toNat = k := by
    unfold target
    omega
  show double (UnpackedFloat.normalize Format.binary64 (m.toUInt64.toNat : ℤ) 0 .positive) = _
  rw [word]
  unfold UnpackedFloat.normalize
  rw [Int.compare_eq_gt.mpr (by exact_mod_cast pos)]
  show double (UnpackedFloat.round Format.binary64 .positive m 0) = _
  unfold UnpackedFloat.round decreaseExponent
  rw [target_eq]
  dsimp only
  rw [shift, Nat.shiftLeft_eq, zero_sub, roundWithAccuracy_exact (by omega) low high]

theorem unpack_toFloat {m : ℕ} (pos : 0 < m) (small : m < 2 ^ 53) :
    ∃ (n : ℕ) (e : ℤ) (above : 0 < n), (n * 2 ^ e : ℚ) = m ∧
      m.toUInt64.toFloat.toModel.unpack = .finite .positive n e above := by
  have log : m.log2 ≤ 52 := Nat.lt_succ_iff.mp ((Nat.log2_lt pos.ne').mpr small)
  obtain ⟨k, digits⟩ := Nat.exists_eq_add_of_le log
  have low : 2 ^ 52 ≤ m * 2 ^ k := by
    calc 2 ^ 52 = 2 ^ m.log2 * 2 ^ k := by rw [← pow_add, digits]
      _ ≤ m * 2 ^ k := Nat.mul_le_mul_right _ (Nat.log2_self_le pos.ne')
  have high : m * 2 ^ k < 2 ^ 53 := by
    calc m * 2 ^ k < 2 ^ (m.log2 + 1) * 2 ^ k :=
          Nat.mul_lt_mul_of_pos_right Nat.lt_log2_self (by positivity)
      _ = 2 ^ 53 := by rw [← pow_add]; congr 1; omega
  have above : 0 < m * 2 ^ k := by positivity
  have value : ((m * 2 ^ k : ℕ) * 2 ^ (-k : ℤ) : ℚ) = m := by
    rw [zpow_neg, zpow_natCast]
    push_cast
    field_simp
  have float := toFloat_eq digits low high pos small
  obtain ⟨positive, magnitude⟩ :=
    double_finite (e := -k) above (by omega) high (.inr low)
  rw [if_pos (by omega)] at magnitude
  rw [unpacked, dif_neg above.ne'] at float
  rw [← float] at positive magnitude
  exact ⟨_, _, above, value, unpack_of_magnitude positive magnitude above⟩

theorem nearest_zero {v : ℚ} (nonneg : 0 ≤ v) (tiny : v < 2 ^ (-1075 : ℤ)) :
    Nearest v (double (.zero .positive)) := by
  have step : (2 : ℚ) ^ (-1074 : ℤ) = 2 * 2 ^ (-1075 : ℤ) := zpow_one_add₀ two_ne_zero (-1075)
  have unit : (0 : ℚ) < 2 ^ (-1074 : ℤ) := by positivity
  have rounded : Rounded (v / 2 ^ (-1074 : ℤ)) 0 := by
    apply Rounded.of_lt
    rw [Nat.cast_zero, zero_sub, abs_neg, abs_of_nonneg (div_nonneg nonneg unit.le),
      div_lt_iff₀ unit, step]
    linarith
  have rounds : Rounds v 0 (-1074) := ⟨rounded, le_rfl, by linarith, .inl rfl⟩
  exact rounds.nearest_carried

theorem quotient_nearest {x y : Float} {m₁ m₂ : ℕ} {e₁ e₂ : ℤ} {pos₁ : 0 < m₁} {pos₂ : 0 < m₂}
    (left : x.toModel.unpack = .finite .positive m₁ e₁ pos₁)
    (right : y.toModel.unpack = .finite .positive m₂ e₂ pos₂) :
    Nearest (m₁ * 2 ^ e₁ / (m₂ * 2 ^ e₂)) (x / y) := by
  show Nearest _ (double (UnpackedFloat.div Format.binary64 x.toModel.unpack y.toModel.unpack))
  rw [left, right]
  exact div_nearest e₁ e₂ pos₁ pos₂

theorem quotient_zero {x y : Float} {m₂ : ℕ} {e₂ : ℤ} {pos₂ : 0 < m₂}
    (left : x.toModel.unpack = .zero .positive)
    (right : y.toModel.unpack = .finite .positive m₂ e₂ pos₂) : Nearest 0 (x / y) := by
  show Nearest _ (double (UnpackedFloat.div Format.binary64 x.toModel.unpack y.toModel.unpack))
  rw [left, right]
  exact nearest_zero le_rfl (by positivity)

theorem mul_positive {m₁ m₂ : ℕ} (e₁ e₂ : ℤ) (pos₁ : 0 < m₁) (pos₂ : 0 < m₂) :
    UnpackedFloat.mul Format.binary64 (.finite .positive m₁ e₁ pos₁) (.finite .positive m₂ e₂ pos₂) =
      roundWithAccuracy Format.binary64 .positive (m₁ * m₂) (e₁ + e₂) .exact := rfl

theorem lt_of_tiny {m k : ℕ} (tiny : (-k : ℤ) < -(2 ^ 11 + m.log2)) :
    (m / 10 ^ k : ℚ) < 2 ^ (-1075 : ℤ) := by
  have digits : (m : ℚ) < 2 ^ (m.log2 + 1) := by exact_mod_cast Nat.lt_log2_self
  rw [div_lt_iff₀ (by positivity)]
  calc (m : ℚ) < 2 ^ ((m.log2 + 1 : ℕ) : ℤ) := by rwa [zpow_natCast]
    _ ≤ 2 ^ (-1075 + k : ℤ) := zpow_le_zpow_right₀ one_le_two (by push_cast; omega)
    _ = 2 ^ (-1075 : ℤ) * 2 ^ k := by rw [zpow_add₀ two_ne_zero, zpow_natCast]
    _ ≤ 2 ^ (-1075 : ℤ) * 10 ^ k :=
      mul_le_mul_of_nonneg_left (pow_le_pow_left₀ (by norm_num) (by norm_num) k) (by positivity)

theorem whole_nearest {m : ℕ} (pos : 0 < m) :
    Nearest m (double (roundWithAccuracy Format.binary64 .positive (m * 2 ^ 53) (-53) .exact)) := by
  have fine : -53 ≤ target (m * 2 ^ 53) (-53) := by
    have digits : 53 ≤ (m * 2 ^ 53).log2 :=
      (Nat.le_log2 (by omega)).mpr (Nat.le_mul_of_pos_left _ pos)
    exact le_max_of_le_left (by omega)
  have holds : Holds (.ofMantissaAndAccuracy (m * 2 ^ 53) .exact) (m * 2 ^ 53 : ℕ) := rfl
  have nearest := roundWithAccuracy_nearest holds fine
  have value : ((m * 2 ^ 53 : ℕ) * 2 ^ (-53 : ℤ) : ℚ) = m := by
    push_cast
    rw [mul_assoc]
    norm_num
  rw [value] at nearest
  exact nearest

theorem model_ofScientific_nearest (m k : ℕ) :
    Nearest (m / 10 ^ k) (double (UnpackedFloat.ofScientific Format.binary64 m (-k))) := by
  unfold UnpackedFloat.ofScientific
  by_cases zero : m = 0
  · rw [dif_pos zero, zero, Nat.cast_zero, zero_div]
    exact nearest_zero le_rfl (by positivity)
  have pos := Nat.pos_of_ne_zero zero
  rw [dif_neg zero, if_neg (by show ¬ (2 : ℤ) ^ 11 < -k; omega)]
  by_cases tiny : (-k : ℤ) < -(2 ^ Format.binary64.exponentBits + m.log2)
  · rw [if_pos tiny]
    exact nearest_zero (by positivity) (lt_of_tiny tiny)
  rw [if_neg tiny]
  by_cases whole : (0 : ℤ) ≤ -k
  · obtain rfl : k = 0 := by omega
    have mantissa : m <<< Format.binary64.mantissaBits * 10 ^ (-((0 : ℕ) : ℤ)).toNat = m * 2 ^ 53 :=
      (mul_one _).trans (Nat.shiftLeft_eq m 53)
    have exponent : -(Format.binary64.mantissaBits : ℤ) + 0 = -53 := by decide
    rw [if_pos whole, mul_positive, mantissa, exponent, pow_zero, div_one]
    exact whole_nearest pos
  · rw [if_neg whole]
    have power : (-(-k : ℤ)).toNat = k := by omega
    have nearest := div_nearest 0 0 pos (by positivity : 0 < 10 ^ k)
    simp only [zpow_zero, mul_one, Nat.cast_pow, Nat.cast_ofNat] at nearest
    simp only [power]
    exact nearest

theorem ofScientific_nearest (m k : ℕ) : Nearest (m / 10 ^ k) (Float.ofScientific m true k) := by
  unfold Float.ofScientific
  by_cases fast : m < 2 ^ 53 ∧ k ≤ 22
  · rw [dif_pos fast]
    dsimp only
    rw [if_pos rfl]
    obtain ⟨m₂, e₂, pos₂, power, right⟩ := unpack_powerOfTen (k := k) (Nat.lt_succ_of_le fast.2)
    by_cases zero : m = 0
    · subst zero
      rw [Nat.cast_zero, zero_div]
      exact quotient_zero rfl right
    · obtain ⟨m₁, e₁, pos₁, value, left⟩ := unpack_toFloat (Nat.pos_of_ne_zero zero) fast.1
      rw [← value, ← power]
      exact quotient_nearest left right
  · rw [dif_neg fast]
    dsimp only
    rw [if_pos rfl, Int.negOfNat_eq]
    exact model_ofScientific_nearest m k

theorem foldl_digits (es : List Char) (n : ℕ) :
    es.foldl (fun n d => 10 * n + (d.toNat - '0'.toNat)) n =
      n * 10 ^ es.length + naturalOfDigits es := by
  induction es generalizing n with
  | nil => simp [naturalOfDigits]
  | cons d es ih =>
      unfold naturalOfDigits
      rw [List.foldl_cons, List.foldl_cons, ih, ih, List.length_cons, pow_succ]
      ring

theorem naturalOfDigits_append (ds es : List Char) :
    naturalOfDigits (ds ++ es) = naturalOfDigits ds * 10 ^ es.length + naturalOfDigits es := by
  rw [← foldl_digits]
  exact List.foldl_append

theorem ofDigits_nearest (whole fraction : List Char) :
    Nearest (naturalOfDigits whole + naturalOfDigits fraction / 10 ^ fraction.length)
      (ofDigits whole fraction) := by
  have nearest := ofScientific_nearest (naturalOfDigits (whole ++ fraction)) fraction.length
  have value : (naturalOfDigits (whole ++ fraction) / 10 ^ fraction.length : ℚ) =
      naturalOfDigits whole + naturalOfDigits fraction / 10 ^ fraction.length := by
    rw [naturalOfDigits_append]
    push_cast
    field_simp
  rw [value] at nearest
  exact nearest

end Lox.Number
