import Lox.Number
import Mathlib

namespace Lox.Number

open Float.Model Float.Model.UnpackedFloat

def Holds (em : ExtendedMantissa) (x : ℚ) : Prop :=
  match em.roundBit, em.stickyBit with
  | false, false => x = em.mantissa
  | false, true => em.mantissa < x ∧ x < em.mantissa + 1 / 2
  | true, false => x = em.mantissa + 1 / 2
  | true, true => em.mantissa + 1 / 2 < x ∧ x < em.mantissa + 1

theorem Holds.half {em : ExtendedMantissa} {x : ℚ} (h : Holds em x) :
    Holds em.shiftRightOne (x / 2) := by
  obtain ⟨m, r, s⟩ := em
  have parts : (2 * (m / 2 : ℕ) + (m % 2 : ℕ) : ℚ) = m := by exact_mod_cast Nat.div_add_mod m 2
  rcases Nat.mod_two_eq_zero_or_one m with parity | parity
  · rw [parity] at parts
    cases r <;> cases s <;>
      simp only [Holds, ExtendedMantissa.shiftRightOne, parity, Bool.or_self, Bool.or_true,
        Bool.true_or, bne_self_eq_false] at h ⊢ <;>
      grind
  · rw [parity] at parts
    cases r <;> cases s <;>
      simp only [Holds, ExtendedMantissa.shiftRightOne, parity, Bool.or_self, Bool.or_true,
        Bool.true_or] at h ⊢ <;>
      grind

theorem Holds.shift {em : ExtendedMantissa} {x : ℚ} (h : Holds em x) (k : ℕ) :
    Holds (em >>> k) (x / 2 ^ k) := by
  show Holds (Nat.repeat _ k em) _
  induction k with
  | zero => simpa [Nat.repeat] using h
  | succ k ih =>
      have next := ih.half
      rw [div_div, ← pow_succ] at next
      exact next

theorem Holds.bounds {em : ExtendedMantissa} {x : ℚ} (h : Holds em x) :
    em.mantissa ≤ x ∧ x < em.mantissa + 1 := by
  obtain ⟨m, r, s⟩ := em
  cases r <;> cases s <;> simp only [Holds] at h ⊢
  · constructor <;> linarith
  · constructor <;> linarith
  · constructor <;> linarith
  · constructor <;> linarith

/-- The whole number nearest to a number, the even one of two. -/
structure Rounded (x : ℚ) (n : ℕ) : Prop where
  close : |n - x| ≤ 1 / 2
  tie : |n - x| = 1 / 2 → Even n

theorem Rounded.of_lt {x : ℚ} {n : ℕ} (near : |n - x| < 1 / 2) : Rounded x n :=
  ⟨near.le, fun tie => absurd tie near.ne⟩

theorem Holds.rounded {em : ExtendedMantissa} {x : ℚ} (h : Holds em x) :
    Rounded x em.roundedMantissa := by
  obtain ⟨m, r, s⟩ := em
  cases r <;> cases s <;> simp only [Holds] at h <;>
    simp only [ExtendedMantissa.roundedMantissa, ExtendedMantissa.accuracy,
      Accuracy.roundToNearestEven]
  · apply Rounded.of_lt
    rw [h, sub_self, abs_zero]
    norm_num
  · apply Rounded.of_lt
    rw [abs_lt]
    constructor <;> linarith
  · -- In the middle the parity of the mantissa decides.
    have even : Even (m + m % 2) := by
      rw [Nat.even_iff]
      omega
    rw [h]
    refine ⟨?_, fun _ => even⟩
    rcases Nat.mod_two_eq_zero_or_one m with parity | parity
    · rw [parity, abs_le]
      push_cast
      constructor <;> linarith
    · rw [parity, abs_le]
      push_cast
      constructor <;> linarith
  · apply Rounded.of_lt
    rw [abs_lt]
    push_cast
    constructor <;> linarith

theorem holds_quotient (m : ℕ) {d : ℕ} (pos : 0 < d) :
    Holds (.ofMantissaAndAccuracy (m / d) (accuracyOfFraction (m % d) d)) (m / d : ℚ) := by
  have whole : (d * (m / d : ℕ) + (m % d : ℕ) : ℚ) = m := by exact_mod_cast Nat.div_add_mod m d
  have inside : ((m % d : ℕ) : ℚ) < d := by exact_mod_cast Nat.mod_lt m pos
  have unit : (0 : ℚ) < d := by exact_mod_cast pos
  have quotient : (m / d : ℚ) = (m / d : ℕ) + (m % d : ℕ) / d := by
    rw [← whole]
    field_simp
  rw [quotient]
  generalize m / d = q
  generalize m % d = r at *
  unfold accuracyOfFraction
  by_cases zero : r = 0
  · rw [if_pos zero, zero]
    simp [Holds, ExtendedMantissa.ofMantissaAndAccuracy]
  rw [if_neg zero]
  have positive : (0 : ℚ) < r / d := div_pos (by exact_mod_cast Nat.pos_of_ne_zero zero) unit
  rcases lt_trichotomy (2 * r) d with less | middle | greater
  · have less : (r / d : ℚ) < 1 / 2 := by
      have less : (2 * r : ℚ) < d := by exact_mod_cast less
      rw [div_lt_iff₀ unit]
      linarith
    rw [Nat.compare_eq_lt.mpr ‹_›]
    show (q : ℚ) < q + r / d ∧ (q + r / d : ℚ) < q + 1 / 2
    constructor <;> linarith
  · have middle : (r / d : ℚ) = 1 / 2 := by
      have middle : (2 * r : ℚ) = d := by exact_mod_cast middle
      rw [div_eq_iff unit.ne']
      linarith
    rw [Nat.compare_eq_eq.mpr ‹_›, middle]
    rfl
  · have greater : (1 / 2 : ℚ) < r / d := by
      have greater : (d : ℚ) < 2 * r := by exact_mod_cast greater
      rw [lt_div_iff₀ unit]
      linarith
    have below : (r / d : ℚ) < 1 := (div_lt_one unit).mpr inside
    rw [Nat.compare_eq_gt.mpr ‹_›]
    show (q + 1 / 2 : ℚ) < q + r / d ∧ (q + r / d : ℚ) < q + 1
    constructor <;> linarith

theorem Rounded.nearest {x : ℚ} {n : ℕ} (h : Rounded x n) (k : ℕ) :
    |n - x| ≤ |k - x| ∧ (|k - x| = |n - x| → k = n ∨ Even n) := by
  by_cases same : k = n
  · subst same
    exact ⟨le_rfl, fun _ => .inl rfl⟩
  · have apart : (1 : ℚ) ≤ |(k : ℚ) - n| := by
      have whole : (1 : ℤ) ≤ |(k : ℤ) - n| := Int.one_le_abs (by omega)
      exact_mod_cast whole
    have sides : |(k : ℚ) - n| ≤ |k - x| + |n - x| := by
      rw [abs_sub_comm (n : ℚ) x]
      exact abs_sub_le _ _ _
    have close := h.close
    refine ⟨by linarith, fun equal => .inr (h.tie ?_)⟩
    linarith

def limit : ℚ := (2 ^ 53 - 1 / 2) * 2 ^ (971 : ℤ)

/-- The multiple `n` of `2 ^ t` is nearest to `v`, and the scale is that of the doubles around
`v`. -/
structure Rounds (v : ℚ) (n : ℕ) (t : ℤ) : Prop where
  rounded : Rounded (v / 2 ^ t) n
  least : -1074 ≤ t
  below : v < 2 ^ 53 * 2 ^ t
  above : t = -1074 ∨ 2 ^ 52 * 2 ^ t ≤ v

namespace Rounds

variable {v : ℚ} {n : ℕ} {t : ℤ}

theorem le (h : Rounds v n t) : n ≤ 2 ^ 53 := by
  have unit : (0 : ℚ) < 2 ^ t := by positivity
  have below : v / 2 ^ t < 2 ^ 53 := (div_lt_iff₀ unit).mpr h.below
  have close := (abs_le.mp h.rounded.close).2
  have near : (n : ℚ) < 2 ^ 53 + 1 := by linarith
  have whole : n < 2 ^ 53 + 1 := by exact_mod_cast near
  omega

theorem normal (h : Rounds v n t) : t = -1074 ∨ 2 ^ 52 ≤ n := by
  refine h.above.imp_right fun above => ?_
  have unit : (0 : ℚ) < 2 ^ t := by positivity
  have above : 2 ^ 52 ≤ v / 2 ^ t := (le_div_iff₀ unit).mpr above
  have close := (abs_le.mp h.rounded.close).1
  have near : (2 : ℚ) ^ 52 < n + 1 := by linarith
  have whole : 2 ^ 52 < n + 1 := by exact_mod_cast near
  omega

theorem abs_multiple (a v : ℚ) (t : ℤ) : |a * 2 ^ t - v| = |a - v / 2 ^ t| * 2 ^ t := by
  have unit : (0 : ℚ) < 2 ^ t := by positivity
  rw [← abs_of_pos unit, ← abs_mul, abs_of_pos unit, sub_mul, div_mul_cancel₀ _ unit.ne']

theorem nearest_multiple (h : Rounds v n t) (k : ℕ) :
    |n * 2 ^ t - v| ≤ |k * 2 ^ t - v| ∧ (|k * 2 ^ t - v| = |n * 2 ^ t - v| → k = n ∨ Even n) := by
  have unit : (0 : ℚ) < 2 ^ t := by positivity
  obtain ⟨nearer, tie⟩ := h.rounded.nearest k
  rw [abs_multiple, abs_multiple]
  exact ⟨mul_le_mul_of_nonneg_right nearer unit.le,
    fun equal => tie (mul_right_cancel₀ unit.ne' equal)⟩

theorem nearer_of_finer (h : Rounds v n t) {m : ℕ} {q : ℤ} (digits : m < 2 ^ 53) (fine : q < t)
    (least : -1074 ≤ q) : |n * 2 ^ t - v| < |m * 2 ^ q - v| := by
  have above := h.above.resolve_left (by omega)
  have lower : (m * 2 ^ q : ℚ) < 2 ^ 52 * 2 ^ t := by
    have small : (m : ℚ) < 2 ^ 53 := by exact_mod_cast digits
    have step : (2 : ℚ) ^ q ≤ 2 ^ (t - 1) := zpow_le_zpow_right₀ (by norm_num) (by omega)
    have half : (2 : ℚ) ^ t = 2 * 2 ^ (t - 1) := by
      rw [← zpow_one_add₀ two_ne_zero]
      congr 1
      omega
    have pos : (0 : ℚ) < 2 ^ q := by positivity
    calc (m * 2 ^ q : ℚ) < 2 ^ 53 * 2 ^ q := mul_lt_mul_of_pos_right small pos
      _ ≤ 2 ^ 53 * 2 ^ (t - 1) := mul_le_mul_of_nonneg_left step (by norm_num)
      _ = 2 ^ 52 * 2 ^ t := by rw [half]; ring
  have nearer := (h.nearest_multiple (2 ^ 52)).1
  push_cast at nearer
  refine lt_of_le_of_lt nearer ?_
  rw [abs_of_nonpos (by linarith), abs_of_neg (by linarith)]
  linarith

theorem nearest (h : Rounds v n t) {m : ℕ} {q : ℤ} (digits : m < 2 ^ 53) (least : -1074 ≤ q) :
    |n * 2 ^ t - v| ≤ |m * 2 ^ q - v| ∧
      (|m * 2 ^ q - v| = |n * 2 ^ t - v| → (m * 2 ^ q : ℚ) = n * 2 ^ t ∨ Even n) := by
  rcases le_or_gt t q with coarse | fine
  · -- A number on a coarser scale is a multiple on this one.
    obtain ⟨k, rfl⟩ := Int.le.dest coarse
    have multiple : (m * 2 ^ (t + k) : ℚ) = (m * 2 ^ k : ℕ) * 2 ^ t := by
      rw [zpow_add₀ two_ne_zero, zpow_natCast]
      push_cast
      ring
    rw [multiple]
    obtain ⟨nearer, tie⟩ := h.nearest_multiple (m * 2 ^ k)
    exact ⟨nearer, fun equal => (tie equal).imp_left fun same => by rw [same]⟩
  · have farther := h.nearer_of_finer digits fine least
    exact ⟨farther.le, fun equal => absurd equal farther.ne'⟩

theorem lt_limit_iff (h : Rounds v n t) : v < limit ↔ t < 971 ∨ t = 971 ∧ n < 2 ^ 53 := by
  have last : (0 : ℚ) < 2 ^ (971 : ℤ) := by positivity
  unfold limit
  rcases lt_trichotomy t 971 with less | rfl | greater
  · have finer : (2 : ℚ) ^ t ≤ 2 ^ (970 : ℤ) := zpow_le_zpow_right₀ (by norm_num) (by omega)
    have half : (2 : ℚ) ^ (971 : ℤ) = 2 * 2 ^ (970 : ℤ) := zpow_one_add₀ two_ne_zero 970
    have below := h.below
    generalize (2 : ℚ) ^ (971 : ℤ) = unit at *
    generalize (2 : ℚ) ^ (970 : ℤ) = before at *
    exact iff_of_true (by linarith) (.inl less)
  · have close := abs_le.mp h.rounded.close
    rw [← div_lt_iff₀ last]
    constructor
    · intro lower
      have near : (n : ℚ) < 2 ^ 53 := by linarith
      exact .inr ⟨rfl, by exact_mod_cast near⟩
    · intro small
      have small : n + 1 ≤ 2 ^ 53 := by omega
      have most : (n : ℚ) + 1 ≤ 2 ^ 53 := by exact_mod_cast small
      refine lt_of_le_of_ne (by linarith) fun middle => ?_
      -- In the middle the even neighbour is the power of two.
      have next : (n : ℚ) + 1 = 2 ^ 53 := by linarith
      have even : Even n := by
        apply h.rounded.tie
        rw [middle, abs_of_neg (by linarith)]
        linarith
      have next : n + 1 = 2 ^ 53 := by exact_mod_cast next
      have parity := Nat.even_iff.mp even
      omega
  · have coarser : (2 : ℚ) ^ (972 : ℤ) ≤ 2 ^ t := zpow_le_zpow_right₀ (by norm_num) (by omega)
    have double : (2 : ℚ) ^ (972 : ℤ) = 2 * 2 ^ (971 : ℤ) := zpow_one_add₀ two_ne_zero 971
    have above := h.above.resolve_left (by omega)
    generalize (2 : ℚ) ^ (971 : ℤ) = unit at *
    generalize (2 : ℚ) ^ (972 : ℤ) = after at *
    exact iff_of_false (by linarith) (by omega)

end Rounds

section Round

variable {m : ℕ} {e : ℤ}

def target (m : ℕ) (e : ℤ) : ℤ := max (m.log2 + e - 52) (-1074)

theorem target_eq (m : ℕ) (e : ℤ) :
    Format.binary64.targetExponent (totalExponent m e) = target m e := by
  simp only [Format.targetExponent, totalExponent, Format.mantissaBits, Format.minExponent, target]
  norm_num
  omega

theorem shift_eq (m : ℕ) (e : ℤ) (a : Accuracy) :
    shiftToTargetExponent Format.binary64 m e a =
      (ExtendedMantissa.ofMantissaAndAccuracy m a >>> (target m e - e).toNat,
        e + (target m e - e).toNat) := by
  rw [← target_eq]
  rfl

theorem mantissa_of_accuracy (m : ℕ) (a : Accuracy) :
    (ExtendedMantissa.ofMantissaAndAccuracy m a).mantissa = m := by
  rcases a with _ | order
  · rfl
  · cases order <;> rfl

theorem rounds {a : Accuracy} {x : ℚ} (holds : Holds (.ofMantissaAndAccuracy m a) x)
    (fine : e ≤ target m e) :
    Rounds (x * 2 ^ e) (shiftToTargetExponent Format.binary64 m e a).1.roundedMantissa
      (target m e) := by
  rw [shift_eq]
  obtain ⟨k, scale⟩ := Int.le.dest fine
  have count : (target m e - e).toNat = k := by omega
  have digits : target m e = m.log2 + e - 52 ∨ target m e = -1074 := by
    unfold target
    omega
  have least : -1074 ≤ target m e := le_max_right _ _
  have room : m.log2 + e - 52 ≤ target m e := le_max_left _ _
  obtain ⟨floor, ceiling⟩ := holds.bounds
  rw [mantissa_of_accuracy] at floor ceiling
  refine ⟨?_, least, ?_, ?_⟩
  · have unit : (2 : ℚ) ^ e ≠ 0 := by positivity
    have same : x * 2 ^ e / 2 ^ target m e = x / 2 ^ k := by
      rw [← scale, zpow_add₀ two_ne_zero, zpow_natCast]
      field_simp
    rw [count, same]
    exact (holds.shift k).rounded
  · have whole : m + 1 ≤ 2 ^ (m.log2 + 1) := Nat.lt_log2_self
    have whole : (m : ℚ) + 1 ≤ 2 ^ (m.log2 + 1) := by exact_mod_cast whole
    have unit : (0 : ℚ) < 2 ^ e := by positivity
    calc x * 2 ^ e < 2 ^ (m.log2 + 1) * 2 ^ e := mul_lt_mul_of_pos_right (by linarith) unit
      _ = 2 ^ ((m.log2 + 1 : ℕ) + e) := by rw [zpow_add₀ two_ne_zero, zpow_natCast]
      _ ≤ 2 ^ (53 + target m e) := zpow_le_zpow_right₀ one_le_two (by push_cast; omega)
      _ = 2 ^ 53 * 2 ^ target m e := by rw [zpow_add₀ two_ne_zero]; rfl
  · refine digits.symm.imp_right fun full => ?_
    have nonzero : m ≠ 0 := by
      rintro rfl
      simp at full
      omega
    have whole : (2 ^ m.log2 : ℚ) ≤ m := by exact_mod_cast Nat.log2_self_le nonzero
    have unit : (0 : ℚ) < 2 ^ e := by positivity
    calc 2 ^ 52 * 2 ^ target m e = (2 : ℚ) ^ (52 + target m e) := by
          rw [zpow_add₀ two_ne_zero]; rfl
      _ = 2 ^ (m.log2 + e) := by rw [full]; congr 1; omega
      _ = 2 ^ m.log2 * 2 ^ e := by rw [zpow_add₀ two_ne_zero, zpow_natCast]
      _ ≤ x * 2 ^ e := mul_le_mul_of_nonneg_right (by linarith) unit.le

end Round

end Lox.Number
