import Lox.Proofs.Number.Double

namespace Lox

/-! ## Rounding has one result -/

namespace Number

theorem Rounded.unique {x : ℚ} {n k : ℕ} (h : Rounded x n) (h' : Rounded x k) : n = k := by
  obtain ⟨nearer, tie⟩ := h.nearest k
  obtain ⟨nearer', tie'⟩ := h'.nearest n
  have equal := le_antisymm nearer nearer'
  by_contra other
  have even := Nat.even_iff.mp ((tie equal.symm).resolve_left fun same => other same.symm)
  have even' := Nat.even_iff.mp ((tie' equal).resolve_left other)
  have apart : |(n : ℚ) - k| ≤ 1 := by
    have sides := abs_sub_le (n : ℚ) x k
    rw [abs_sub_comm x] at sides
    linarith [h.close, h'.close]
  have apart : |(n : ℤ) - k| ≤ 1 := by exact_mod_cast apart
  rw [abs_le] at apart
  omega

theorem Rounds.le_scale {v : ℚ} {n n' : ℕ} {t t' : ℤ} (h : Rounds v n t) (h' : Rounds v n' t') :
    t' ≤ t := by
  by_contra greater
  have above := h'.above.resolve_left (by have := h.least; omega)
  have step : (2 : ℚ) ^ (t + 1) ≤ 2 ^ t' := zpow_le_zpow_right₀ one_le_two (by omega)
  rw [zpow_add_one₀ two_ne_zero] at step
  have below := h.below
  generalize (2 : ℚ) ^ t = unit at *
  generalize (2 : ℚ) ^ t' = unit' at *
  linarith

theorem Rounds.unique {v : ℚ} {n n' : ℕ} {t t' : ℤ} (h : Rounds v n t) (h' : Rounds v n' t') :
    n = n' ∧ t = t' := by
  obtain rfl : t = t' := le_antisymm (h'.le_scale h) (h.le_scale h')
  exact ⟨h.rounded.unique h'.rounded, rfl⟩

end Number

namespace Decimal

open Number

def value (d : Decimal) : ℚ := d.significand * 10 ^ d.exponent

theorem scale_eq {base : ℕ} (pos : 0 < base) (e : ℤ) :
    (scale base e : ℚ) = base ^ e * scale base (-e) := by
  have unit : (base : ℚ) ≠ 0 := by exact_mod_cast pos.ne'
  obtain ⟨n, rfl | rfl⟩ := e.eq_nat_or_neg
  · have below : (-(n : ℤ)).toNat = 0 := by omega
    simp [scale, below]
  · have below : (-(n : ℤ)).toNat = 0 := by omega
    simp [scale, below, unit]

theorem scale_pos {base : ℕ} (pos : 0 < base) (e : ℤ) : 0 < scale base e := Nat.pow_pos pos

theorem lt_pow_digitCount (n : ℕ) : n < 10 ^ digitCount n :=
  (Nat.length_toDigits_le_iff (by decide) Nat.length_toDigits_pos).mp le_rfl

theorem pow_digitCount_le {n : ℕ} (pos : 0 < n) : 10 ^ (digitCount n - 1) ≤ n := by
  have positive : 0 < digitCount n := Nat.length_toDigits_pos
  by_cases one : digitCount n = 1
  · rw [one]
    exact pos
  · by_contra less
    have short : digitCount n ≤ digitCount n - 1 :=
      (Nat.length_toDigits_le_iff (by decide) (by omega)).mpr (not_le.mp less)
    omega

namespace Interval

structure Spans (i : Interval) (low value high : ℚ) : Prop where
  unit : 0 < i.unit
  low : i.low = low * i.unit
  value : i.value = value * i.unit
  high : i.high = high * i.unit

/-- Whether a number lies in an interval. -/
def Inside (i : Interval) (low high v : ℚ) : Prop :=
  if i.closed then low ≤ v ∧ v ≤ high else low < v ∧ v < high

theorem Inside.of_lt {i : Interval} {low high v : ℚ} (lower : low < v) (upper : v < high) :
    i.Inside low high v := by
  unfold Inside
  split
  · exact ⟨lower.le, upper.le⟩
  · exact ⟨lower, upper⟩

theorem Inside.le {i : Interval} {low high v : ℚ} (h : i.Inside low high v) :
    low ≤ v ∧ v ≤ high := by
  unfold Inside at h
  split at h
  · exact h
  · exact ⟨h.1.le, h.2.le⟩

def factor (i : Interval) (e : ℤ) : ℚ := i.unit * scale 10 (-e)

theorem factor_pos {i : Interval} (unit : 0 < i.unit) (e : ℤ) : 0 < i.factor e := by
  have all : 0 < i.unit * scale 10 (-e) := Nat.mul_pos unit (scale_pos (by decide) _)
  unfold factor
  exact_mod_cast all

theorem point_eq (i : Interval) (d : ℕ) (e : ℤ) :
    ((d * scale 10 e * i.unit : ℕ) : ℚ) = d * 10 ^ e * i.factor e := by
  unfold factor
  push_cast
  rw [scale_eq (by decide) e]
  push_cast
  ring

theorem numerator_eq {i : Interval} {n : ℕ} {v : ℚ} (numerator : (n : ℚ) = v * i.unit) (e : ℤ) :
    ((n * scale 10 (-e) : ℕ) : ℚ) = v * i.factor e := by
  rw [Nat.cast_mul, numerator, factor, mul_assoc]

variable {i : Interval} {low value high : ℚ} (spans : i.Spans low value high)
include spans

theorem Spans.holds_iff (d : ℕ) (e : ℤ) : i.holds d e = true ↔ i.Inside low high (d * 10 ^ e) := by
  have pos := factor_pos spans.unit e
  unfold holds Inside
  dsimp only
  split
  · rw [Bool.and_eq_true, decide_eq_true_eq, decide_eq_true_eq, ← Nat.cast_le (α := ℚ),
      ← Nat.cast_le (α := ℚ), point_eq, numerator_eq spans.low, numerator_eq spans.high,
      mul_le_mul_iff_left₀ pos, mul_le_mul_iff_left₀ pos]
  · rw [Bool.and_eq_true, decide_eq_true_eq, decide_eq_true_eq, ← Nat.cast_lt (α := ℚ),
      ← Nat.cast_lt (α := ℚ), point_eq, numerator_eq spans.low, numerator_eq spans.high,
      mul_lt_mul_iff_left₀ pos, mul_lt_mul_iff_left₀ pos]

theorem Spans.floor_le (e : ℤ) :
    let floor := i.value * scale 10 (-e) / (scale 10 e * i.unit)
    (floor * 10 ^ e : ℚ) ≤ value ∧ value < (floor + 1 : ℕ) * 10 ^ e := by
  intro floor
  have pos := factor_pos spans.unit e
  have spacing : 0 < scale 10 e * i.unit := Nat.mul_pos (scale_pos (by decide) e) spans.unit
  have below : floor * scale 10 e * i.unit ≤ i.value * scale 10 (-e) := by
    rw [mul_assoc]
    exact Nat.div_mul_le_self _ _
  have above : i.value * scale 10 (-e) < (floor + 1) * scale 10 e * i.unit := by
    rw [mul_assoc, ← Nat.div_lt_iff_lt_mul spacing]
    exact Nat.lt_succ_self _
  rw [← Nat.cast_le (α := ℚ), point_eq, numerator_eq spans.value, mul_le_mul_iff_left₀ pos]
    at below
  rw [← Nat.cast_lt (α := ℚ), point_eq, numerator_eq spans.value, mul_lt_mul_iff_left₀ pos]
    at above
  exact ⟨below, above⟩

theorem Spans.pow_leading_le (pos : 0 < value) : (10 : ℚ) ^ i.leading ≤ value := by
  have unit : (0 : ℚ) < i.unit := by exact_mod_cast spans.unit
  have positive : 0 < i.value := by
    have numerator : (0 : ℚ) < i.value := spans.value ▸ mul_pos pos unit
    exact_mod_cast numerator
  unfold leading
  dsimp only
  split
  · rename_i fits
    have grid : (0 : ℚ) < scale 10 (-((digitCount i.value : ℤ) - digitCount i.unit)) := by
      exact_mod_cast scale_pos (by decide) _
    rw [← Nat.cast_le (α := ℚ)] at fits
    push_cast at fits
    rw [scale_eq (by decide), spans.value] at fits
    push_cast at fits
    refine le_of_mul_le_mul_right ?_ (mul_pos unit grid)
    linarith
  · have digits : 0 < digitCount i.value := Nat.length_toDigits_pos
    have numerator : ((10 ^ (digitCount i.value - 1) : ℕ) : ℚ) ≤ i.value :=
      Nat.cast_le.mpr (pow_digitCount_le positive)
    have denominator : (i.unit : ℚ) < (10 ^ digitCount i.unit : ℕ) :=
      Nat.cast_lt.mpr (lt_pow_digitCount _)
    have exponent : (digitCount i.value : ℤ) - digitCount i.unit - 1 =
        (digitCount i.value - 1 : ℕ) - (digitCount i.unit : ℕ) := by omega
    push_cast at numerator denominator
    rw [exponent, zpow_sub₀ (by norm_num), zpow_natCast, zpow_natCast,
      div_le_iff₀ (by positivity)]
    calc (10 : ℚ) ^ (digitCount i.value - 1) ≤ value * i.unit := spans.value ▸ numerator
      _ ≤ value * 10 ^ digitCount i.unit := mul_le_mul_of_nonneg_left denominator.le pos.le

omit spans in
theorem holds_of_onGrid {d : ℕ} {e : ℤ} (found : i.onGrid e = some d) : i.holds d e = true := by
  unfold onGrid at found
  dsimp only at found
  split at found
  · cases found
  · cases found
    assumption
  · cases found
    assumption
  · split at found
    · cases found
      assumption
    · cases found
      assumption

omit spans in
theorem onGrid_isSome {e : ℤ}
    (near : let floor := i.value * scale 10 (-e) / (scale 10 e * i.unit)
      i.holds floor e = true ∨ i.holds (floor + 1) e = true) : (i.onGrid e).isSome := by
  unfold onGrid
  dsimp only at near ⊢
  split
  · rename_i below above
    rw [below, above] at near
    simp at near
  · rfl
  · rfl
  · split <;> rfl

end Interval

/-! ## The interval of a double -/

/-- A mantissa and an exponent of a double other than zero. -/
structure IsDouble (m : ℕ) (q : ℤ) : Prop where
  pos : 0 < m
  small : m < 2 ^ 53
  least : -1074 ≤ q
  normal : q = -1074 ∨ 2 ^ 52 ≤ m

theorem IsDouble.of_magnitude {x : Float} {m : ℕ} {q : ℤ} (h : magnitude x = .finite m q)
    (pos : 0 < m) : IsDouble m q := by
  obtain ⟨small, least⟩ := bounds_of_magnitude h
  refine ⟨pos, small, least, ?_⟩
  unfold magnitude at h
  dsimp only at h
  split at h
  · cases h
    exact .inl rfl
  · split at h <;> cases h
  · cases h
    exact .inr (Nat.le_add_right _ _)

section Around

variable {m : ℕ} {q : ℤ}

def stepBelow (m : ℕ) (q : ℤ) : ℚ := if m = hiddenBit ∧ q ≠ -1074 then 1 / 4 else 1 / 2

theorem stepBelow_pos (m : ℕ) (q : ℤ) : 0 < stepBelow m q := by
  unfold stepBelow
  split <;> norm_num

theorem stepBelow_le (m : ℕ) (q : ℤ) : stepBelow m q ≤ 1 / 2 := by
  unfold stepBelow
  split <;> norm_num

theorem around_spans (pos : 0 < m) : (Interval.around m q).Spans
    ((m - stepBelow m q) * 2 ^ q) (m * 2 ^ q) ((m + 1 / 2) * 2 ^ q) := by
  have quarter : (scale 2 (q - 2) : ℚ) = 2 ^ q / 4 * scale 2 (2 - q) := by
    rw [scale_eq (by decide), neg_sub, Nat.cast_ofNat, zpow_sub₀ two_ne_zero]
    norm_num
  unfold Interval.around
  refine ⟨scale_pos (by decide) _, ?_, ?_, ?_⟩
  · unfold stepBelow
    dsimp only
    split
    · rw [Nat.cast_mul, Nat.cast_sub (by omega), quarter]
      push_cast
      ring
    · rw [Nat.cast_mul, Nat.cast_sub (by omega), quarter]
      push_cast
      ring
  · dsimp only
    rw [Nat.cast_mul, quarter]
    push_cast
    ring
  · dsimp only
    rw [Nat.cast_mul, quarter]
    push_cast
    ring

theorem onGrid_found (double : IsDouble m q) :
    ((Interval.around m q).onGrid ((Interval.around m q).leading - 16)).isSome := by
  have spans := around_spans (q := q) double.pos
  have unit : (0 : ℚ) < 2 ^ q := by positivity
  have mantissa : (0 : ℚ) < m := Nat.cast_pos.mpr double.pos
  have leading := spans.pow_leading_le (mul_pos mantissa unit)
  obtain ⟨below, above⟩ := spans.floor_le ((Interval.around m q).leading - 16)
  generalize (Interval.around m q).leading = top at *
  have fine : (10 : ℚ) ^ (top - 16) * 10 ^ 16 ≤ m * 2 ^ q := by
    rw [zpow_sub₀ (by norm_num)]
    refine le_trans (le_of_eq ?_) leading
    norm_num
  have grid : (0 : ℚ) < 10 ^ (top - 16) := by positivity
  apply Interval.onGrid_isSome
  dsimp only
  rw [spans.holds_iff, spans.holds_iff]
  generalize (Interval.around m q).value * scale 10 (-(top - 16)) /
    (scale 10 (top - 16) * (Interval.around m q).unit) = floor at *
  push_cast at above ⊢
  generalize (10 : ℚ) ^ (top - 16) = g at *
  generalize (2 : ℚ) ^ q = u at *
  have step : 0 < stepBelow m q * u := mul_pos (stepBelow_pos m q) unit
  by_cases hidden : m = hiddenBit ∧ q ≠ -1074
  · -- The step below is shorter here, but the number is small enough to use the neighbour above.
    have size : (m : ℚ) = 2 ^ 52 := by exact_mod_cast hidden.1
    rw [size] at fine below above ⊢
    exact .inr (.of_lt (by linarith) (by linarith))
  · have half : stepBelow m q = 1 / 2 := if_neg hidden
    have digits : (m : ℚ) < 2 ^ 53 := by exact_mod_cast double.small
    have size : m * u < 2 ^ 53 * u := mul_lt_mul_of_pos_right digits unit
    rw [half]
    rcases le_or_gt (m * u - floor * g) (g / 2) with near | far
    · exact .inl (.of_lt (by linarith) (by linarith))
    · exact .inr (.of_lt (by linarith) (by linarith))

theorem rounds_of_inside {v : ℚ} (double : IsDouble m q) (inside : (Interval.around m q).Inside
    ((m - stepBelow m q) * 2 ^ q) ((m + 1 / 2) * 2 ^ q) v) :
    ∃ n t, Rounds v n t ∧ carried n t = unpacked m q := by
  have unit : (0 : ℚ) < 2 ^ q := by positivity
  obtain ⟨x, rfl⟩ : ∃ x, v = x * 2 ^ q := ⟨v / 2 ^ q, (div_mul_cancel₀ v unit.ne').symm⟩
  have least := double.least
  have bounds := inside.le
  rw [mul_le_mul_iff_left₀ unit, mul_le_mul_iff_left₀ unit] at bounds
  have most : (m : ℚ) + 1 ≤ 2 ^ 53 := by exact_mod_cast double.small
  by_cases less : m = 2 ^ 52 ∧ q ≠ -1074 ∧ x < 2 ^ 52
  · -- Just below a power of two the scale is finer, and rounding up gives one digit too many.
    obtain ⟨rfl, other, less⟩ := less
    have step : stepBelow (2 ^ 52) q = 1 / 4 := if_pos ⟨rfl, other⟩
    have half : (2 : ℚ) ^ q = 2 * 2 ^ (q - 1) := by
      rw [← zpow_one_add₀ two_ne_zero]
      congr 1
      omega
    rw [step] at bounds
    push_cast at bounds
    have finer : (0 : ℚ) < 2 ^ (q - 1) := by positivity
    have scaled : x * 2 ^ q / 2 ^ (q - 1) = 2 * x := by
      rw [half]
      field_simp
    refine ⟨2 ^ 53, q - 1, ⟨⟨?_, fun _ => by decide⟩, by omega, ?_, .inr ?_⟩, ?_⟩
    · rw [scaled, abs_le]
      push_cast
      constructor <;> linarith
    · rw [half]
      nlinarith
    · rw [half]
      nlinarith
    · rw [carried, if_neg (by decide)]
      congr 1
      omega
  · have scaled : x * 2 ^ q / 2 ^ q = x := mul_div_cancel_right₀ x unit.ne'
    have half := stepBelow_le m q
    refine ⟨m, q, ⟨⟨?_, fun tie => ?_⟩, least, ?_, ?_⟩, ?_⟩
    · rw [scaled, abs_le]
      constructor <;> linarith
    · rw [scaled] at tie
      unfold Interval.Inside at inside
      split at inside
      · rename_i even
        exact Nat.even_iff.mpr (beq_iff_eq.mp even)
      · rw [mul_lt_mul_iff_left₀ unit, mul_lt_mul_iff_left₀ unit] at inside
        have apart : |(m : ℚ) - x| < 1 / 2 := by
          rw [abs_lt]
          constructor <;> linarith
        exact absurd tie apart.ne
    · exact mul_lt_mul_of_pos_right (by linarith) unit
    · by_cases subnormal : q = -1074
      · exact .inl subnormal
      refine .inr (mul_le_mul_of_nonneg_right ?_ unit.le)
      rcases (double.normal.resolve_left subnormal).eq_or_lt with power | more
      · by_contra lower
        exact less ⟨power.symm, subnormal, not_le.mp lower⟩
      · have more : (2 : ℚ) ^ 52 + 1 ≤ m := by exact_mod_cast more
        linarith
    · rw [carried, if_pos double.small]

theorem shortest_inside (double : IsDouble m q) :
    (Interval.around m q).Inside ((m - stepBelow m q) * 2 ^ q) ((m + 1 / 2) * 2 ^ q)
      (shortest m q).value := by
  obtain ⟨d, found⟩ := Option.isSome_iff_exists.mp (onGrid_found double)
  have found : ((List.range 17).findSome? fun n : ℕ =>
      ((Interval.around m q).onGrid ((Interval.around m q).leading - n)).map fun d =>
        (⟨d, (Interval.around m q).leading - n⟩ : Decimal)).isSome := by
    rw [List.findSome?_isSome_iff]
    refine ⟨16, by decide, ?_⟩
    rw [Nat.cast_ofNat, found]
    rfl
  obtain ⟨decimal, here⟩ := Option.isSome_iff_exists.mp found
  have shortest : shortest m q = decimal :=
    congrArg (fun found => Option.getD found (⟨0, 0⟩ : Decimal)) here
  obtain ⟨n, -, there⟩ := List.exists_of_findSome?_eq_some here
  obtain ⟨d, held, rfl⟩ := Option.map_eq_some_iff.mp there
  rw [shortest]
  exact ((around_spans double.pos).holds_iff d _).mp (Interval.holds_of_onGrid held)

theorem shortest_pos (double : IsDouble m q) : 0 < (shortest m q).value := by
  have unit : (0 : ℚ) < 2 ^ q := by positivity
  have mantissa : (1 : ℚ) ≤ m := by exact_mod_cast double.pos
  have step := stepBelow_le m q
  refine lt_of_lt_of_le (mul_pos ?_ unit) (shortest_inside double).le.1
  linarith

end Around

theorem shortest_injective {m m' : ℕ} {q q' : ℤ} (h : IsDouble m q) (h' : IsDouble m' q')
    (same : (shortest m q).value = (shortest m' q').value) : m = m' ∧ q = q' := by
  obtain ⟨n, t, rounds, double⟩ := rounds_of_inside h (shortest_inside h)
  obtain ⟨n', t', rounds', double'⟩ := rounds_of_inside h' (shortest_inside h')
  rw [same] at rounds
  obtain ⟨rfl, rfl⟩ := rounds.unique rounds'
  have equal := double.symm.trans double'
  rw [unpacked, unpacked, dif_neg h.pos.ne', dif_neg h'.pos.ne'] at equal
  cases equal
  exact ⟨rfl, rfl⟩

end Decimal

end Lox
