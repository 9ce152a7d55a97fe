import Lox.Proofs.Lexical.Measure
import Lox.Proofs.Number.Shortest

namespace Lox

/-! ## Numerals -/

namespace Lexical

theorem not_mem_of_digits {ds : List Char} (digits : ∀ d ∈ ds, d.isDigit) {c : Char}
    (other : c.isDigit = false) : c ∉ ds := by
  intro member
  rw [digits c member] at other
  cases other

theorem Numeral.digit_or_point {text : List Char} {v : ℚ} (h : Numeral text v) :
    ∀ c ∈ text, c.isDigit ∨ c = '.' := by
  cases h with
  | whole _ digits => exact fun c member => .inl (digits c member)
  | point _ digits _ decimals =>
      refine List.forall_mem_append.mpr ⟨fun c member => .inl (digits c member), ?_⟩
      exact List.forall_mem_cons.mpr ⟨.inr rfl, fun c member => .inl (decimals c member)⟩

theorem Numeral.unique {text text' : List Char} {v v' : ℚ} (h : Numeral text v)
    (h' : Numeral text' v') (same : text = text') : v = v' := by
  have point : ∀ ds fs : List Char, '.' ∈ ds ++ '.' :: fs := fun ds fs =>
    List.mem_append_right ds (.head fs)
  cases h with
  | whole _ digits =>
      cases h' with
      | whole => rw [same]
      | point => exact absurd (same ▸ point _ _) (not_mem_of_digits digits rfl)
  | point _ digits _ decimals =>
      cases h' with
      | whole _ digits' => exact absurd (same ▸ point _ _) (not_mem_of_digits digits' rfl)
      | point _ digits' _ decimals' =>
          obtain ⟨rfl, -, rfl⟩ := (List.append_cons_inj_of_notMem
            (not_mem_of_digits digits rfl) (not_mem_of_digits decimals rfl)).mp same
          rfl

end Lexical

open Lexical

namespace Number

/-! ## Decimal notation -/

inductive Power : List Char → ℤ → Prop
  | none : Power [] 0
  | up {ds} (digits : ∀ d ∈ ds, d.isDigit) : Power ('e' :: '+' :: ds) (naturalOfDigits ds)
  | down {ds} (digits : ∀ d ∈ ds, d.isDigit) : Power ('e' :: '-' :: ds) (-naturalOfDigits ds)

/-- Digits with or without a point, and then a power of ten. -/
inductive Notation : List Char → ℚ → Prop
  | mk {text v tail k} (numeral : Numeral text v) (power : Power tail k) :
      Notation (text ++ tail) (v * 10 ^ k)

theorem Power.unique {tail tail' : List Char} {k k' : ℤ} (h : Power tail k) (h' : Power tail' k')
    (same : tail = tail') : k = k' := by
  cases h <;> cases h' <;> cases same <;> rfl

theorem Power.takeWhile {text tail : List Char} {k : ℤ} (h : Power tail k) (no : 'e' ∉ text) :
    (text ++ tail).takeWhile (· != 'e') = text := by
  have all : ∀ c ∈ text, (c != 'e') = true := fun c member =>
    bne_iff_ne.mpr fun same => no (same ▸ member)
  cases h with
  | none => rw [List.append_nil, List.takeWhile_eq_self_iff.mpr all]
  | up => rw [Piece.takeWhile_stop (by decide), List.takeWhile_eq_self_iff.mpr all]
  | down => rw [Piece.takeWhile_stop (by decide), List.takeWhile_eq_self_iff.mpr all]

theorem Notation.unique {text text' : List Char} {v v' : ℚ} (h : Notation text v)
    (h' : Notation text' v') (same : text = text') : v = v' := by
  have no : ∀ {text v}, Numeral text v → 'e' ∉ text := fun numeral member => by
    rcases numeral.digit_or_point 'e' member with digit | point
    · cases digit
    · cases point
  cases h with
  | mk numeral power =>
  cases h' with
  | mk numeral' power' =>
      have mantissa := congrArg (List.takeWhile (· != 'e')) same
      rw [power.takeWhile (no numeral), power'.takeWhile (no numeral')] at mantissa
      rw [numeral.unique numeral' mantissa]
      subst mantissa
      rw [power.unique power' (List.append_cancel_left same)]

theorem Notation.begins {text : List Char} {v : ℚ} (h : Notation text v) :
    ∃ d more, text = d :: more ∧ d.isDigit := by
  cases h with
  | @mk _ _ tail _ numeral _ =>
      obtain ⟨d, more, rfl, digit⟩ := numeral.begins
      exact ⟨d, more ++ tail, rfl, digit⟩

theorem Notation.characters {text : List Char} {v : ℚ} (h : Notation text v) :
    ∀ c ∈ text, c.isDigit ∨ c ∈ ['.', 'e', '+', '-'] := by
  cases h with
  | mk numeral power =>
      refine List.forall_mem_append.mpr ⟨fun c member => ?_, ?_⟩
      · refine (numeral.digit_or_point c member).imp_right ?_
        rintro rfl
        decide
      · cases power with
        | none => exact nofun
        | up digits =>
            refine List.forall_mem_cons.mpr ⟨.inr (by decide), ?_⟩
            exact List.forall_mem_cons.mpr
              ⟨.inr (by decide), fun c member => .inl (digits c member)⟩
        | down digits =>
            refine List.forall_mem_cons.mpr ⟨.inr (by decide), ?_⟩
            exact List.forall_mem_cons.mpr
              ⟨.inr (by decide), fun c member => .inl (digits c member)⟩

/-! ## Digits of a decimal -/

theorem naturalOfDigits_toDigits (n : ℕ) : naturalOfDigits (Nat.toDigits 10 n) = n :=
  Nat.ofDigitChars_ten_toDigits

theorem naturalOfDigits_zeros (n : ℕ) : naturalOfDigits (List.replicate n '0') = 0 := by
  induction n with
  | zero => rfl
  | succ n ih =>
      have zero : naturalOfDigits ['0'] = 0 := rfl
      rw [List.replicate_succ, ← List.singleton_append, naturalOfDigits_append, ih, zero, zero_mul]

theorem digits_toDigits (n : ℕ) : ∀ d ∈ Nat.toDigits 10 n, d.isDigit := fun _ =>
  Nat.isDigit_of_mem_toDigits (by decide) (by decide)

theorem digits_zeros (n : ℕ) : ∀ d ∈ List.replicate n '0', d.isDigit := by
  intro d member
  rw [List.eq_of_mem_replicate member]
  rfl

theorem significantDigits_append (d : Decimal) :
    ∃ k, Nat.toDigits 10 d.significand = significantDigits d ++ List.replicate k '0' := by
  have split := List.takeWhile_append_dropWhile (p := (· == '0'))
    (l := (Nat.toDigits 10 d.significand).reverse)
  obtain ⟨k, zeros⟩ : ∃ k, (Nat.toDigits 10 d.significand).reverse.takeWhile (· == '0') =
      List.replicate k '0' := by
    refine ⟨_, List.eq_replicate_iff.mpr ⟨rfl, fun c member => ?_⟩⟩
    have zero : (c == '0') = true := List.mem_takeWhile_imp (p := (· == '0')) member
    exact beq_iff_eq.mp zero
  refine ⟨k, ?_⟩
  rw [zeros] at split
  rw [← List.reverse_reverse (Nat.toDigits 10 d.significand), ← split, List.reverse_append,
    List.reverse_replicate]
  rfl

structure Spelled (d : Decimal) (digits : List Char) (exponent : ℤ) : Prop where
  nonempty : digits ≠ []
  all : ∀ c ∈ digits, c.isDigit
  value : d.value = naturalOfDigits digits * 10 ^ (exponent + 1 - digits.length)

theorem spelled {d : Decimal} (pos : 0 < d.significand) :
    Spelled d (significantDigits d) (d.exponent + Decimal.digitCount d.significand - 1) := by
  obtain ⟨k, whole⟩ := significantDigits_append d
  have count : Decimal.digitCount d.significand = (significantDigits d).length + k := by
    rw [Decimal.digitCount, whole, List.length_append, List.length_replicate]
  have number : d.significand = naturalOfDigits (significantDigits d) * 10 ^ k := by
    rw [← naturalOfDigits_toDigits d.significand, whole, naturalOfDigits_append,
      naturalOfDigits_zeros, List.length_replicate, Nat.add_zero]
  refine ⟨?_, fun c member => ?_, ?_⟩
  · intro empty
    rw [empty] at number
    rw [number] at pos
    simp [naturalOfDigits] at pos
  · exact digits_toDigits _ c (whole ▸ List.mem_append_left _ member)
  · have exponent : d.exponent + ((significantDigits d).length + k : ℕ) - 1 + 1 -
        (significantDigits d).length = d.exponent + k := by
      push_cast
      ring
    rw [count, exponent, Decimal.value, zpow_add₀ (by norm_num), zpow_natCast]
    conv_lhs => rw [number]
    push_cast
    ring

/-! ## The layout of a text -/

theorem numeral_point {ds fs : List Char} (nonempty : ds ≠ []) (digits : ∀ d ∈ ds, d.isDigit)
    (more : fs ≠ []) (decimals : ∀ d ∈ fs, d.isDigit) :
    Numeral (ds ++ '.' :: fs) (naturalOfDigits (ds ++ fs) * 10 ^ (-fs.length : ℤ)) := by
  have value : (naturalOfDigits (ds ++ fs) * 10 ^ (-fs.length : ℤ) : ℚ) =
      naturalOfDigits ds + naturalOfDigits fs / 10 ^ fs.length := by
    rw [naturalOfDigits_append, zpow_neg, zpow_natCast]
    push_cast
    field_simp
  rw [value]
  exact .point nonempty digits more decimals

section Layout

variable {digits : List Char} (nonempty : digits ≠ []) (all : ∀ c ∈ digits, c.isDigit)
include nonempty all

theorem numeral_below_one (n : ℕ) : Numeral ('0' :: '.' :: (List.replicate n '0' ++ digits))
    (naturalOfDigits digits * 10 ^ (-n - digits.length : ℤ)) := by
  have zeros := naturalOfDigits_zeros (n + 1)
  rw [List.replicate_succ, ← List.singleton_append] at zeros
  have value : naturalOfDigits (['0'] ++ (List.replicate n '0' ++ digits)) =
      naturalOfDigits digits := by
    rw [← List.append_assoc, naturalOfDigits_append, zeros, zero_mul, zero_add]
  have exponent : (-n - digits.length : ℤ) = -((List.replicate n '0' ++ digits).length : ℤ) := by
    rw [List.length_append, List.length_replicate]
    push_cast
    ring
  rw [← value, exponent]
  exact numeral_point (by simp) (digits_zeros 1) (by simp [nonempty])
    (List.forall_mem_append.mpr ⟨digits_zeros n, all⟩)

theorem numeral_whole {n : ℕ} (short : digits.length ≤ n) :
    Numeral (digits ++ List.replicate (n - digits.length) '0')
      (naturalOfDigits digits * 10 ^ ((n : ℤ) - digits.length)) := by
  have value : (naturalOfDigits digits * 10 ^ ((n : ℤ) - digits.length) : ℚ) =
      naturalOfDigits (digits ++ List.replicate (n - digits.length) '0') := by
    rw [naturalOfDigits_append, naturalOfDigits_zeros, List.length_replicate,
      ← Nat.cast_sub short, zpow_natCast]
    push_cast
    ring
  rw [value]
  exact .whole (by simp [nonempty]) (List.forall_mem_append.mpr ⟨all, digits_zeros _⟩)

theorem numeral_mixed {n : ℕ} (positive : 0 < n) (long : n < digits.length) :
    Numeral (digits.take n ++ '.' :: digits.drop n)
      (naturalOfDigits digits * 10 ^ ((n : ℤ) - digits.length)) := by
  have exponent : (n : ℤ) - digits.length = -((digits.drop n).length : ℤ) := by
    rw [List.length_drop]
    omega
  have point := @numeral_point (digits.take n) (digits.drop n) (by simp [nonempty, positive.ne'])
    (fun d member => all d (List.mem_of_mem_take member)) (by simpa using long)
    fun d member => all d (List.mem_of_mem_drop member)
  rwa [List.take_append_drop, ← exponent] at point

theorem positional_numeral (whole : ℤ) : Numeral (layout.positional digits whole).toList
    (naturalOfDigits digits * 10 ^ (whole - digits.length)) := by
  unfold Layout.positional
  split
  · have text : ("0." ++ String.ofList (List.replicate (-whole).toNat '0' ++ digits)).toList =
        '0' :: '.' :: (List.replicate (-whole).toNat '0' ++ digits) := by simp
    have numeral := numeral_below_one nonempty all (-whole).toNat
    rwa [Int.toNat_of_nonneg (by omega), neg_neg, ← text] at numeral
  · obtain ⟨n, rfl⟩ : ∃ n : ℕ, whole = n := ⟨whole.toNat, by omega⟩
    dsimp only
    rw [Int.toNat_natCast]
    split
    · rename_i rest
      have short : digits.length ≤ n := List.drop_eq_nil_iff.mp rest
      have suffix : layout.wholeSuffix = "" := rfl
      rw [List.take_of_length_le short, suffix, String.append_empty, String.toList_ofList]
      exact numeral_whole nonempty all short
    · rename_i more
      have long : n < digits.length := by
        by_contra short
        exact more (List.drop_eq_nil_of_le (not_lt.mp short))
      have equal : n - digits.length = 0 := by omega
      have text : (String.ofList (digits.take n ++ List.replicate (n - digits.length) '0') ++ "." ++
          String.ofList (digits.drop n)).toList = digits.take n ++ '.' :: digits.drop n := by
        rw [equal]
        simp
      rw [text]
      exact numeral_mixed nonempty all (by omega) long

omit nonempty all in
theorem power_digits {exponent : ℤ} {sign : String} (width : ℕ)
    (signed : sign = if exponent < 0 then "-" else "+") :
    Power ("e" ++ sign ++ String.ofList (List.replicate (width - (Nat.toDigits 10
      exponent.natAbs).length) '0' ++ Nat.toDigits 10 exponent.natAbs)).toList exponent := by
  obtain ⟨ds, power⟩ : ∃ ds, List.replicate (width - (Nat.toDigits 10
      exponent.natAbs).length) '0' ++ Nat.toDigits 10 exponent.natAbs = ds := ⟨_, rfl⟩
  have digits : ∀ d ∈ ds, d.isDigit :=
    power ▸ List.forall_mem_append.mpr ⟨digits_zeros _, digits_toDigits _⟩
  have value : naturalOfDigits ds = exponent.natAbs := by
    rw [← power, naturalOfDigits_append, naturalOfDigits_zeros, naturalOfDigits_toDigits, zero_mul,
      zero_add]
  rw [power, signed]
  split
  · have down := Power.down digits
    rw [value] at down
    have exponent : -(exponent.natAbs : ℤ) = exponent := by omega
    rw [exponent] at down
    simpa using down
  · have up := Power.up digits
    rw [value] at up
    have exponent : (exponent.natAbs : ℤ) = exponent := by omega
    rw [exponent] at up
    simpa using up

theorem scientific_written (exponent : ℤ) : Notation (layout.scientific digits exponent).toList
    (naturalOfDigits digits * 10 ^ (exponent + 1 - digits.length)) := by
  have value : (naturalOfDigits digits * 10 ^ (exponent + 1 - digits.length) : ℚ) =
      naturalOfDigits digits * 10 ^ ((1 : ℕ) - digits.length : ℤ) * 10 ^ exponent := by
    rw [mul_assoc, ← zpow_add₀ (by norm_num)]
    congr 2
    push_cast
    ring
  have power := @power_digits exponent _ layout.exponentWidth rfl
  rw [value]
  unfold Layout.scientific
  simp only [String.append_assoc]
  rw [String.toList_append, String.toList_ofList]
  refine .mk ?_ power
  cases digits with
  | nil => contradiction
  | cons d rest =>
      cases rest with
      | nil => exact numeral_whole (n := 1) nonempty all le_rfl
      | cons e rest => exact numeral_mixed (n := 1) nonempty all Nat.one_pos (by simp)

end Layout

theorem decimal_written {d : Decimal} (pos : 0 < d.significand) :
    Notation (layout.decimal d).toList d.value := by
  have digits := spelled pos
  rw [digits.value]
  unfold Layout.decimal
  dsimp only
  split
  · have numeral := positional_numeral digits.nonempty digits.all
      (d.exponent + Decimal.digitCount d.significand - 1 + 1)
    have written := Notation.mk numeral .none
    rwa [List.append_nil, zpow_zero, mul_one] at written
  · exact scientific_written digits.nonempty digits.all _

/-! ## The text of a double -/

section Text

variable {x y : Float} {m m' : ℕ} {q q' : ℤ}

theorem text_zero (positive : Decimal.negative x = false)
    (finite : Decimal.magnitude x = .finite 0 q) : text x = "0" := by
  simp [text, Layout.number, positive, finite, layout]

theorem text_decimal (positive : Decimal.negative x = false)
    (finite : Decimal.magnitude x = .finite m q) (pos : 0 < m) :
    text x = layout.decimal (Decimal.shortest m q) := by
  obtain ⟨n, rfl⟩ : ∃ n, m = n + 1 := ⟨m - 1, by omega⟩
  simp [text, Layout.number, positive, finite]

def printed (m : ℕ) (q : ℤ) : ℚ := if m = 0 then 0 else (Decimal.shortest m q).value

theorem text_written (positive : Decimal.negative x = false)
    (finite : Decimal.magnitude x = .finite m q) : Notation (text x).toList (printed m q) := by
  unfold printed
  split
  · rename_i zero
    subst zero
    rw [text_zero positive finite]
    have numeral : Numeral ['0'] (naturalOfDigits ['0']) := .whole (by simp) (digits_zeros 1)
    have written := Notation.mk numeral .none
    simpa [naturalOfDigits] using written
  · rename_i nonzero
    have pos := Nat.pos_of_ne_zero nonzero
    rw [text_decimal positive finite pos]
    apply decimal_written
    have value := Decimal.shortest_pos (.of_magnitude finite pos)
    apply Nat.pos_of_ne_zero
    intro zero
    rw [Decimal.value, zero, Nat.cast_zero, zero_mul] at value
    exact value.false

theorem toNat_toBits (positive : Decimal.negative x = false)
    (finite : Decimal.magnitude x = .finite m q) :
    x.toBits.toNat = if m < 2 ^ 52 then m else (q + 1075).toNat * 2 ^ 52 + (m - 2 ^ 52) := by
  have size : x.toBits.toNat < 2 ^ 64 := x.toBits.toNat_lt
  have hidden : Decimal.hiddenBit = 2 ^ 52 := rfl
  have power : Decimal.scale 2 63 = 2 ^ 63 := rfl
  unfold Decimal.negative at positive
  rw [power, beq_eq_false_iff_ne] at positive
  unfold Decimal.magnitude at finite
  rw [hidden] at finite
  dsimp only at finite
  split at finite
  · cases finite
    rw [if_pos (by omega)]
    omega
  · split at finite <;> cases finite
  · cases finite
    rw [if_neg (by omega)]
    omega

theorem eq_of_magnitude (positive : Decimal.negative x = false)
    (positive' : Decimal.negative y = false) (finite : Decimal.magnitude x = .finite m q)
    (finite' : Decimal.magnitude y = .finite m q) : x = y := by
  have bits : x.toBits = y.toBits := by
    rw [← UInt64.toNat_inj, toNat_toBits positive finite, toNat_toBits positive' finite']
  obtain ⟨⟨_, _⟩⟩ := x
  obtain ⟨⟨_, _⟩⟩ := y
  cases bits
  rfl

theorem exponent_of_zero (finite : Decimal.magnitude x = .finite 0 q) : q = -1074 := by
  have hidden : Decimal.hiddenBit = 2 ^ 52 := rfl
  unfold Decimal.magnitude at finite
  rw [hidden] at finite
  dsimp only at finite
  split at finite
  · exact (Decimal.Magnitude.finite.inj finite).2.symm
  · split at finite <;> cases finite
  · have mantissa := (Decimal.Magnitude.finite.inj finite).1
    omega

/-- Different doubles have different texts. -/
theorem text_injective (positive : Decimal.negative x = false)
    (positive' : Decimal.negative y = false) (finite : Decimal.magnitude x = .finite m q)
    (finite' : Decimal.magnitude y = .finite m' q') (same : text x = text y) : x = y := by
  have number := (text_written positive finite).unique (text_written positive' finite')
    (congrArg String.toList same)
  unfold printed at number
  by_cases zero : m = 0
  · rw [if_pos zero] at number
    by_cases zero' : m' = 0
    · rw [zero] at finite
      rw [zero'] at finite'
      obtain rfl := exponent_of_zero finite
      obtain rfl := exponent_of_zero finite'
      exact eq_of_magnitude positive positive' finite finite'
    · rw [if_neg zero'] at number
      have pos := Decimal.shortest_pos (.of_magnitude finite' (Nat.pos_of_ne_zero zero'))
      exact absurd number pos.ne
  · rw [if_neg zero] at number
    have double := Decimal.IsDouble.of_magnitude finite (Nat.pos_of_ne_zero zero)
    by_cases zero' : m' = 0
    · rw [if_pos zero'] at number
      exact absurd number (Decimal.shortest_pos double).ne'
    · rw [if_neg zero'] at number
      obtain ⟨rfl, rfl⟩ := Decimal.shortest_injective double
        (.of_magnitude finite' (Nat.pos_of_ne_zero zero')) number
      exact eq_of_magnitude positive positive' finite finite'

end Text

end Number

end Lox
