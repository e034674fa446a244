import Wheelwork.Proofs.Numerals

/-!
Numbers read in two roundings, one of the leading digits and one of the scaling. Few digits and a
small power of ten are exact, so that the result is rounded once; and no numeral of a finite value is
scaled out of range.
-/
namespace Wheelwork.Numeral

open Decimal

section Operands

variable {m n : ℕ}

theorem zero_div (other : 0 < n) (finite : n < infinityBits) :
    signed false 0 / signed false n = signed false 0 := by
  rw [← Float.toBits_inj, ← UInt64.toNat_inj]
  obtain ⟨_, parts⟩ := signed_unpack false other finite
  have quotient : (signed false 0 / signed false n).toBits.toNat =
      (Float.Model.UnpackedFloat.pack .binary64 (Float.Model.UnpackedFloat.div .binary64
        (signed false 0).toModel.unpack (signed false n).toModel.unpack)).toNat := rfl
  rw [quotient, signed_unpack_zero, parts, signed_toBits false (by decide)]
  exact pack_zero .positive

theorem zero_mul (other : 0 < n) (finite : n < infinityBits) :
    signed false 0 * signed false n = signed false 0 := by
  rw [← Float.toBits_inj, ← UInt64.toNat_inj]
  obtain ⟨_, parts⟩ := signed_unpack false other finite
  have product : (signed false 0 * signed false n).toBits.toNat =
      (Float.Model.UnpackedFloat.pack .binary64 (Float.Model.UnpackedFloat.mul .binary64
        (signed false 0).toModel.unpack (signed false n).toModel.unpack)).toNat := rfl
  rw [product, signed_unpack_zero, parts, signed_toBits false (by decide)]
  exact pack_zero .positive

theorem ofInt_eq (s : ℕ) : Decimal.ofInt s = signed false (bits ⟨s, 0⟩) := by
  have sign : ¬ (s : ℤ) < 0 := by omega
  simp [Decimal.ofInt, Decimal.toFloat, sign]

theorem powerOfTen_eq (k : ℕ) : powerOfTen k = signed false (bits ⟨1, k⟩) := rfl

end Operands

section Sizes

theorem tens_lt : (10 : ℚ) ^ 308 < overflow := by
  have whole : 10 ^ 308 + 2 ^ 971 < 9007199254740992 * 2 ^ 971 := by decide +kernel
  have cast : (10 : ℚ) ^ 308 + 2 ^ 971 < 9007199254740992 * 2 ^ 971 := by exact_mod_cast whole
  have top : (2 : ℚ) ^ (971 : ℤ) = 2 ^ 971 := zpow_natCast 2 971
  have power : (0 : ℚ) < 2 ^ 971 := by positivity
  rw [overflow, top]
  generalize (2 : ℚ) ^ 971 = unit at *
  generalize (10 : ℚ) ^ 308 = tens at *
  linarith only [cast, power]

theorem tens_high :
    (9007199254740992 - 1 / 2 - 2) * (2 : ℚ) ^ (971 : ℤ) < 10 ^ (309 : ℤ) := by
  have whole : 9007199254740992 * 2 ^ 971 < 10 ^ 309 := by decide +kernel
  have cast : (9007199254740992 : ℚ) * 2 ^ 971 < 10 ^ 309 := by exact_mod_cast whole
  have top : (2 : ℚ) ^ (971 : ℤ) = 2 ^ 971 := zpow_natCast 2 971
  have high : (10 : ℚ) ^ (309 : ℤ) = 10 ^ 309 := zpow_natCast 10 309
  have power : (0 : ℚ) < 2 ^ 971 := by positivity
  rw [top, high]
  generalize (2 : ℚ) ^ 971 = unit at *
  generalize (10 : ℚ) ^ 309 = tens at *
  linarith only [cast, power]

theorem bits_bound {x : Decimal} (some : 0 < x.coefficient) (large : 1 ≤ x.value)
    (less : x.value < overflow) :
    0 < x.bits ∧ x.bits < infinityBits ∧
      bitsValue x.bits ≤ x.value * (1 + 1 / 9007199254740992) := by
  have rounds := bits_rounds some
  have finite := rounds.finite less
  exact ⟨rounds.pos large, finite, rounds.value_le finite large⟩

theorem digits_bound {s : ℕ} (some : 0 < s) (fits : s < UInt64.size) :
    0 < bits ⟨s, 0⟩ ∧ bits ⟨s, 0⟩ < infinityBits ∧
      bitsValue (bits ⟨s, 0⟩) ≤ s * (1 + 1 / 9007199254740992) := by
  have value : Decimal.value ⟨s, 0⟩ = s := by simp [Decimal.value]
  have large : (1 : ℚ) ≤ s := by exact_mod_cast some
  have less : (s : ℚ) < 10 ^ 308 := by
    have whole : UInt64.size ≤ 10 ^ 308 := by decide +kernel
    exact_mod_cast Nat.lt_of_lt_of_le fits whole
  rw [← value] at large less ⊢
  exact bits_bound some large (less.trans tens_lt)

theorem power_bound {k : ℕ} (inside : k ≤ 308) :
    0 < bits ⟨1, k⟩ ∧ bits ⟨1, k⟩ < infinityBits ∧
      bitsValue (bits ⟨1, k⟩) ≤ 10 ^ k * (1 + 1 / 9007199254740992) := by
  have value : Decimal.value ⟨1, k⟩ = 10 ^ k := by simp [Decimal.value]
  have large : (1 : ℚ) ≤ 10 ^ k := one_le_pow₀ (by norm_num)
  have less : (10 : ℚ) ^ k ≤ 10 ^ 308 := pow_le_pow_right₀ (by norm_num) inside
  rw [← value] at large less ⊢
  exact bits_bound Nat.one_pos large (less.trans_lt tens_lt)

end Sizes

section Success

theorem magnitude_eq {x : Float} {m : ℕ} (bits : x.toBits.toNat = m) (inside : m ≤ infinityBits) :
    magnitude x = m := by
  rw [magnitude, bits]
  exact Nat.mod_eq_of_lt (Nat.lt_of_le_of_lt inside (by decide))

/-- A number well inside the range stays in it though its digits and the power are both rounded
up. -/
theorem product_finite {s k : ℕ} (some : 0 < s) (fits : s < UInt64.size) (low : k ≤ 308)
    (inside : (s : ℚ) * 10 ^ k ≤ (9007199254740992 - 1 / 2 - 2) * 2 ^ (971 : ℤ)) :
    magnitude (Decimal.ofInt s * powerOfTen k) < infinityBits := by
  obtain ⟨sPos, sFinite, sBound⟩ := digits_bound some fits
  obtain ⟨kPos, kFinite, kBound⟩ := power_bound low
  have rounds := signed_mul sPos sFinite kPos kFinite
  have power : (0 : ℚ) < 2 ^ (971 : ℤ) := by positivity
  have near : bitsValue (bits ⟨s, 0⟩) * bitsValue (bits ⟨1, k⟩) < overflow := by
    calc bitsValue (bits ⟨s, 0⟩) * bitsValue (bits ⟨1, k⟩)
        ≤ (s * (1 + 1 / 9007199254740992)) * (10 ^ k * (1 + 1 / 9007199254740992)) :=
          mul_le_mul sBound kBound (bitsValue_pos kPos).le (by positivity)
      _ = (s * 10 ^ k) * (1 + 1 / 9007199254740992) ^ 2 := by ring
      _ ≤ (9007199254740992 - 1 / 2 - 2) * 2 ^ (971 : ℤ) * (1 + 1 / 9007199254740992) ^ 2 :=
          mul_le_mul_of_nonneg_right inside (by positivity)
      _ = (9007199254740992 - 1 / 2 - 2) * (1 + 1 / 9007199254740992) ^ 2 * 2 ^ (971 : ℤ) := by ring
      _ < overflow := mul_lt_mul_of_pos_right (by norm_num) power
  have finite := rounds.finite near
  rw [ofInt_eq, powerOfTen_eq, magnitude_eq rfl finite.le]
  exact finite

theorem scaled_some {s : ℕ} {e : ℤ} (fits : s < UInt64.size)
    (inside : (s : ℚ) * 10 ^ e ≤ (9007199254740992 - 1 / 2 - 2) * 2 ^ (971 : ℤ)) :
    (scaled? s e).isSome = true := by
  unfold scaled?
  simp only
  split_ifs with down high zero finite
  · rfl
  · rfl
  · -- So high a power would be out of range on its own.
    have digits : (1 : ℚ) ≤ s := by exact_mod_cast Nat.pos_of_ne_zero zero
    have tens : (10 : ℚ) ^ (309 : ℤ) ≤ s * 10 ^ e := by
      calc (10 : ℚ) ^ (309 : ℤ) ≤ 10 ^ e := zpow_le_zpow_right₀ (by norm_num) (by omega)
        _ ≤ s * 10 ^ e := le_mul_of_one_le_left (by positivity) digits
    exact absurd (tens.trans inside) (not_le.mpr tens_high)
  · rfl
  · obtain ⟨k, rfl⟩ : ∃ k : ℕ, e = k := ⟨e.toNat, by omega⟩
    exfalso
    apply finite
    rcases Nat.eq_zero_or_pos s with rfl | some
    · obtain ⟨kPos, kFinite, _⟩ := power_bound (by omega : k ≤ 308)
      have none : bits ⟨0, 0⟩ = 0 := bits_zero 0
      rw [ofInt_eq, none, powerOfTen_eq, Int.toNat_natCast, zero_mul kPos kFinite,
        magnitude_signed false (by decide)]
      decide
    · rw [zpow_natCast] at inside
      exact product_finite some fits (by omega) inside

end Success

section Exact

theorem bits_of_value {x : Decimal} {m : ℕ} (some : 0 < x.coefficient) (finite : m < infinityBits)
    (same : bitsValue m = x.value) : x.bits = m := by
  have rounds := bits_rounds some
  rw [← same] at rounds
  exact rounds.unique (bitsValue_rounds finite)

theorem eq_of_rounds {x : Float} {d : Decimal} (some : 0 < d.coefficient)
    (finite : d.bits < infinityBits) (rounds : Rounds d.value x.toBits.toNat) :
    x = signed false d.bits := by
  rw [← Float.toBits_inj, ← UInt64.toNat_inj, signed_toBits false finite,
    rounds.unique (bits_rounds some)]
  exact (Nat.zero_add _).symm

theorem digits_exact {s : ℕ} (some : 0 < s) (small : s < 9007199254740992) :
    bitsValue (bits ⟨s, 0⟩) = s := by
  obtain ⟨m, _, finite, same⟩ := representable some small (by decide : 0 ≤ 900)
  rw [pow_zero, mul_one] at same
  have value : bitsValue m = Decimal.value ⟨s, 0⟩ := by simp [same, Decimal.value]
  rw [bits_of_value some finite value, same]

theorem power_exact {k : ℕ} (near : k ≤ 22) : bitsValue (bits ⟨1, k⟩) = 10 ^ k := by
  have few : 5 ^ k < 9007199254740992 :=
    Nat.lt_of_le_of_lt (Nat.pow_le_pow_right (by decide) near) (by decide)
  obtain ⟨m, _, finite, same⟩ :=
    representable (Nat.pow_pos (by decide)) few (by omega : k ≤ 900)
  have tens : ((5 ^ k : ℕ) : ℚ) * 2 ^ k = 10 ^ k := by
    push_cast
    rw [← mul_pow]
    norm_num
  rw [tens] at same
  have value : bitsValue m = Decimal.value ⟨1, k⟩ := by simp [same, Decimal.value]
  rw [bits_of_value Nat.one_pos finite value, same]

theorem short_finite {s : ℕ} {e : ℤ} (some : 0 < s) (small : s < 9007199254740992)
    (near : e ≤ 22) : bits ⟨s, e⟩ < infinityBits := by
  have tens : (10 : ℚ) ^ e ≤ 10 ^ (22 : ℤ) := zpow_le_zpow_right₀ (by norm_num) near
  have digits : (s : ℚ) ≤ 9007199254740992 := by exact_mod_cast small.le
  have whole : 9007199254740992 * 10 ^ 22 ≤ 10 ^ 308 := by decide +kernel
  have cast : (9007199254740992 : ℚ) * 10 ^ (22 : ℤ) ≤ 10 ^ 308 := by exact_mod_cast whole
  have value : Decimal.value ⟨s, e⟩ ≤ 10 ^ 308 :=
    (mul_le_mul digits tens (by positivity) (by norm_num)).trans cast
  exact (bits_rounds some).finite (value.trans_lt tens_lt)

theorem quotient_exact {s k : ℕ} (some : 0 < s) (small : s < 9007199254740992) (near : k ≤ 22) :
    Decimal.ofInt s / powerOfTen k = signed false (bits ⟨s, -k⟩) := by
  obtain ⟨sPos, sFinite, _⟩ := digits_bound some (Nat.lt_trans small (by decide))
  obtain ⟨kPos, kFinite, _⟩ := power_bound (by omega : k ≤ 308)
  have rounds := signed_div sPos sFinite kPos kFinite
  have value : (s : ℚ) / 10 ^ k = Decimal.value ⟨s, -k⟩ := by
    rw [Decimal.value, zpow_neg, zpow_natCast, div_eq_mul_inv]
  rw [digits_exact some small, power_exact near, value] at rounds
  rw [ofInt_eq, powerOfTen_eq]
  exact eq_of_rounds some (short_finite some small (by omega)) rounds

theorem product_exact {s k : ℕ} (some : 0 < s) (small : s < 9007199254740992) (near : k ≤ 22) :
    Decimal.ofInt s * powerOfTen k = signed false (bits ⟨s, k⟩) := by
  obtain ⟨sPos, sFinite, _⟩ := digits_bound some (Nat.lt_trans small (by decide))
  obtain ⟨kPos, kFinite, _⟩ := power_bound (by omega : k ≤ 308)
  have rounds := signed_mul sPos sFinite kPos kFinite
  have value : (s : ℚ) * 10 ^ k = Decimal.value ⟨s, k⟩ := by rw [Decimal.value, zpow_natCast]
  rw [digits_exact some small, power_exact near, value] at rounds
  rw [ofInt_eq, powerOfTen_eq]
  exact eq_of_rounds some (short_finite some small (by omega)) rounds

/-- Few digits and a small power of ten are exact, and the result is rounded once. -/
theorem scaled_exact {s : ℕ} {e : ℤ} (filled : 0 < s) (small : s < 9007199254740992)
    (near : e.natAbs ≤ 22) : scaled? s e = some (signed false (bits ⟨s, e⟩)) := by
  have finite := short_finite filled small (by omega : e ≤ 22)
  unfold scaled?
  by_cases down : e < 0
  · obtain ⟨k, rfl⟩ : ∃ k : ℕ, e = -k := ⟨e.natAbs, by omega⟩
    have steps : k ≤ 308 := by omega
    rw [if_pos down]
    simp [scaleDown, steps, quotient_exact filled small (by omega : k ≤ 22)]
  · obtain ⟨k, rfl⟩ : ∃ k : ℕ, e = k := ⟨e.natAbs, by omega⟩
    have steps : ¬ 308 < k := by omega
    simp [steps, product_exact filled small (by omega : k ≤ 22), magnitude_signed false finite,
      finite]

end Exact

section Finite

variable {m : ℕ}

theorem shortest_pos (tie : Tie) (some : 0 < m) (finite : m < infinityBits) :
    0 < (shortest tie m).coefficient := by
  have bits := shortest_bits tie some finite
  by_contra none
  have zero : (shortest tie m).coefficient = 0 := by omega
  generalize shortest tie m = x at *
  obtain ⟨c, e⟩ := x
  simp only at zero
  rw [zero, bits_zero] at bits
  omega

theorem ofDecimal_isWord {style : Style} (point : style.pointZero = true) (negative : Bool)
    (x : Decimal) : (ofDecimal style negative x).isWord = false := by
  simp only [ofDecimal, isWord]
  split_ifs with positional whole
  · rfl
  · simp [padded, Nat.toDigits_ne_nil]
  · simp

theorem numbers_whole (negative : Bool) (x : Decimal) :
    (ofDecimal Json.numbers negative x).whole < 10 ^ 16 := by
  apply ofDecimal_whole
  · decide
  · intro e inside
    simp only [Json.numbers, Bool.and_eq_true, decide_eq_true_eq] at inside
    omega

theorem value_of_scaled {n : Numeral} {x : Float} (point : n.isWord = false)
    (scaled : scaled? n.leadingDigits.1 n.leadingDigits.2 = some x) :
    n.value? = some (if n.negative then -x else x) := by
  simp [value?, point, scaled]

/-- The two largest values are the only ones that rounding twice might carry out of range. -/
theorem top_scaled {x : Decimal} (top : x = ⟨17976931348623157, 292⟩ ∨ x = ⟨17976931348623155, 292⟩)
    (negative : Bool) :
    let n := ofDecimal Json.numbers negative x
    (scaled? n.leadingDigits.1 n.leadingDigits.2).isSome = true := by
  rcases top with rfl | rfl <;> cases negative <;> decide +kernel

theorem shortest_scaled (negative : Bool) (some : 0 < m) (finite : m < infinityBits) :
    let n := ofDecimal Json.numbers negative (shortest .even m)
    (scaled? n.leadingDigits.1 n.leadingDigits.2).isSome = true := by
  intro n
  by_cases inside : m + 2 < infinityBits
  · obtain ⟨fits, below, _⟩ :=
      leadingDigits_spec (numbers_whole negative _) (ofDecimal_fraction Json.numbers negative _)
    have rounds := bits_rounds (shortest_pos .even some finite)
    rw [shortest_bits .even some finite] at rounds
    rw [ofDecimal_value] at below
    refine scaled_some fits (below.trans ?_)
    simpa using rounds.le inside (by decide)
  · refine top_scaled ?_ negative
    have first : shortest .even (infinityBits - 1) = ⟨17976931348623157, 292⟩ := by decide +kernel
    have second : shortest .even (infinityBits - 2) = ⟨17976931348623155, 292⟩ := by decide +kernel
    obtain rfl | rfl : m = infinityBits - 1 ∨ m = infinityBits - 2 := by omega
    · exact .inl first
    · exact .inr second

structure Short (n : Numeral) : Prop where
  digits : n.leadingDigits.1 < 9007199254740992
  power : n.leadingDigits.2.natAbs ≤ 22

theorem Short.scaled {n : Numeral} (short : n.Short) (few : n.whole < 10 ^ 16)
    (digits : ∀ c ∈ n.fraction, c.isDigit = true) (positive : 0 < n.decimal.value) :
    scaled? n.leadingDigits.1 n.leadingDigits.2 = some (signed false n.decimal.bits) := by
  obtain ⟨small, near⟩ := short
  obtain ⟨_, _, exact⟩ := leadingDigits_spec few digits
  have room : n.leadingDigits.1 * 10 + 9 < UInt64.size := by
    simp only [UInt64.size]
    omega
  have same : Decimal.value ⟨n.leadingDigits.1, n.leadingDigits.2⟩ = n.decimal.value := exact room
  have filled : 0 < n.leadingDigits.1 := by
    by_contra none
    rw [← same, Decimal.value, Nat.eq_zero_of_not_pos none] at positive
    simp at positive
  rw [scaled_exact filled small near, bits_congr same]

theorem signed_eq (negative : Bool) (finite : m < infinityBits) :
    (if negative then -signed false m else signed false m) = signed negative m := by
  cases negative with
  | false => rfl
  | true => exact signed_neg finite

theorem zero_value (negative : Bool) :
    (ofDecimal Json.numbers negative ⟨0, 0⟩).value? = some (signed negative 0) := by
  obtain ⟨kPos, kFinite, _⟩ := power_bound (by decide : 1 ≤ 308)
  have none : bits ⟨0, 0⟩ = 0 := bits_zero 0
  have digits : (ofDecimal Json.numbers negative ⟨0, 0⟩).leadingDigits = (0, -1) := by
    cases negative <;> decide
  have scaled : scaled? 0 (-1) = some (signed false 0) := by
    have zero := zero_div kPos kFinite
    rw [← powerOfTen_eq] at zero
    have whole := ofInt_eq 0
    rw [Nat.cast_zero, none] at whole
    simp [scaled?, scaleDown, whole, zero]
  rw [← signed_eq negative (by decide : 0 < infinityBits)]
  have sign := ofDecimal_negative Json.numbers negative ⟨0, 0⟩
  rw [value_of_scaled (ofDecimal_isWord rfl _ _) (by rw [digits]; exact scaled), sign]

theorem shortest_value (negative : Bool) (filled : 0 < m) (finite : m < infinityBits) :
    ∃ y, (ofDecimal Json.numbers negative (shortest .even m)).value? = some y ∧
      ((ofDecimal Json.numbers negative (shortest .even m)).Short → y = signed negative m) := by
  have bits : (ofDecimal Json.numbers negative (shortest .even m)).decimal.bits = m := by
    rw [bits_congr (ofDecimal_value Json.numbers negative _), shortest_bits .even filled finite]
  have positive : 0 < (ofDecimal Json.numbers negative (shortest .even m)).decimal.value := by
    rw [ofDecimal_value]
    exact value_pos (shortest_pos .even filled finite)
  obtain ⟨y, scaled⟩ := Option.isSome_iff_exists.mp (shortest_scaled negative filled finite)
  refine ⟨_, value_of_scaled (ofDecimal_isWord rfl _ _) scaled, ?_⟩
  intro short
  have exact := short.scaled (numbers_whole negative _) (ofDecimal_fraction _ _ _) positive
  rw [scaled, bits] at exact
  rw [Option.some.inj exact, ofDecimal_negative, signed_eq negative finite]

/-- The JSON numeral of a finite value is read as a value, and a short one as the same value. -/
theorem ofFloat_value {x : Float} (finite : magnitude x < infinityBits) :
    ∃ n y, ofFloat? Json.numbers x = some n ∧ n.value? = some y ∧ (n.Short → y = x) := by
  have same := eq_signed finite
  by_cases zero : magnitude x = 0
  · rw [zero] at same
    refine ⟨_, _, ofFloat_finite finite, ?_, fun _ => same.symm⟩
    rw [if_pos zero]
    exact zero_value (isNegative x)
  · obtain ⟨y, value, exact⟩ :=
      shortest_value (isNegative x) (Nat.pos_of_ne_zero zero) finite
    refine ⟨_, y, ofFloat_finite finite, ?_, ?_⟩
    · rw [if_neg zero]
      exact value
    · rw [if_neg zero]
      intro short
      rw [exact short, ← same]

end Finite

end Wheelwork.Numeral
