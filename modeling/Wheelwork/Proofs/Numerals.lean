import Wheelwork.Program.Decode
import Wheelwork.Proofs.FloatBits

/-!
What numerals denote. The numeral of a decimal denotes that decimal in every style.
-/
namespace Wheelwork.Numeral

open Decimal (value)

section Digits

theorem digit_lt {c : Char} (digit : c.isDigit = true) : c.toNat - '0'.toNat < 10 := by
  obtain ⟨_, high⟩ := Char.isDigit_iff_toNat.mp digit
  have zero : '0'.toNat = 48 := rfl
  have nine : '9'.toNat = 57 := rfl
  omega

theorem digits_lt {cs : List Char} (digits : ∀ c ∈ cs, c.isDigit = true) :
    Nat.ofDigitChars 10 cs 0 < 10 ^ cs.length := by
  induction cs with
  | nil => simp
  | cons c cs ih =>
    have first := digit_lt (digits c (by simp))
    have rest := ih fun d member => digits d (by simp [member])
    rw [Nat.ofDigitChars_cons, Nat.ofDigitChars_eq_ofDigitChars_zero, Nat.mul_zero, Nat.zero_add,
      List.length_cons, Nat.pow_succ]
    have scaled := Nat.mul_le_mul_left (10 ^ cs.length) (Nat.le_of_lt_succ first)
    omega

theorem toDigits_digits (n : ℕ) : ∀ c ∈ Nat.toDigits 10 n, c.isDigit = true :=
  fun _ member => Nat.isDigit_of_mem_toDigits (by decide) (by decide) member

theorem padded_digits (places n : ℕ) : ∀ c ∈ padded places n, c.isDigit = true := by
  intro c member
  rcases List.mem_append.mp member with zero | digit
  · rw [List.eq_of_mem_replicate zero]
    rfl
  · exact toDigits_digits n c digit

theorem padded_length {places n : ℕ} (some : 0 < places) (fits : n < 10 ^ places) :
    (padded places n).length = places := by
  have short := (Nat.length_toDigits_le_iff (by decide : 1 < 10) some).mpr fits
  simp only [padded, List.length_append, List.length_replicate]
  omega

theorem padded_value (places n : ℕ) : Nat.ofDigitChars 10 (padded places n) 0 = n := by
  simp [padded, Nat.ofDigitChars_append]

theorem toDigits_split (n : ℕ) :
    Nat.ofDigitChars 10 ((Nat.toDigits 10 n).drop 1)
      (n / 10 ^ ((Nat.toDigits 10 n).length - 1)) = n := by
  have whole : Nat.ofDigitChars 10 (Nat.toDigits 10 n) 0 = n := Nat.ofDigitChars_ten_toDigits
  have digits := toDigits_digits n
  cases shown : Nat.toDigits 10 n with
  | nil => exact absurd shown Nat.toDigits_ne_nil
  | cons c cs =>
    rw [shown] at whole digits
    have rest := digits_lt fun d member => digits d (List.mem_cons_of_mem c member)
    rw [Nat.ofDigitChars_cons, Nat.mul_zero, Nat.zero_add,
      Nat.ofDigitChars_eq_ofDigitChars_zero] at whole
    have first : n / 10 ^ cs.length = c.toNat - '0'.toNat := by
      rw [← whole, Nat.mul_add_div (Nat.pow_pos (by decide)), Nat.div_eq_of_lt rest, Nat.add_zero]
    simp only [List.drop_one, List.tail_cons, List.length_cons, Nat.add_sub_cancel, first]
    rw [Nat.ofDigitChars_eq_ofDigitChars_zero, whole]

end Digits

section OfDecimal

variable (style : Style) (negative : Bool) (x : Decimal)

theorem ofDecimal_value : (ofDecimal style negative x).decimal.value = x.value := by
  obtain ⟨c, e⟩ := x
  simp only [ofDecimal, Nat.pow_eq]
  split_ifs with positional whole zero
  · obtain ⟨k, rfl⟩ := Int.eq_ofNat_of_zero_le whole
    have digit : Nat.ofDigitChars 10 ['0'] (c * 10 ^ k) = c * 10 ^ k * 10 := by
      simp [Nat.ofDigitChars_cons, Nat.mul_comm]
    simp [decimal, value, digit]
  · obtain ⟨k, rfl⟩ := Int.eq_ofNat_of_zero_le whole
    simp [decimal, value]
  · obtain ⟨k, rfl⟩ : ∃ k : ℕ, e = -k := ⟨(-e).toNat, by omega⟩
    have some : 0 < k := by omega
    have length := padded_length some (Nat.mod_lt c (Nat.pow_pos (by decide : 0 < 10)))
    have digits : Nat.ofDigitChars 10 (padded k (c % 10 ^ k)) (c / 10 ^ k) = c := by
      rw [Nat.ofDigitChars_eq_ofDigitChars_zero, padded_value, length, Nat.div_add_mod]
    simp [decimal, value, digits, length]
  · have some : 0 < (Nat.toDigits 10 c).length := Nat.length_toDigits_pos
    simp only [decimal, value, toDigits_split, Option.getD_some, List.length_drop]
    congr 2
    omega

theorem ofDecimal_fraction : ∀ c ∈ (ofDecimal style negative x).fraction, c.isDigit = true := by
  intro c member
  simp only [ofDecimal] at member
  split_ifs at member with positional whole zero
  · rw [List.mem_singleton.mp member]
    rfl
  · simp at member
  · exact padded_digits _ _ c member
  · exact toDigits_digits _ c (List.mem_of_mem_drop member)

theorem ofDecimal_negative : (ofDecimal style negative x).negative = negative := by
  simp only [ofDecimal]
  split_ifs <;> rfl

theorem ofDecimal_whole {places : ℕ} (some : 0 < places)
    (few : ∀ e, style.positional e = true → e < places) :
    (ofDecimal style negative x).whole < 10 ^ places := by
  obtain ⟨c, e⟩ := x
  have positive : 0 < (Nat.toDigits 10 c).length := Nat.length_toDigits_pos
  have bound : c < 10 ^ (Nat.toDigits 10 c).length :=
    (Nat.length_toDigits_le_iff (by decide) positive).mp (le_refl _)
  have reach : ∀ k, (Nat.toDigits 10 c).length ≤ k → c < 10 ^ k := fun k long =>
    Nat.lt_of_lt_of_le bound (Nat.pow_le_pow_right (by decide) long)
  by_cases positional : style.positional (e + (Nat.toDigits 10 c).length - 1) = true
  · have below := few _ positional
    by_cases whole : 0 ≤ e
    · simp only [ofDecimal, positional, whole, ↓reduceIte, Nat.pow_eq]
      obtain ⟨k, rfl⟩ := Int.eq_ofNat_of_zero_le whole
      calc c * 10 ^ k < 10 ^ (Nat.toDigits 10 c).length * 10 ^ k :=
            Nat.mul_lt_mul_of_pos_right bound (Nat.pow_pos (by decide))
        _ = 10 ^ ((Nat.toDigits 10 c).length + k) := (Nat.pow_add ..).symm
        _ ≤ 10 ^ places := Nat.pow_le_pow_right (by decide) (by omega)
    · simp only [ofDecimal, positional, whole, ↓reduceIte, Nat.pow_eq]
      rw [Nat.div_lt_iff_lt_mul (Nat.pow_pos (by decide)), ← Nat.pow_add]
      exact reach _ (by omega)
  · simp only [ofDecimal, positional, Bool.false_eq_true, ↓reduceIte, Nat.pow_eq]
    rw [Nat.div_lt_iff_lt_mul (Nat.pow_pos (by decide)), ← Nat.pow_add]
    exact reach _ (by omega)

end OfDecimal

theorem ofFloat_finite {style : Style} {x : Float}
    (finite : magnitude x < Decimal.infinityBits) :
    ofFloat? style x = some (ofDecimal style (isNegative x)
      (if magnitude x = 0 then ⟨0, 0⟩ else Decimal.shortest style.tie (magnitude x))) :=
  if_pos finite

section Gather

/-- What is read and what is left, and that reading stops at the first digit too many. -/
theorem gather_spec {cs : List Char} (digits : ∀ c ∈ cs, c.isDigit = true) {s : ℕ}
    (fits : s < UInt64.size) :
    ∃ read, cs = read ++ (gather s cs).2 ∧ (gather s cs).1 = Nat.ofDigitChars 10 read s ∧
      (gather s cs).1 < UInt64.size ∧
      ((gather s cs).2 = [] ∨ UInt64.size ≤ (gather s cs).1 * 10 + 9) := by
  induction cs generalizing s with
  | nil => exact ⟨[], rfl, rfl, fits, .inl rfl⟩
  | cons c cs ih =>
    have digit := digit_lt (digits c (by simp))
    unfold gather
    simp only
    split_ifs with room
    · obtain ⟨read, split, value, small, stop⟩ :=
        ih (fun d member => digits d (by simp [member])) room
      refine ⟨c :: read, by rw [List.cons_append, ← split], ?_, small, stop⟩
      rw [value, Nat.ofDigitChars_cons, Nat.mul_comm 10]
    · refine ⟨[], rfl, rfl, fits, .inr ?_⟩
      omega

theorem gather_all {n : ℕ} (few : n < 10 ^ 16) : gather 0 (Nat.toDigits 10 n) = (n, []) := by
  obtain ⟨read, split, value, small, stop⟩ :=
    gather_spec (toDigits_digits n) (by decide : 0 < UInt64.size)
  have whole : Nat.ofDigitChars 10 (Nat.toDigits 10 n) 0 = n := Nat.ofDigitChars_ten_toDigits
  generalize gather 0 (Nat.toDigits 10 n) = parts at *
  obtain ⟨s, rest⟩ := parts
  simp only at *
  rw [split, Nat.ofDigitChars_append, ← value] at whole
  rcases stop with rfl | full
  · rw [Nat.ofDigitChars_nil] at whole
    rw [whole]
  · rw [Nat.ofDigitChars_eq_ofDigitChars_zero] at whole
    have least := Nat.le_mul_of_pos_left s (Nat.pow_pos (by decide) : 0 < 10 ^ rest.length)
    simp only [UInt64.size] at full
    omega

/-- The leading digits scaled are the number or, if there are too many digits, less. -/
theorem leadingDigits_spec {n : Numeral} (few : n.whole < 10 ^ 16)
    (digits : ∀ c ∈ n.fraction, c.isDigit = true) :
    n.leadingDigits.1 < UInt64.size ∧
      (n.leadingDigits.1 : ℚ) * 10 ^ n.leadingDigits.2 ≤ n.decimal.value ∧
      (n.leadingDigits.1 * 10 + 9 < UInt64.size →
        (n.leadingDigits.1 : ℚ) * 10 ^ n.leadingDigits.2 = n.decimal.value) := by
  have fits : n.whole < UInt64.size := Nat.lt_trans few (by decide)
  obtain ⟨read, split, all, small, stop⟩ := gather_spec digits fits
  have parts : n.leadingDigits = ((gather n.whole n.fraction).1,
      0 - ((n.fraction.length : ℤ) - (gather n.whole n.fraction).2.length) + n.exponent.getD 0) := by
    simp [leadingDigits, gather_all few]
  rw [parts]
  generalize gather n.whole n.fraction = gathered at *
  obtain ⟨s, unread⟩ := gathered
  simp only at *
  have coefficient : Nat.ofDigitChars 10 n.fraction n.whole =
      10 ^ unread.length * s + Nat.ofDigitChars 10 unread 0 := by
    rw [split, Nat.ofDigitChars_append, ← all, Nat.ofDigitChars_eq_ofDigitChars_zero]
  have exponent : n.exponent.getD 0 - (n.fraction.length : ℤ) =
      (0 - ((n.fraction.length : ℤ) - unread.length) + n.exponent.getD 0) + -(unread.length : ℤ) := by
    ring
  have value : n.decimal.value =
      (s + Nat.ofDigitChars 10 unread 0 / 10 ^ unread.length) *
        10 ^ (0 - ((n.fraction.length : ℤ) - unread.length) + n.exponent.getD 0) := by
    rw [Decimal.value, decimal, coefficient, exponent, zpow_add₀ (by norm_num), zpow_neg,
      zpow_natCast]
    push_cast
    field_simp
  rw [value]
  refine ⟨small, ?_, ?_⟩
  · gcongr
    have low : (0 : ℚ) ≤ Nat.ofDigitChars 10 unread 0 / 10 ^ unread.length := by positivity
    linarith
  · intro room
    rcases stop with rfl | full
    · simp
    · omega

end Gather

end Wheelwork.Numeral
