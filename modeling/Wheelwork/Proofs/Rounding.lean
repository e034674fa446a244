import Mathlib.Algebra.Order.Field.Power
import Mathlib.Data.Nat.Cast.Field
import Mathlib.Data.Rat.Cast.Order
import Mathlib.Tactic.FieldSimp
import Mathlib.Tactic.Linarith
import Mathlib.Tactic.NormNum
import Mathlib.Tactic.Positivity
import Mathlib.Tactic.Ring
import Wheelwork.Decimal.Shortest

/-!
The nearest binary64 value as a relation. `Rounds v m` says that the bits `m` are those nearest to
the positive number `v`; there is at most one such `m`, so that any two ways to round agree. The
bits of a value are nearest to that value, hence the digits found for them read back.
-/
namespace Wheelwork.Decimal

/-- The whole number nearest to `v`, of two the even one. -/
structure Nearest (v : ℚ) (k : ℕ) : Prop where
  low : (k : ℚ) - 1 / 2 ≤ v
  high : v ≤ k + 1 / 2
  tie : v = k - 1 / 2 ∨ v = k + 1 / 2 → k % 2 = 0

/-- The exponent of two at which `v` has 53 binary digits, or the least one. -/
structure Grid (v : ℚ) (e : ℤ) : Prop where
  below : v < 2 ^ (e + 53)
  least : -1074 ≤ e
  full : e = -1074 ∨ 2 ^ (e + 52) ≤ v

/-- The bits of the number `k · 2 ^ e`, or those of infinity. -/
def gridBits (e : ℤ) (k : ℕ) : ℕ := min ((e + 1074).toNat * leadingBit + k) infinityBits

/-- The bits nearest to `v`. -/
def Rounds (v : ℚ) (m : ℕ) : Prop := ∃ e k, Grid v e ∧ Nearest (v / 2 ^ e) k ∧ m = gridBits e k

def bitsValue (magnitude : ℕ) : ℚ := (unpack magnitude).1 * 2 ^ (unpack magnitude).2

def value (x : Decimal) : ℚ := x.coefficient * 10 ^ x.exponent

section Unique

variable {v : ℚ} {k l m n : ℕ} {e f : ℤ}

theorem Nearest.le (one : Nearest v k) (other : Nearest v l) : k ≤ l := by
  by_contra less
  have apart : (l : ℚ) + 1 ≤ k := by exact_mod_cast Nat.lt_of_not_le less
  have low := one.low
  have high := other.high
  -- Both are a half away, and neighbours are not both even.
  have next : (k : ℚ) = (l + 1 : ℕ) := by
    push_cast
    linarith
  have even := one.tie (.inl (by linarith))
  have odd := other.tie (.inr (by linarith))
  have step : k = l + 1 := by exact_mod_cast next
  omega

theorem Nearest.unique (one : Nearest v k) (other : Nearest v l) : k = l :=
  Nat.le_antisymm (one.le other) (other.le one)

theorem Grid.le (one : Grid v e) (other : Grid v f) : e ≤ f := by
  rcases one.full with least | full
  · rw [least]
    exact other.least
  · have between : (2 : ℚ) ^ (e + 52) < 2 ^ (f + 53) := lt_of_le_of_lt full other.below
    have less := (zpow_lt_zpow_iff_right₀ (by norm_num : (1 : ℚ) < 2)).mp between
    omega

theorem Grid.unique (one : Grid v e) (other : Grid v f) : e = f :=
  le_antisymm (one.le other) (other.le one)

theorem Rounds.unique (one : Rounds v m) (other : Rounds v n) : m = n := by
  obtain ⟨e, k, grid, nearest, rfl⟩ := one
  obtain ⟨f, l, grid', nearest', rfl⟩ := other
  obtain rfl := grid.unique grid'
  rw [nearest.unique nearest']

end Unique

section Whole

theorem nearest_self (k : ℕ) : Nearest k k := by
  constructor
  · linarith
  · linarith
  · rintro (half | half) <;> linarith

theorem div_split (n : ℕ) {d : ℕ} (positive : 0 < d) :
    (n : ℚ) / d = (n / d : ℕ) + (n % d : ℕ) / d ∧ ((n % d : ℕ) : ℚ) / d < 1 := by
  have bottom : (0 : ℚ) < d := by exact_mod_cast positive
  constructor
  · have split : (n : ℚ) = d * (n / d : ℕ) + (n % d : ℕ) := by
      exact_mod_cast (Nat.div_add_mod n d).symm
    rw [div_eq_iff bottom.ne', add_mul, div_mul_cancel₀ _ bottom.ne']
    linarith
  · rw [div_lt_one bottom]
    exact_mod_cast Nat.mod_lt n positive

theorem roundHalfEven_nearest (n : ℕ) {d : ℕ} (positive : 0 < d) :
    Nearest ((n : ℚ) / d) (roundHalfEven n d) := by
  have bottom : (0 : ℚ) < d := by exact_mod_cast positive
  obtain ⟨quotient, less⟩ := div_split n positive
  have nonneg : (0 : ℚ) ≤ (n % d : ℕ) / d := by positivity
  have half : ((n % d : ℕ) : ℚ) / d * 2 = (2 * (n % d) : ℕ) / d := by
    push_cast
    ring
  unfold roundHalfEven
  simp only
  split_ifs with below above even
  · have short : ((2 * (n % d) : ℕ) : ℚ) / d < 1 := by
      rw [div_lt_one bottom]
      exact_mod_cast below
    rw [quotient]
    constructor
    · linarith
    · linarith
    · rintro (tie | tie) <;> linarith
  · have long : 1 < ((2 * (n % d) : ℕ) : ℚ) / d := by
      rw [one_lt_div bottom]
      exact_mod_cast above
    rw [quotient]
    constructor <;> push_cast
    · linarith
    · linarith
    · rintro (tie | tie) <;> linarith
  all_goals
    have middle : 2 * (n % d) = d := by omega
    have equal : ((2 * (n % d) : ℕ) : ℚ) / d = 1 := by rw [middle, div_self bottom.ne']
    rw [quotient]
  · refine ⟨by linarith, by linarith, fun _ => even⟩
  · constructor <;> push_cast
    · linarith
    · linarith
    · intro _
      omega

end Whole

section Fractions

theorem scale_spec {base : ℕ} (positive : 0 < base) (n : ℕ) {d : ℕ} (bottom : 0 < d) (e : ℤ) :
    0 < (scale base n d e).2 ∧
      ((scale base n d e).1 : ℚ) / (scale base n d e).2 = n / d / (base : ℚ) ^ e := by
  have power : (0 : ℚ) < base := by exact_mod_cast positive
  unfold scale
  split_ifs with whole
  · obtain ⟨k, rfl⟩ := Int.eq_ofNat_of_zero_le whole
    refine ⟨Nat.mul_pos bottom (Nat.pow_pos positive), ?_⟩
    simp only [Int.toNat_natCast, zpow_natCast, Nat.pow_eq, Nat.cast_mul,
      Nat.cast_pow]
    rw [div_div]
  · obtain ⟨k, rfl⟩ : ∃ k : ℕ, e = -k := ⟨(-e).toNat, by omega⟩
    refine ⟨bottom, ?_⟩
    simp only [neg_neg, Int.toNat_natCast, Nat.pow_eq, Nat.cast_mul, Nat.cast_pow, zpow_neg,
      zpow_natCast, div_inv_eq_mul]
    ring

theorem fraction_spec (x : Decimal) :
    0 < x.fraction.2 ∧ (x.fraction.1 : ℚ) / x.fraction.2 = x.value := by
  obtain ⟨bottom, same⟩ := scale_spec (by decide : 0 < 10) x.coefficient Nat.one_pos (-x.exponent)
  refine ⟨bottom, same.trans ?_⟩
  simp [value, zpow_neg]

theorem log_between {n : ℕ} (positive : 0 < n) :
    (2 : ℚ) ^ (n.log2 : ℤ) ≤ n ∧ (n : ℚ) < 2 ^ ((n.log2 : ℤ) + 1) := by
  constructor
  · have low := Nat.log2_self_le positive.ne'
    exact_mod_cast low
  · have high := Nat.lt_log2_self (n := n)
    exact_mod_cast high

theorem grid_max {v : ℚ} {e : ℤ} (below : v < 2 ^ (e + 53)) (full : 2 ^ (e + 52) ≤ v) :
    Grid v (max e (-1074)) := by
  rcases le_total e (-1074) with small | normal
  · rw [max_eq_right small]
    refine ⟨lt_of_lt_of_le below ?_, le_refl _, .inl rfl⟩
    exact zpow_le_zpow_right₀ (by norm_num) (by omega)
  · rw [max_eq_left normal]
    exact ⟨below, normal, .inr full⟩

theorem quotient_between {n d : ℕ} (some : 0 < n) (bottom : 0 < d) :
    2 ^ ((n.log2 : ℤ) - d.log2 - 1) ≤ (n : ℚ) / d ∧
      (n : ℚ) / d < 2 ^ ((n.log2 : ℤ) - d.log2 + 1) := by
  have two : (2 : ℚ) ≠ 0 := two_ne_zero
  obtain ⟨nLow, nHigh⟩ := log_between some
  obtain ⟨dLow, dHigh⟩ := log_between bottom
  have positive : (0 : ℚ) < d := by exact_mod_cast bottom
  constructor
  · rw [le_div_iff₀ positive]
    calc (2 : ℚ) ^ ((n.log2 : ℤ) - d.log2 - 1) * d
        ≤ 2 ^ ((n.log2 : ℤ) - d.log2 - 1) * 2 ^ ((d.log2 : ℤ) + 1) := by gcongr
      _ = 2 ^ (n.log2 : ℤ) := by
        rw [← zpow_add₀ two]
        congr 1
        omega
      _ ≤ n := nLow
  · rw [div_lt_iff₀ positive]
    calc (n : ℚ) < 2 ^ ((n.log2 : ℤ) + 1) := nHigh
      _ = 2 ^ ((n.log2 : ℤ) - d.log2 + 1) * 2 ^ (d.log2 : ℤ) := by
        rw [← zpow_add₀ two]
        congr 1
        omega
      _ ≤ 2 ^ ((n.log2 : ℤ) - d.log2 + 1) * d := by gcongr

theorem binaryExponent_grid {n d : ℕ} (some : 0 < n) (bottom : 0 < d) :
    Grid ((n : ℚ) / d) (binaryExponent n d) := by
  obtain ⟨low, high⟩ := quotient_between some bottom
  unfold binaryExponent
  simp only
  generalize guess : (n.log2 : ℤ) - d.log2 - 52 = e
  rw [show (n.log2 : ℤ) - d.log2 - 1 = e + 51 by omega] at low
  rw [show (n.log2 : ℤ) - d.log2 + 1 = e + 53 by omega] at high
  obtain ⟨below, same⟩ := scale_spec two_pos n bottom e
  generalize scale 2 n d e = split at below same
  obtain ⟨a, b⟩ := split
  simp only [Nat.cast_ofNat] at same
  have compare : a < b * leadingBit ↔ (n : ℚ) / d < 2 ^ (e + 52) := by
    have divisor : (0 : ℚ) < b := by exact_mod_cast below
    have scaled : (a : ℚ) / b < 2 ^ (52 : ℤ) ↔ (n : ℚ) / d < 2 ^ (e + 52) := by
      rw [same, div_lt_iff₀ (by positivity), ← zpow_add₀ two_ne_zero, add_comm e]
    rw [← scaled, div_lt_iff₀ divisor, mul_comm b]
    norm_num [leadingBit]
    exact_mod_cast Iff.rfl
  simp only [compare]
  split_ifs with short
  · refine grid_max ?_ ?_
    · rwa [show e - 1 + 53 = e + 52 by ring]
    · rwa [show e - 1 + 52 = e + 51 by ring]
  · exact grid_max high (not_lt.mp short)

theorem roundedBits_rounds {n d : ℕ} (some : 0 < n) (bottom : 0 < d) :
    Rounds ((n : ℚ) / d) (roundedBits n d) := by
  obtain ⟨below, same⟩ := scale_spec two_pos n bottom (binaryExponent n d)
  have nearest := roundHalfEven_nearest (scale 2 n d (binaryExponent n d)).1 below
  rw [same, Nat.cast_ofNat] at nearest
  refine ⟨binaryExponent n d, _, binaryExponent_grid some bottom, nearest, ?_⟩
  simp only [roundedBits, gridBits]

theorem nearestBits_rounds {n d : ℕ} (some : 0 < n) (bottom : 0 < d) :
    Rounds ((n : ℚ) / d) (nearestBits n d) := by
  have common : 0 < n.gcd d := Nat.gcd_pos_of_pos_left d some
  have upper : 0 < n / n.gcd d := Nat.div_pos (Nat.gcd_le_left d some) common
  have lower : 0 < d / n.gcd d := Nat.div_pos (Nat.gcd_le_right n bottom) common
  have same : ((n / n.gcd d : ℕ) : ℚ) / (d / n.gcd d : ℕ) = n / d := by
    have divisor : ((n.gcd d : ℕ) : ℚ) ≠ 0 := by exact_mod_cast common.ne'
    rw [Nat.cast_div (Nat.gcd_dvd_left n d) divisor, Nat.cast_div (Nat.gcd_dvd_right n d) divisor,
      div_div_div_cancel_right₀ divisor]
  rw [nearestBits, if_neg some.ne', ← same]
  exact roundedBits_rounds upper lower

theorem value_pos {x : Decimal} (some : 0 < x.coefficient) : 0 < x.value := by
  unfold value
  positivity

theorem bits_rounds {x : Decimal} (some : 0 < x.coefficient) : Rounds x.value x.bits := by
  obtain ⟨bottom, same⟩ := fraction_spec x
  have positive := value_pos some
  have upper : 0 < x.fraction.1 := by
    rw [← same] at positive
    by_contra none
    simp [Nat.eq_zero_of_not_pos none] at positive
  rw [← same]
  exact nearestBits_rounds upper bottom

theorem bits_zero (e : ℤ) : bits ⟨0, e⟩ = 0 := by
  unfold bits fraction scale nearestBits
  split_ifs <;> simp_all

theorem bits_congr {x y : Decimal} (same : x.value = y.value) : x.bits = y.bits := by
  have zero : ∀ {x : Decimal}, x.coefficient = 0 ↔ x.value = 0 := by
    intro x
    have ten : (10 : ℚ) ^ x.exponent ≠ 0 := zpow_ne_zero _ (by norm_num)
    simp [value, ten]
  by_cases none : x.coefficient = 0
  · have other : y.coefficient = 0 := by rw [zero, ← same, ← zero, none]
    obtain ⟨c, e⟩ := x
    obtain ⟨d, f⟩ := y
    simp only at none other
    rw [none, other, bits_zero, bits_zero]
  · have other : y.coefficient ≠ 0 := by rwa [Ne, zero, ← same, ← zero]
    have one := bits_rounds (Nat.pos_of_ne_zero none)
    rw [same] at one
    exact one.unique (bits_rounds (Nat.pos_of_ne_zero other))

end Fractions

section Bits

variable {m : ℕ}

theorem unpack_subnormal (field : m / leadingBit = 0) : unpack m = (m % leadingBit, -1074) := by
  simp [unpack, field]

theorem unpack_normal (field : m / leadingBit ≠ 0) :
    unpack m = (leadingBit + m % leadingBit, ((m / leadingBit : ℕ) : ℤ) - 1075) := by
  simp [unpack, field]

theorem unpack_spec (m : ℕ) :
    (unpack m).1 < 9007199254740992 ∧ -1074 ≤ (unpack m).2 ∧
      ((unpack m).2 = -1074 ∨ 4503599627370496 ≤ (unpack m).1) ∧
      m = ((unpack m).2 + 1074).toNat * leadingBit + (unpack m).1 := by
  have split := Nat.div_add_mod m leadingBit
  have inside := Nat.mod_lt m (by decide : 0 < leadingBit)
  by_cases field : m / leadingBit = 0
  · rw [unpack_subnormal field]
    simp only [leadingBit] at *
    refine ⟨by omega, by omega, .inl trivial, by omega⟩
  · rw [unpack_normal field]
    simp only [leadingBit] at *
    omega

theorem bitsValue_grid (m : ℕ) : Grid (bitsValue m) (unpack m).2 := by
  obtain ⟨small, least, full, _⟩ := unpack_spec m
  have power : (0 : ℚ) < 2 ^ (unpack m).2 := by positivity
  refine ⟨?_, least, ?_⟩
  · have cast : ((unpack m).1 : ℚ) < 2 ^ (53 : ℤ) := by
      norm_num
      exact_mod_cast small
    rw [bitsValue, add_comm, zpow_add₀ two_ne_zero]
    gcongr
  · rcases full with subnormal | full
    · exact .inl subnormal
    · have cast : (2 : ℚ) ^ (52 : ℤ) ≤ (unpack m).1 := by
        norm_num
        exact_mod_cast full
      right
      rw [bitsValue, add_comm, zpow_add₀ two_ne_zero]
      gcongr

theorem bitsValue_rounds (finite : m < infinityBits) : Rounds (bitsValue m) m := by
  refine ⟨(unpack m).2, (unpack m).1, bitsValue_grid m, ?_, ?_⟩
  · have power : (2 : ℚ) ^ (unpack m).2 ≠ 0 := by positivity
    rw [bitsValue, mul_div_cancel_right₀ _ power]
    exact nearest_self _
  · have same := (unpack_spec m).2.2.2
    rw [gridBits, ← same, min_eq_left finite.le]

theorem exact_value (m : ℕ) : (exact m).value = bitsValue m := by
  unfold exact bitsValue
  generalize unpack m = parts
  obtain ⟨s, e⟩ := parts
  simp only
  split_ifs with whole
  · obtain ⟨k, rfl⟩ := Int.eq_ofNat_of_zero_le whole
    simp [value]
  · obtain ⟨k, rfl⟩ : ∃ k : ℕ, e = -k := ⟨(-e).toNat, by omega⟩
    have ten : (10 : ℚ) = 5 * 2 := by norm_num
    simp only [value, neg_neg, Int.toNat_natCast, Nat.pow_eq, Nat.cast_mul, Nat.cast_pow,
      Nat.cast_ofNat, zpow_neg, zpow_natCast, ten, mul_pow, mul_inv]
    field_simp

theorem unpack_pos (some : 0 < m) : 0 < (unpack m).1 := by
  obtain ⟨_, _, full, same⟩ := unpack_spec m
  by_contra none
  have zero : (unpack m).1 = 0 := by omega
  rcases full with least | full
  · rw [least, zero] at same
    simp at same
    omega
  · omega

theorem bitsValue_pos (some : 0 < m) : 0 < bitsValue m := by
  have digits := unpack_pos some
  unfold bitsValue
  positivity

theorem exact_bits (some : 0 < m) (finite : m < infinityBits) : (exact m).bits = m := by
  have positive : 0 < (exact m).coefficient := by
    have above := bitsValue_pos some
    rw [← exact_value] at above
    by_contra none
    have zero : (exact m).coefficient = 0 := by omega
    simp [value, zero] at above
  have rounds := bits_rounds positive
  rw [exact_value] at rounds
  exact rounds.unique (bitsValue_rounds finite)

theorem onGrid_bits {tie : Tie} {digits : ℕ} {x : Decimal} (found : onGrid? tie m digits = some x) :
    x.bits = m := by
  unfold onGrid? at found
  have fits := List.find?_some found
  simpa using fits

theorem shortest_bits (tie : Tie) (some : 0 < m) (finite : m < infinityBits) :
    (shortest tie m).bits = m := by
  unfold shortest
  cases found : (List.range 17).findSome? fun i => onGrid? tie m (i + 1) with
  | none => exact exact_bits some finite
  | some x =>
    obtain ⟨i, _, given⟩ := List.exists_of_findSome?_eq_some found
    exact onGrid_bits given

end Bits

section Range

variable {v : ℚ} {k m : ℕ} {e : ℤ}

theorem Nearest.le_carry (nearest : Nearest v k) (less : v < 9007199254740992) :
    k ≤ 9007199254740992 := by
  have low := nearest.low
  have cast : (k : ℚ) < (9007199254740993 : ℕ) := by
    push_cast
    linarith
  have bound : k < 9007199254740993 := by exact_mod_cast cast
  omega

theorem Nearest.leading_le (nearest : Nearest v k) (full : 4503599627370496 ≤ v) :
    4503599627370496 ≤ k := by
  have high := nearest.high
  have cast : ((4503599627370495 : ℕ) : ℚ) < k := by
    push_cast
    linarith
  have bound : 4503599627370495 < k := by exact_mod_cast cast
  omega

theorem Grid.scaled (grid : Grid v e) :
    v / 2 ^ e < 9007199254740992 ∧ (e = -1074 ∨ 4503599627370496 ≤ v / 2 ^ e) := by
  constructor
  · have below := grid.below
    rw [add_comm, zpow_add₀ two_ne_zero] at below
    rw [div_lt_iff₀ (by positivity)]
    norm_num at below ⊢
    exact below
  · rcases grid.full with least | full
    · exact .inl least
    · right
      rw [add_comm, zpow_add₀ two_ne_zero] at full
      rw [le_div_iff₀ (by positivity)]
      norm_num at full ⊢
      exact full

theorem Rounds.digits (rounds : Rounds v m) :
    ∃ e k, Grid v e ∧ Nearest (v / 2 ^ e) k ∧ m = gridBits e k ∧ k ≤ 9007199254740992 ∧
      (e = -1074 ∨ 4503599627370496 ≤ k) := by
  obtain ⟨e, k, grid, nearest, rfl⟩ := rounds
  obtain ⟨less, full⟩ := grid.scaled
  exact ⟨e, k, grid, nearest, rfl, nearest.le_carry less, full.imp_right nearest.leading_le⟩

theorem bitsValue_gridBits (carry : k ≤ 9007199254740992) (least : -1074 ≤ e)
    (full : e = -1074 ∨ 4503599627370496 ≤ k) (finite : gridBits e k < infinityBits) :
    bitsValue (gridBits e k) = k * 2 ^ e := by
  obtain ⟨small, low, normal, same⟩ := unpack_spec (gridBits e k)
  unfold bitsValue
  generalize unpack (gridBits e k) = parts at *
  obtain ⟨l, f⟩ := parts
  simp only [gridBits, infinityBits, leadingBit] at *
  -- Either the digits are those of the grid, or a carry has moved them on by one place.
  by_cases carried : k = 9007199254740992
  · have digits : l = 4503599627370496 := by omega
    have exponent : f = e + 1 := by omega
    rw [carried, digits, exponent, zpow_add_one₀ two_ne_zero]
    push_cast
    ring
  · have digits : l = k := by omega
    have exponent : f = e := by omega
    rw [digits, exponent]

/-- The least number that is rounded to infinity. -/
def overflow : ℚ := (9007199254740992 - 1 / 2) * 2 ^ (971 : ℤ)

theorem overflow_lt : overflow < 2 ^ (1024 : ℤ) := by
  have split : (2 : ℚ) ^ (1024 : ℤ) = 2 ^ (53 : ℤ) * 2 ^ (971 : ℤ) := by
    rw [← zpow_add₀ two_ne_zero]
    norm_num
  rw [overflow, split]
  gcongr
  norm_num

theorem Rounds.finite (rounds : Rounds v m) (less : v < overflow) : m < infinityBits := by
  obtain ⟨e, k, grid, nearest, rfl, carry, _⟩ := rounds.digits
  have below : e ≤ 971 := by
    rcases grid.full with least | full
    · omega
    · have between : (2 : ℚ) ^ (e + 52) < 2 ^ (1024 : ℤ) :=
        full.trans_lt (less.trans overflow_lt)
      have exponents := (zpow_lt_zpow_iff_right₀ (by norm_num : (1 : ℚ) < 2)).mp between
      omega
  have least := grid.least
  simp only [gridBits, infinityBits, leadingBit]
  by_cases top : e = 971
  · subst top
    have short : v / 2 ^ (971 : ℤ) < 9007199254740992 - 1 / 2 := by
      rwa [div_lt_iff₀ (by positivity)]
    have low := nearest.low
    have digits : (k : ℚ) < (9007199254740992 : ℕ) := by
      push_cast
      linarith
    have uncarried : k < 9007199254740992 := by exact_mod_cast digits
    omega
  · omega

theorem Rounds.le {apart : ℕ} (rounds : Rounds v m) (below : m + apart < infinityBits)
    (near : apart ≤ 4503599627370495) : v ≤ (9007199254740992 - 1 / 2 - apart) * 2 ^ (971 : ℤ) := by
  obtain ⟨e, k, grid, nearest, rfl, _, full⟩ := rounds.digits
  have least := grid.least
  simp only [gridBits, infinityBits, leadingBit] at below
  have power : (0 : ℚ) < 2 ^ (971 : ℤ) := by positivity
  have cast : (apart : ℚ) ≤ 4503599627370495 := by exact_mod_cast near
  rcases lt_trichotomy e 971 with low | top | high
  · calc v ≤ 2 ^ (e + 53) := grid.below.le
      _ ≤ 2 ^ ((52 : ℤ) + 971) := zpow_le_zpow_right₀ (by norm_num) (by omega)
      _ = 2 ^ (52 : ℤ) * 2 ^ (971 : ℤ) := zpow_add₀ two_ne_zero _ _
      _ ≤ (9007199254740992 - 1 / 2 - apart) * 2 ^ (971 : ℤ) := by
        gcongr
        norm_num
        linarith
  · subst top
    have digits : k + apart + 1 ≤ 9007199254740992 := by omega
    have bound : (k : ℚ) + apart + 1 ≤ 9007199254740992 := by exact_mod_cast digits
    have close := nearest.high
    rw [div_le_iff₀ power] at close
    refine close.trans ?_
    gcongr
    linarith
  · omega

theorem Grid.normal (grid : Grid v e) (large : 1 ≤ v) : 4503599627370496 ≤ v / 2 ^ e := by
  rcases grid.scaled.2 with subnormal | normal
  · have below := grid.below
    have tiny : (2 : ℚ) ^ (e + 53) ≤ 2 ^ (0 : ℤ) := zpow_le_zpow_right₀ (by norm_num) (by omega)
    rw [zpow_zero] at tiny
    linarith
  · exact normal

theorem Rounds.pos (rounds : Rounds v m) (large : 1 ≤ v) : 0 < m := by
  obtain ⟨e, k, grid, nearest, rfl⟩ := rounds
  have digits := nearest.leading_le (grid.normal large)
  simp only [gridBits, infinityBits, leadingBit]
  omega

theorem Rounds.value_le (rounds : Rounds v m) (finite : m < infinityBits) (large : 1 ≤ v) :
    bitsValue m ≤ v * (1 + 1 / 9007199254740992) := by
  obtain ⟨e, k, grid, nearest, rfl, carry, full⟩ := rounds.digits
  have power : (0 : ℚ) < 2 ^ e := by positivity
  have digits := grid.normal large
  rw [bitsValue_gridBits carry grid.least full finite]
  rw [le_div_iff₀ power] at digits
  have low := nearest.low
  rw [le_div_iff₀ power] at low
  linarith

/-- A number of no more than 53 binary digits is a value. -/
theorem representable {n j : ℕ} (some : 0 < n) (small : n < 9007199254740992) (near : j ≤ 900) :
    ∃ m, 0 < m ∧ m < infinityBits ∧ bitsValue m = n * 2 ^ j := by
  obtain ⟨low, high⟩ := log_between some
  have log : n.log2 < 53 := (Nat.log2_lt some.ne').mpr small
  have first : 4503599627370496 ≤ n * 2 ^ (52 - n.log2) := by
    calc 4503599627370496 = 2 ^ (n.log2 + (52 - n.log2)) := by
          rw [Nat.add_sub_of_le (by omega)]
      _ = 2 ^ n.log2 * 2 ^ (52 - n.log2) := Nat.pow_add ..
      _ ≤ n * 2 ^ (52 - n.log2) := Nat.mul_le_mul_right _ (Nat.log2_self_le some.ne')
  have last : n * 2 ^ (52 - n.log2) ≤ 9007199254740992 := by
    calc n * 2 ^ (52 - n.log2) ≤ 2 ^ (n.log2 + 1) * 2 ^ (52 - n.log2) :=
          Nat.mul_le_mul_right _ Nat.lt_log2_self.le
      _ = 2 ^ (n.log2 + 1 + (52 - n.log2)) := (Nat.pow_add ..).symm
      _ = 9007199254740992 := by
          rw [show n.log2 + 1 + (52 - n.log2) = 53 by omega]
          norm_num
  have finite : gridBits (n.log2 - 52 + j) (n * 2 ^ (52 - n.log2)) < infinityBits := by
    simp only [gridBits, infinityBits, leadingBit]
    omega
  refine ⟨_, ?_, finite, (bitsValue_gridBits last (by omega) (.inr first) finite).trans ?_⟩
  · simp only [gridBits, infinityBits, leadingBit]
    omega
  · have exponent : (n.log2 : ℤ) - 52 + j = -(52 - n.log2 : ℕ) + j := by omega
    rw [exponent, zpow_add₀ two_ne_zero, zpow_neg, zpow_natCast, zpow_natCast]
    push_cast
    field_simp

end Range

end Wheelwork.Decimal
