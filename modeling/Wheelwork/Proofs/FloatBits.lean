import Mathlib
import Wheelwork.Decimal.Numeral
import Wheelwork.Proofs.Rounding

/-!
Products and quotients of binary64 values as bits. The guard bits that the arithmetic carries along
say exactly where the true result lies, so that the bits it arrives at are those nearest to the
result.
-/
namespace Wheelwork.Decimal

open Float.Model Float.Model.UnpackedFloat

/-- The mantissa and the guard bits tell where `w` lies. -/
def Represents (em : ExtendedMantissa) (w : ℚ) : Prop :=
  match em.roundBit, em.stickyBit with
  | false, false => w = em.mantissa
  | false, true => em.mantissa < w ∧ w < em.mantissa + 1 / 2
  | true, false => w = em.mantissa + 1 / 2
  | true, true => em.mantissa + 1 / 2 < w ∧ w < em.mantissa + 1

section Guard

variable {em : ExtendedMantissa} {w : ℚ}

theorem Represents.floor (known : Represents em w) : em.mantissa ≤ w ∧ w < em.mantissa + 1 := by
  unfold Represents at known
  split at known
  · constructor <;> linarith
  · constructor <;> linarith
  · constructor <;> linarith
  · constructor <;> linarith

theorem Represents.nearest (known : Represents em w) : Nearest w em.roundedMantissa := by
  obtain ⟨mantissa, round, sticky⟩ := em
  cases round <;> cases sticky <;> simp only [Represents] at known
  · rw [known]
    exact nearest_self mantissa
  · have rounded : ExtendedMantissa.roundedMantissa ⟨mantissa, false, true⟩ = mantissa := rfl
    rw [rounded]
    constructor
    · linarith
    · linarith
    · rintro (tie | tie) <;> linarith
  · have rounded : ExtendedMantissa.roundedMantissa ⟨mantissa, true, false⟩ =
        mantissa + mantissa % 2 := rfl
    rw [rounded, known]
    rcases Nat.mod_two_eq_zero_or_one mantissa with even | odd
    · rw [even]
      exact ⟨by simp; linarith, by simp, fun _ => even⟩
    · rw [odd]
      refine ⟨?_, ?_, fun _ => by omega⟩ <;> push_cast <;> linarith
  · have rounded : ExtendedMantissa.roundedMantissa ⟨mantissa, true, true⟩ = mantissa + 1 := rfl
    rw [rounded]
    constructor <;> push_cast
    · linarith
    · linarith
    · rintro (tie | tie) <;> linarith

theorem Represents.halved (known : Represents em w) : Represents em.shiftRightOne (w / 2) := by
  obtain ⟨mantissa, round, sticky⟩ := em
  have split : ((mantissa : ℕ) : ℚ) = 2 * (mantissa / 2 : ℕ) + (mantissa % 2 : ℕ) := by
    exact_mod_cast (Nat.div_add_mod mantissa 2).symm
  have zero : ((0 : ℕ) != 0) = false := rfl
  have one : ((1 : ℕ) != 0) = true := rfl
  rcases Nat.mod_two_eq_zero_or_one mantissa with even | odd
  · rw [even, Nat.cast_zero, add_zero] at split
    cases round <;> cases sticky <;>
      simp only [Represents, ExtendedMantissa.shiftRightOne, even, zero, Bool.or_false,
        Bool.or_true] at known ⊢
    · linarith
    all_goals constructor <;> linarith
  · rw [odd, Nat.cast_one] at split
    cases round <;> cases sticky <;>
      simp only [Represents, ExtendedMantissa.shiftRightOne, odd, one, Bool.or_false,
        Bool.or_true] at known ⊢
    · linarith
    all_goals constructor <;> linarith

theorem Represents.shifted (known : Represents em w) (count : ℕ) :
    Represents (em >>> count) (w / 2 ^ count) := by
  change Represents (count.repeat ExtendedMantissa.shiftRightOne em) _
  induction count with
  | zero => simpa [Nat.repeat] using known
  | succ count ih =>
    rw [Nat.repeat, pow_succ, ← div_div]
    exact ih.halved

theorem represents_exact (k : ℕ) :
    Represents (ExtendedMantissa.ofMantissaAndAccuracy k .exact) k := rfl

theorem represents_fraction (n : ℕ) {d : ℕ} (bottom : 0 < d) :
    Represents (ExtendedMantissa.ofMantissaAndAccuracy (n / d) (accuracyOfFraction (n % d) d))
      ((n : ℚ) / d) := by
  have positive : (0 : ℚ) < d := by exact_mod_cast bottom
  obtain ⟨quotient, less⟩ := div_split n bottom
  rw [quotient]
  generalize n / d = q
  generalize n % d = r at *
  unfold accuracyOfFraction
  split_ifs with zero
  · rw [zero, Nat.cast_zero, zero_div, add_zero]
    exact represents_exact q
  · have some : (0 : ℚ) < r / d := by
      have : (0 : ℚ) < r := by exact_mod_cast Nat.pos_of_ne_zero zero
      positivity
    have double : (r : ℚ) / d * 2 = (2 * r : ℕ) / d := by
      push_cast
      ring
    rcases lt_trichotomy (2 * r) d with below | middle | above
    · have short : ((2 * r : ℕ) : ℚ) / d < 1 := by
        rw [div_lt_one positive]
        exact_mod_cast below
      rw [Nat.compare_eq_lt.mpr below]
      simp only [ExtendedMantissa.ofMantissaAndAccuracy, Represents]
      constructor <;> linarith
    · have equal : ((2 * r : ℕ) : ℚ) / d = 1 := by rw [middle, div_self positive.ne']
      rw [Nat.compare_eq_eq.mpr middle]
      have half : (r : ℚ) / d = 1 / 2 := by linarith
      rw [half]
      rfl
    · have long : 1 < ((2 * r : ℕ) : ℚ) / d := by
        rw [one_lt_div positive]
        exact_mod_cast above
      rw [Nat.compare_eq_gt.mpr above]
      simp only [ExtendedMantissa.ofMantissaAndAccuracy, Represents]
      constructor <;> linarith

end Guard

def signWeight : Sign → ℕ
  | .negative => signBit
  | .positive => 0

section Pack

theorem packComponents_toNat (s : Sign) (x : BitVec 11) (y : BitVec 52) :
    (packComponents Format.binary64 s x y).toNat =
      signWeight s + x.toNat * leadingBit + y.toNat := by
  have field := x.isLt
  have low := y.isLt
  unfold packComponents
  rw [BitVec.toNat_append, BitVec.toNat_append, ← Nat.shiftLeft_add_eq_or_of_lt low,
    ← Nat.shiftLeft_add_eq_or_of_lt field, Nat.shiftLeft_eq, Nat.shiftLeft_eq]
  cases s with
  | negative =>
    simp only [Sign.toBitVec, signWeight, signBit, leadingBit]
    norm_num
    omega
  | positive => simp [Sign.toBitVec, signWeight, leadingBit]

theorem pack_infinity (s : Sign) :
    (packedInfinity Format.binary64 s).toNat = signWeight s + infinityBits := by
  have ones : (-1#11).toNat = 2047 := rfl
  rw [packedInfinity]
  exact (packComponents_toNat s _ _).trans (by rw [ones]; rfl)

theorem pack_finite {s : Sign} {k : ℕ} {e : ℤ} (some : 0 < k) (small : k < 9007199254740992)
    (least : -1074 ≤ e) (full : e = -1074 ∨ 4503599627370496 ≤ k) :
    (UnpackedFloat.pack Format.binary64 (.finite s k e some)).toNat =
      signWeight s + gridBits e k := by
  have digits : k.log2 + 1 = 53 ↔ 4503599627370496 ≤ k := by
    have above : k.log2 < 53 := (Nat.log2_lt some.ne').mpr small
    have below : k.log2 < 52 ↔ k < 4503599627370496 := Nat.log2_lt some.ne'
    omega
  have biased : (e + (1023 : ℕ) + (52 : ℕ)).toNat = (e + 1075).toNat := by
    congr 1
    omega
  have unfolded : UnpackedFloat.pack Format.binary64 (.finite s k e some) =
      if 2048 ≤ (e + 1075).toNat + 1 then packedInfinity Format.binary64 s
      else if 4503599627370496 ≤ k then
        packComponents Format.binary64 s (BitVec.ofNat 11 (e + 1075).toNat) (BitVec.ofNat 52 k)
      else packComponents Format.binary64 s 0#11 (BitVec.ofNat 52 k) := by
    rw [← biased, ← ite_cond_congr (propext digits)]
    rfl
  rw [unfolded]
  split_ifs with high normal
  · rw [pack_infinity]
    simp only [gridBits, infinityBits, leadingBit]
    omega
  · rw [packComponents_toNat, BitVec.toNat_ofNat, BitVec.toNat_ofNat]
    simp only [gridBits, infinityBits, leadingBit]
    omega
  · rw [packComponents_toNat, BitVec.toNat_ofNat, BitVec.toNat_ofNat]
    simp only [gridBits, infinityBits, leadingBit]
    omega

theorem pack_zero (s : Sign) :
    (UnpackedFloat.pack Format.binary64 (.zero s)).toNat = signWeight s :=
  (packComponents_toNat s 0 0).trans (by simp)

end Pack

section Round

variable {v w : ℚ} {mantissa : ℕ} {e : ℤ} {accuracy : Accuracy}

def target (mantissa : ℕ) (e : ℤ) : ℤ := max (mantissa.log2 + e - 52) (-1074)

theorem target_eq (mantissa : ℕ) (e : ℤ) :
    Format.binary64.targetExponent (totalExponent mantissa e) = target mantissa e := by
  simp only [Format.targetExponent, totalExponent, Format.mantissaBits, Format.minExponent, target]
  omega

theorem target_grid (low : (mantissa : ℚ) ≤ w) (high : w < mantissa + 1)
    (deep : e ≤ -1074 ∨ 0 < mantissa) : Grid (w * 2 ^ e) (target mantissa e) := by
  have power : (0 : ℚ) < 2 ^ e := by positivity
  rcases Nat.eq_zero_or_pos mantissa with rfl | some
  · have small : e ≤ -1074 := by omega
    have least : target 0 e = -1074 := max_eq_right (by simp; omega)
    rw [least]
    refine ⟨?_, le_refl _, .inl rfl⟩
    calc w * 2 ^ e < 1 * 2 ^ e := by
          gcongr
          simpa using high
      _ ≤ 2 ^ (-1074 + 53 : ℤ) := by
          rw [one_mul]
          exact zpow_le_zpow_right₀ (by norm_num) (by omega)
  · obtain ⟨least, _⟩ := log_between some
    have room : ((mantissa + 1 : ℕ) : ℚ) ≤ 2 ^ ((mantissa.log2 : ℤ) + 1) := by
      exact_mod_cast Nat.lt_log2_self (n := mantissa)
    refine grid_max ?_ ?_
    · rw [show (mantissa.log2 : ℤ) + e - 52 + 53 = mantissa.log2 + 1 + e by ring,
        zpow_add₀ two_ne_zero]
      push_cast at room
      gcongr
      linarith
    · rw [show (mantissa.log2 : ℤ) + e - 52 + 52 = mantissa.log2 + e by ring,
        zpow_add₀ two_ne_zero]
      gcongr
      linarith

theorem settle {k : ℕ} (carry : k ≤ 9007199254740992) (least : -1074 ≤ e) :
    shiftToTargetExponent Format.binary64 k e .exact =
      if k = 9007199254740992 then (⟨4503599627370496, false, false⟩, e + 1)
      else (⟨k, false, false⟩, e) := by
  unfold shiftToTargetExponent shiftToExponent
  simp only [target_eq]
  split_ifs with carried
  · have log : k.log2 = 53 := by
      rw [carried]
      exact Nat.log2_two_pow (n := 53)
    have shift : (target k e - e).toNat = 1 := by
      rw [target, log]
      omega
    rw [shift, carried]
    rfl
  · have log : k.log2 ≤ 52 := by
      rcases Nat.eq_zero_or_pos k with rfl | some
      · simp
      · exact Nat.le_of_lt_succ ((Nat.log2_lt some.ne').mpr (by omega))
    have shift : (target k e - e).toNat = 0 := by
      rw [target]
      omega
    rw [shift]
    simp [HShiftRight.hShiftRight, Nat.repeat, ExtendedMantissa.ofMantissaAndAccuracy]

theorem gridBits_carry (least : -1074 ≤ e) :
    gridBits (e + 1) 4503599627370496 = gridBits e 9007199254740992 := by
  simp only [gridBits, leadingBit]
  omega

theorem pack_settled (s : Sign) {k : ℕ} (carry : k ≤ 9007199254740992) (least : -1074 ≤ e)
    (full : e = -1074 ∨ 4503599627370496 ≤ k) :
    let final := shiftToTargetExponent Format.binary64 k e .exact
    (UnpackedFloat.pack Format.binary64 (if h : final.1.mantissa = 0 then .zero s
      else .finite s final.1.mantissa final.2 (Nat.pos_of_ne_zero h))).toNat =
        signWeight s + gridBits e k := by
  simp only [settle carry least]
  by_cases carried : k = 9007199254740992
  · simp only [carried, ↓reduceIte]
    exact (pack_finite (by decide) (by decide) (by omega) (by omega)).trans
      (by rw [gridBits_carry least])
  · simp only [carried, ↓reduceIte]
    split_ifs with zero
    · have subnormal : e = -1074 := by omega
      rw [pack_zero, zero, subnormal]
      rfl
    · exact pack_finite _ (by omega) least full

theorem ofMantissaAndAccuracy_mantissa (mantissa : ℕ) (accuracy : Accuracy) :
    (ExtendedMantissa.ofMantissaAndAccuracy mantissa accuracy).mantissa = mantissa := by
  cases accuracy with
  | exact => rfl
  | inexact order => cases order <;> rfl

theorem le_target (deep : e ≤ -1074 ∨ 4503599627370496 ≤ mantissa) : e ≤ target mantissa e := by
  unfold target
  rcases deep with small | full
  · omega
  · have log : 52 ≤ mantissa.log2 := by
      by_contra less
      have below := (Nat.log2_lt (by omega : mantissa ≠ 0)).mp (by omega : mantissa.log2 < 52)
      omega
    omega

/-- What the arithmetic rounds to is nearest to the true result, if it has digits enough. -/
theorem roundWithAccuracy_rounds (s : Sign)
    (known : Represents (ExtendedMantissa.ofMantissaAndAccuracy mantissa accuracy) w)
    (deep : e ≤ -1074 ∨ 4503599627370496 ≤ mantissa) :
    ∃ r, Rounds (w * 2 ^ e) r ∧
      (UnpackedFloat.pack Format.binary64
        (roundWithAccuracy Format.binary64 s mantissa e accuracy)).toNat = signWeight s + r := by
  obtain ⟨low, high⟩ := known.floor
  rw [ofMantissaAndAccuracy_mantissa] at low high
  have grid := target_grid low high (by omega : e ≤ -1074 ∨ 0 < mantissa)
  obtain ⟨count, shifted⟩ : ∃ count : ℕ, target mantissa e = e + count :=
    ⟨(target mantissa e - e).toNat, by have := le_target deep; omega⟩
  have first : shiftToTargetExponent Format.binary64 mantissa e accuracy =
      (ExtendedMantissa.ofMantissaAndAccuracy mantissa accuracy >>> count, target mantissa e) := by
    unfold shiftToTargetExponent shiftToExponent
    simp only [target_eq]
    rw [show (target mantissa e - e).toNat = count by omega, ← shifted]
  have nearest := (known.shifted count).nearest
  have scaled : w / 2 ^ count = w * 2 ^ e / 2 ^ target mantissa e := by
    rw [shifted, zpow_add₀ two_ne_zero, zpow_natCast]
    field_simp
  rw [scaled] at nearest
  refine ⟨gridBits (target mantissa e) _, ⟨_, _, grid, nearest, rfl⟩, ?_⟩
  unfold roundWithAccuracy
  simp only [first]
  obtain ⟨less, full⟩ := grid.scaled
  exact pack_settled s (nearest.le_carry less) grid.least (full.imp_right nearest.leading_le)

end Round

def signOf (negative : Bool) : Sign := if negative then .negative else .positive

section Unpack

variable {b : BitVec 64} {s : Sign} {m : ℕ}

theorem signWeight_signOf (negative : Bool) :
    signWeight (signOf negative) = if negative then signBit else 0 := by
  cases negative <;> rfl

theorem fields (bits : b.toNat = signWeight s + m) (inside : m < signBit) :
    (@unpackMantissa Format.binary64 b).toNat = m % leadingBit ∧
      (@unpackExponent Format.binary64 b).toNat = m / leadingBit ∧
      Sign.ofBitVec (@unpackSign Format.binary64 b) = s := by
  have low : (@unpackMantissa Format.binary64 b).toNat = b.toNat % 2 ^ 52 := by
    simp [unpackMantissa, BitVec.extractLsb_toNat]
  have field : (@unpackExponent Format.binary64 b).toNat = b.toNat / 2 ^ 52 % 2 ^ 11 := by
    simp [unpackExponent, BitVec.extractLsb_toNat, Nat.shiftRight_eq_div_pow]
  have sign : (@unpackSign Format.binary64 b).toNat = b.toNat / 2 ^ 63 % 2 := by
    simp [unpackSign, BitVec.extractLsb_toNat, Nat.shiftRight_eq_div_pow]
  have weight : signWeight s = signBit * s.toBitVec.toNat := by cases s <;> rfl
  have bit : s.toBitVec.toNat < 2 := s.toBitVec.isLt
  have same : @unpackSign Format.binary64 b = s.toBitVec := by
    apply BitVec.eq_of_toNat_eq
    rw [sign, bits, weight]
    simp only [signBit] at *
    omega
  rw [low, field, same, bits, weight]
  simp only [signBit, leadingBit] at *
  refine ⟨?_, ?_, Sign.ofBitVec_toBitVec s⟩
  · omega
  · omega

theorem exponent_ne (bits : b.toNat = signWeight s + m) (finite : m < infinityBits) :
    @unpackExponent Format.binary64 b ≠ -1#11 := by
  obtain ⟨_, field, _⟩ := fields bits (Nat.lt_trans finite (by decide))
  intro ones
  rw [ones] at field
  simp only [infinityBits, leadingBit] at *
  have value : (-1#11).toNat = 2047 := rfl
  omega

theorem repack (bits : b.toNat = signWeight s + m) (finite : m < infinityBits) :
    UnpackedFloat.pack Format.binary64 (UnpackedFloat.unpack Format.binary64 b) = b := by
  rw [pack_unpack, if_neg]
  rw [isNaNBits, decide_eq_true_eq]
  rintro ⟨ones, _⟩
  exact exponent_ne bits finite ones

theorem unpack_zero (bits : b.toNat = signWeight s) :
    UnpackedFloat.unpack Format.binary64 b = .zero s := by
  obtain ⟨low, field, sign⟩ := fields (m := 0) (by simpa using bits) (by decide)
  have mantissa : @unpackMantissa Format.binary64 b = 0#52 := BitVec.eq_of_toNat_eq low
  have exponent : @unpackExponent Format.binary64 b = 0#11 := BitVec.eq_of_toNat_eq field
  unfold UnpackedFloat.unpack
  simp only [mantissa, exponent, sign]
  rfl

theorem unpack_finite (bits : b.toNat = signWeight s + m) (some : 0 < m)
    (finite : m < infinityBits) :
    ∃ positive, UnpackedFloat.unpack Format.binary64 b =
      .finite s (Decimal.unpack m).1 (Decimal.unpack m).2 positive := by
  have inside : m < signBit := Nat.lt_trans finite (by decide)
  obtain ⟨low, field, sign⟩ := fields bits inside
  unfold UnpackedFloat.unpack
  simp only [sign]
  rw [if_neg (exponent_ne bits finite)]
  by_cases subnormal : @unpackExponent Format.binary64 b = 0#11
  · have zero : m / leadingBit = 0 := by
      rw [← field, subnormal]
      rfl
    have whole : m % leadingBit = m := by
      simp only [leadingBit] at *
      omega
    rw [whole] at low
    have mantissa : @unpackMantissa Format.binary64 b ≠ 0#52 := by
      intro none
      rw [none] at low
      exact some.ne low
    rw [if_pos subnormal, dif_neg mantissa]
    simp only [unpack_subnormal zero, whole]
    refine ⟨some, ?_⟩
    congr 1
    rw [subnormal]
    rfl
  · have normal : m / leadingBit ≠ 0 := by
      intro zero
      rw [zero] at field
      exact subnormal (BitVec.eq_of_toNat_eq field)
    rw [if_neg subnormal]
    simp only [unpack_normal normal]
    refine ⟨Nat.add_pos_left (by decide) _, ?_⟩
    have digits : (1#1 ++ @unpackMantissa Format.binary64 b).toNat = leadingBit + m % leadingBit := by
      rw [BitVec.toNat_append, ← Nat.shiftLeft_add_eq_or_of_lt (BitVec.isLt _), low]
      rfl
    congr 1
    rw [field]
    rfl

end Unpack

section Values

variable {m n : ℕ}

theorem gridBits_unpack (finite : m < infinityBits) :
    gridBits (Decimal.unpack m).2 (Decimal.unpack m).1 = m := by
  rw [gridBits, ← (unpack_spec m).2.2.2, min_eq_left finite.le]

theorem signed_toBits (negative : Bool) (finite : m < infinityBits) :
    (signed negative m).toBits.toNat = signWeight (signOf negative) + m := by
  have word : (UInt64.ofNat ((if negative then signBit else 0) + m)).toBitVec.toNat =
      signWeight (signOf negative) + m := by
    rw [signWeight_signOf]
    refine UInt64.toNat_ofNat_of_lt' ?_
    simp only [infinityBits, leadingBit, signBit, UInt64.size] at *
    split_ifs <;> omega
  have packed : (signed negative m).toBits.toNat =
      (UnpackedFloat.pack Format.binary64 (UnpackedFloat.unpack Format.binary64
        (UInt64.ofNat ((if negative then signBit else 0) + m)).toBitVec)).toNat := rfl
  rw [packed, repack word finite, word]

theorem signed_unpack (negative : Bool) (some : 0 < m) (finite : m < infinityBits) :
    ∃ positive, (signed negative m).toModel.unpack =
      .finite (signOf negative) (Decimal.unpack m).1 (Decimal.unpack m).2 positive :=
  unpack_finite (signed_toBits negative finite) some finite

theorem signed_unpack_zero (negative : Bool) :
    (signed negative 0).toModel.unpack = .zero (signOf negative) :=
  unpack_zero (signed_toBits negative (by decide))

theorem bits_split (x : Float) :
    x.toBits.toNat = signWeight (signOf (Numeral.isNegative x)) + Numeral.magnitude x := by
  have inside : x.toBits.toNat < 2 * signBit := x.toBits.toNat_lt
  have split := Nat.div_add_mod x.toBits.toNat signBit
  rw [signWeight_signOf, Numeral.magnitude]
  by_cases negative : signBit ≤ x.toBits.toNat
  · have one : x.toBits.toNat / signBit = 1 :=
      Nat.div_eq_of_lt_le (by simpa using negative) inside
    rw [one, Nat.mul_one] at split
    simp [Numeral.isNegative, negative, split]
  · have below := Nat.mod_eq_of_lt (Nat.lt_of_not_le negative)
    simp [Numeral.isNegative, negative, below]

theorem eq_signed {x : Float} (finite : Numeral.magnitude x < infinityBits) :
    x = signed (Numeral.isNegative x) (Numeral.magnitude x) := by
  rw [← Float.toBits_inj, ← UInt64.toNat_inj]
  rw [signed_toBits _ finite, ← bits_split]

theorem magnitude_signed (negative : Bool) (finite : m < infinityBits) :
    Numeral.magnitude (signed negative m) = m := by
  have inside : m < signBit := Nat.lt_trans finite (by decide)
  rw [Numeral.magnitude, signed_toBits negative finite, signWeight_signOf]
  cases negative <;> simp [Nat.mod_eq_of_lt inside]

theorem signed_neg (finite : m < infinityBits) : -signed false m = signed true m := by
  rw [← Float.toBits_inj, ← UInt64.toNat_inj]
  have negated : (-signed false m).toBits.toNat =
      (UnpackedFloat.pack Format.binary64
        (UnpackedFloat.neg (signed false m).toModel.unpack)).toNat := rfl
  rw [negated, signed_toBits true finite]
  rcases Nat.eq_zero_or_pos m with rfl | some
  · rw [signed_unpack_zero]
    exact pack_zero .negative
  · obtain ⟨positive, parts⟩ := signed_unpack false some finite
    obtain ⟨small, least, full, _⟩ := unpack_spec m
    rw [parts]
    exact (pack_finite (s := .negative) positive small least full).trans
      (by rw [gridBits_unpack finite]; rfl)

theorem zero_beq (one other : Bool) : (signed one 0 == signed other 0) = true := by
  change UnpackedFloat.beq (signed one 0).toModel.unpack (signed other 0).toModel.unpack = true
  rw [signed_unpack_zero, signed_unpack_zero]
  rfl

theorem beq_self {x : Float} (finite : Numeral.magnitude x < infinityBits) : (x == x) = true := by
  rw [Float.beq_self_iff]
  rintro rfl
  exact absurd finite (by decide)

/-- A product has digits enough to round it: only that of two subnormal values is short, and it is
deep below all others. -/
theorem product_deep (some : 0 < m) (other : 0 < n) :
    (Decimal.unpack m).2 + (Decimal.unpack n).2 ≤ -1074 ∨
      4503599627370496 ≤ (Decimal.unpack m).1 * (Decimal.unpack n).1 := by
  have mPos := unpack_pos some
  have nPos := unpack_pos other
  obtain ⟨_, _, mFull, _⟩ := unpack_spec m
  obtain ⟨_, _, nFull, _⟩ := unpack_spec n
  rcases mFull with mLeast | mFull
  · rcases nFull with nLeast | nFull
    · exact .inl (by omega)
    · exact .inr (Nat.le_trans nFull (Nat.le_mul_of_pos_left _ mPos))
  · exact .inr (Nat.le_trans mFull (Nat.le_mul_of_pos_right _ nPos))

theorem signed_mul (some : 0 < m) (finite : m < infinityBits) (other : 0 < n)
    (also : n < infinityBits) :
    Rounds (bitsValue m * bitsValue n) (signed false m * signed false n).toBits.toNat := by
  obtain ⟨mPos, one⟩ := signed_unpack false some finite
  obtain ⟨nPos, two⟩ := signed_unpack false other also
  have product : (signed false m * signed false n).toBits.toNat =
      (UnpackedFloat.pack Format.binary64 (UnpackedFloat.mul Format.binary64
        (signed false m).toModel.unpack (signed false n).toModel.unpack)).toNat := rfl
  obtain ⟨r, rounds, bits⟩ := roundWithAccuracy_rounds .positive
    (represents_exact ((Decimal.unpack m).1 * (Decimal.unpack n).1)) (product_deep some other)
  have value : (((Decimal.unpack m).1 * (Decimal.unpack n).1 : ℕ) : ℚ) *
      2 ^ ((Decimal.unpack m).2 + (Decimal.unpack n).2) = bitsValue m * bitsValue n := by
    rw [bitsValue, bitsValue, zpow_add₀ two_ne_zero]
    push_cast
    ring
  rw [value] at rounds
  have same : (signed false m * signed false n).toBits.toNat = r := by
    rw [product, one, two]
    exact bits.trans (Nat.zero_add r)
  rwa [same]

/-- A quotient is taken of a dividend that is shifted so far that it has digits enough. -/
theorem quotient_deep {k l shift : ℕ} (some : 0 < k) (bottom : 0 < l)
    (enough : (l.log2 : ℤ) - k.log2 + 53 ≤ shift) : 4503599627370496 ≤ k * 2 ^ shift / l := by
  rw [Nat.le_div_iff_mul_le bottom]
  have low := Nat.log2_self_le some.ne'
  have high := Nat.lt_log2_self (n := l)
  calc 4503599627370496 * l ≤ 2 ^ 52 * 2 ^ (l.log2 + 1) := Nat.mul_le_mul_left _ high.le
    _ = 2 ^ (l.log2 + 53) := by
      rw [← Nat.pow_add]
      congr 1
      omega
    _ ≤ 2 ^ (k.log2 + shift) := Nat.pow_le_pow_right (by decide) (by omega)
    _ = 2 ^ k.log2 * 2 ^ shift := Nat.pow_add ..
    _ ≤ k * 2 ^ shift := Nat.mul_le_mul_right _ low

theorem divCore_eq (k : ℕ) (e : ℤ) (l : ℕ) (f : ℤ) :
    ∃ (shift : ℕ) (t : ℤ), divCore Format.binary64 k e l f =
        (k * 2 ^ shift / l, t, accuracyOfFraction (k * 2 ^ shift % l) l) ∧
      e - f = t + shift ∧ (t ≤ -1074 ∨ (l.log2 : ℤ) - k.log2 + 53 ≤ shift) := by
  let goal := Format.binary64.targetExponent (totalExponent k e - totalExponent l f)
  refine ⟨(e - f - min (e - f) goal).toNat, min (e - f) goal, ?_, ?_, ?_⟩
  · unfold divCore
    simp only [Nat.shiftLeft_eq]
    rfl
  · omega
  · have bound : goal = max ((k.log2 : ℤ) + e - (l.log2 + f) - 53) (-1074) := by
      simp only [goal, Format.targetExponent, totalExponent, Format.mantissaBits,
        Format.minExponent]
      omega
    omega

theorem signed_div (some : 0 < m) (finite : m < infinityBits) (other : 0 < n)
    (also : n < infinityBits) :
    Rounds (bitsValue m / bitsValue n) (signed false m / signed false n).toBits.toNat := by
  obtain ⟨mPos, one⟩ := signed_unpack false some finite
  obtain ⟨nPos, two⟩ := signed_unpack false other also
  obtain ⟨shift, t, core, depth, enough⟩ := divCore_eq (Decimal.unpack m).1 (Decimal.unpack m).2
    (Decimal.unpack n).1 (Decimal.unpack n).2
  have quotient : (signed false m / signed false n).toBits.toNat =
      (UnpackedFloat.pack Format.binary64 (UnpackedFloat.div Format.binary64
        (signed false m).toModel.unpack (signed false n).toModel.unpack)).toNat := rfl
  obtain ⟨r, rounds, bits⟩ := roundWithAccuracy_rounds .positive
    (represents_fraction ((Decimal.unpack m).1 * 2 ^ shift) nPos)
    (enough.imp_right (quotient_deep mPos nPos))
  have value : (((Decimal.unpack m).1 * 2 ^ shift : ℕ) : ℚ) / (Decimal.unpack n).1 * 2 ^ t =
      bitsValue m / bitsValue n := by
    have divisor : ((Decimal.unpack n).1 : ℚ) ≠ 0 := by exact_mod_cast nPos.ne'
    have exponent : (Decimal.unpack m).2 = t + shift + (Decimal.unpack n).2 := by omega
    rw [bitsValue, bitsValue, exponent, zpow_add₀ two_ne_zero, zpow_add₀ two_ne_zero,
      zpow_natCast]
    push_cast
    field_simp
  rw [value] at rounds
  have same : (signed false m / signed false n).toBits.toNat = r := by
    rw [quotient, one, two]
    simp only [UnpackedFloat.div, core]
    exact bits.trans (Nat.zero_add r)
  rwa [same]

end Values

end Wheelwork.Decimal
