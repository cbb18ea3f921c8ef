import KoreanScript.Proofs.Binary64
import KoreanScript.Proofs.Rounding

/-!
# Nearest numbers

A decimal is rounded on patterns.  Here the outcome is compared with the numbers that
the patterns stand for, and these are the finite numbers of core's model: a mantissa
times a power of two.  A number is what an exact value rounds to if no other number is
nearer, and if its last bit is zero whenever another one is as near.  Infinity takes part
as the power of two that would come next, so that what is rounded to it is what lies
beyond the greatest finite number by half a step or more.  There is always just one such
number with a given sign (`RoundsTo.unique`).

Patterns are in the order of their numbers and a step apart.  The quotient is rounded at a
scale where its own neighbourhood is made of whole numbers: every pattern from the power
of two below it on is a multiple of the scale, so the nearest integer is nearest among
them, and all that are smaller are farther than that power of two.
-/

set_option autoImplicit false

namespace KoreanScript.Number

open Float.Model (UnpackedFloat)
open Float.Model.UnpackedFloat (unpackExponent unpackMantissa)

/-! ## The order of patterns -/

theorem significand_lt (bits : Nat) : significand bits < 2 * hiddenBit := by
  have hmod := Nat.mod_lt bits (show 0 < hiddenBit by decide)
  rw [significand]
  split <;> omega

theorem scale_eq_zero_or (bits : Nat) : scale bits = 0 ∨ hiddenBit ≤ significand bits := by
  obtain hlt | hle := Nat.lt_or_ge bits hiddenBit
  · exact .inl (scale_of_lt hlt)
  · rw [significand_of_le hle]
    exact .inr (Nat.le_add_right _ _)

/-- **An integer of at most 53 bits, shifted, is the units of a pattern**, also where it is
the next power of two. -/
theorem units_add {integer shift : Nat} (hupper : integer ≤ 2 * hiddenBit)
    (hlower : shift = 0 ∨ hiddenBit ≤ integer) :
    units (integer + shift * hiddenBit) = integer * 2 ^ shift := by
  rw [units_eq]
  obtain hlt | hle := Nat.lt_or_ge integer hiddenBit
  · obtain rfl : shift = 0 := by omega
    rw [Nat.zero_mul, Nat.add_zero, significand_of_lt hlt, scale_of_lt hlt]
  · have hbits : hiddenBit ≤ integer + shift * hiddenBit := Nat.le_add_right_of_le hle
    obtain hless | rfl : integer < 2 * hiddenBit ∨ integer = 2 * hiddenBit := by omega
    · have hscale : scale (integer + shift * hiddenBit) = shift := by
        rw [hiddenBit] at *
        rw [scale, hiddenBit]
        omega
      have hsignificand : significand (integer + shift * hiddenBit) = integer := by
        rw [significand_of_le hbits]
        rw [hiddenBit] at *
        omega
      rw [hscale, hsignificand]
    · have hscale : scale (2 * hiddenBit + shift * hiddenBit) = shift + 1 := by
        rw [scale, hiddenBit]
        omega
      have hsignificand : significand (2 * hiddenBit + shift * hiddenBit) = hiddenBit := by
        rw [significand_of_le hbits, hiddenBit]
        omega
      rw [hscale, hsignificand, Nat.pow_succ]
      ring

/-- From one pattern to the next there is one step at its scale. -/
theorem units_succ (bits : Nat) : units (bits + 1) = units bits + 2 ^ scale bits := by
  have hbits : bits + 1 = significand bits + 1 + scale bits * hiddenBit := by
    rw [Nat.add_right_comm, significand_add_scale]
  have hlower : scale bits = 0 ∨ hiddenBit ≤ significand bits + 1 :=
    (scale_eq_zero_or bits).imp_right Nat.le_succ_of_le
  rw [hbits, units_add (significand_lt bits) hlower, Nat.succ_mul, ← units_eq]

/-- **Patterns are in the order of their numbers.** -/
theorem units_strictMono : StrictMono units :=
  strictMono_nat_of_lt_succ fun bits => by
    rw [units_succ]
    exact Nat.lt_add_of_pos_right (Nat.two_pow_pos _)

/-! ## The nearest integer -/

/-- An exact value is rounded to one candidate rather than to another: the other is not
nearer, and if it is as near, the chosen one has an even pattern. -/
structure Preferred (exact chosen other : ℚ) (pattern : Nat) : Prop where
  nearest : |chosen - exact| ≤ |other - exact|
  even : other ≠ chosen → |other - exact| = |chosen - exact| → pattern % 2 = 0

section Quotient

variable {numerator denominator : Nat} (hdenominator : 0 < denominator)
include hdenominator

/-- A quotient is rounded by at most a half, and by a half only to an even integer. -/
theorem roundQuotient_close :
    |(roundQuotient numerator denominator : ℚ) - numerator / denominator| ≤ 1 / 2 ∧
      (|(roundQuotient numerator denominator : ℚ) - numerator / denominator| = 1 / 2 →
        roundQuotient numerator denominator % 2 = 0) := by
  have hpos : (0 : ℚ) < denominator := Nat.cast_pos.mpr hdenominator
  obtain ⟨rest, hrest⟩ : ∃ rest : ℚ, rest = (numerator % denominator : Nat) / denominator :=
    ⟨_, rfl⟩
  have hvalue : (numerator : ℚ) / denominator = (numerator / denominator : Nat) + rest := by
    rw [hrest, div_eq_iff hpos.ne', add_mul, div_mul_cancel₀ _ hpos.ne', ← Nat.cast_mul,
      ← Nat.cast_add, Nat.mul_comm, Nat.div_add_mod]
  have hnonneg : 0 ≤ rest := by
    rw [hrest]
    positivity
  have hless : rest < 1 := by
    rw [hrest, div_lt_one hpos]
    exact Nat.cast_lt.mpr (Nat.mod_lt _ hdenominator)
  have hbelow : rest < 1 / 2 ↔ 2 * (numerator % denominator) < denominator := by
    rw [hrest, div_lt_div_iff₀ hpos two_pos, one_mul, mul_comm]
    exact_mod_cast Iff.rfl
  have habove : 1 / 2 < rest ↔ denominator < 2 * (numerator % denominator) := by
    rw [hrest, div_lt_div_iff₀ two_pos hpos, one_mul, mul_comm]
    exact_mod_cast Iff.rfl
  rw [hvalue, roundQuotient]
  generalize numerator / denominator = quotient
  split
  · next h =>
    have hdistance : |(quotient : ℚ) - (quotient + rest)| = rest := by
      rw [sub_add_cancel_left, abs_neg, abs_of_nonneg hnonneg]
    have hhalf := hbelow.mpr h
    rw [hdistance]
    exact ⟨hhalf.le, fun heq => absurd heq hhalf.ne⟩
  · next hle =>
    split
    · next h =>
      have hdistance : |((quotient + 1 : Nat) : ℚ) - (quotient + rest)| = 1 - rest := by
        rw [Nat.cast_add_one, add_sub_add_left_eq_sub, abs_of_pos (sub_pos.mpr hless)]
      have hhalf := habove.mpr h
      rw [hdistance]
      exact ⟨by linarith, fun heq => absurd heq (by linarith)⟩
    · next hge =>
      have hhalf : rest = 1 / 2 :=
        le_antisymm (le_of_not_gt (mt habove.mp hge)) (le_of_not_gt (mt hbelow.mp hle))
      have heven : (quotient + quotient % 2) % 2 = 0 := by omega
      refine ⟨?_, fun _ => heven⟩
      rw [hhalf]
      obtain hmod | hmod := Nat.mod_two_eq_zero_or_one quotient <;> rw [hmod] <;> norm_num

/-- **The rounded quotient is nearest among the integers**, and even if another is as near. -/
theorem roundQuotient_nearest (other : Nat) :
    Preferred (numerator / denominator) (roundQuotient numerator denominator) other
      (roundQuotient numerator denominator) := by
  obtain ⟨hclose, heven⟩ := roundQuotient_close hdenominator
  generalize roundQuotient numerator denominator = rounded at *
  generalize (numerator : ℚ) / denominator = exact at *
  by_cases heq : other = rounded
  · exact ⟨by rw [heq], fun hne => absurd (congrArg Nat.cast heq) hne⟩
  · -- Different integers are at least one apart, so the other is at least a half away.
    have hapart : 1 ≤ |(other : ℚ) - rounded| := by
      have hint : 1 ≤ |(other : ℤ) - rounded| := Int.one_le_abs (by omega)
      exact_mod_cast hint
    have htriangle : |(other : ℚ) - rounded| ≤ |(other : ℚ) - exact| + |(rounded : ℚ) - exact| := by
      rw [abs_sub_comm (rounded : ℚ)]
      exact abs_sub_le _ _ _
    exact ⟨by linarith, fun _ htie => heven (by linarith)⟩

end Quotient

/-! ## The nearest pattern -/

/-- A pattern that is nearest to a number of units, and even if another is as near.
Infinity takes part as the next power of two. -/
structure NearestPattern (bits : Nat) (exact : ℚ) : Prop where
  le : bits ≤ infinityBits
  nearest : ∀ other ≤ infinityBits, |(units bits : ℚ) - exact| ≤ |(units other : ℚ) - exact|
  even : ∀ other ≤ infinityBits, other ≠ bits →
    |(units other : ℚ) - exact| = |(units bits : ℚ) - exact| → bits % 2 = 0

section Pattern

variable {numerator denominator : Nat}

/-- By how many places a quotient is shifted before it is rounded. -/
def roundingShift (numerator denominator : Nat) : Nat :=
  (numerator / denominator).log2 - 52

/-- The quotient rounded to 53 bits. -/
def roundedInteger (numerator denominator : Nat) : Nat :=
  roundQuotient numerator (denominator <<< roundingShift numerator denominator)

/-- The pattern of the rounded quotient, as if there were no greatest number. -/
def roundedBits (numerator denominator : Nat) : Nat :=
  roundedInteger numerator denominator + roundingShift numerator denominator * hiddenBit

theorem nearestBits_eq_min (numerator denominator : Nat) :
    nearestBits numerator denominator = min infinityBits (roundedBits numerator denominator) :=
  rfl

theorem roundQuotient_bounds (numerator denominator : Nat) :
    numerator / denominator ≤ roundQuotient numerator denominator ∧
      roundQuotient numerator denominator ≤ numerator / denominator + 1 := by
  simp only [roundQuotient]
  split
  · omega
  · split <;> omega

/-- A power of two at the scale of rounding is not beyond the quotient. -/
theorem hiddenBit_mul_le (h : roundingShift numerator denominator ≠ 0) :
    hiddenBit * 2 ^ roundingShift numerator denominator ≤ numerator / denominator := by
  have hlog : (numerator / denominator).log2 = 52 + roundingShift numerator denominator := by
    rw [roundingShift] at h ⊢
    omega
  have hne : numerator / denominator ≠ 0 := by
    intro hzero
    rw [hzero, Nat.log2_zero] at hlog
    omega
  have hpower := (Nat.le_log2 hne).mp hlog.ge
  rwa [Nat.pow_add] at hpower

/-- Rounding leaves 53 bits, or the next power of two. -/
theorem roundedInteger_bounds (numerator denominator : Nat) :
    roundedInteger numerator denominator ≤ 2 * hiddenBit ∧
      (roundingShift numerator denominator = 0 ∨
        hiddenBit ≤ roundedInteger numerator denominator) := by
  obtain ⟨hlower, hupper⟩ := roundQuotient_bounds numerator
    (denominator <<< roundingShift numerator denominator)
  rw [← roundedInteger, Nat.shiftLeft_eq, ← Nat.div_div_eq_div_mul] at hlower hupper
  have hpos := Nat.two_pow_pos (roundingShift numerator denominator)
  have hlog : (numerator / denominator).log2 + 1 ≤ roundingShift numerator denominator + 53 := by
    rw [roundingShift]
    omega
  have hbits : numerator / denominator <
      2 ^ roundingShift numerator denominator * (2 * hiddenBit) := by
    have hpower := Nat.pow_le_pow_right two_pos hlog
    rw [Nat.pow_add 2 _ 53] at hpower
    exact Nat.lt_of_lt_of_le Nat.lt_log2_self hpower
  have hquotient := Nat.div_lt_of_lt_mul hbits
  refine ⟨by omega, ?_⟩
  by_cases h : roundingShift numerator denominator = 0
  · exact .inl h
  · have hscaled := (Nat.le_div_iff_mul_le hpos).mpr (hiddenBit_mul_le h)
    exact .inr (hscaled.trans hlower)

theorem units_roundedBits (numerator denominator : Nat) :
    units (roundedBits numerator denominator) =
      roundedInteger numerator denominator * 2 ^ roundingShift numerator denominator :=
  units_add (roundedInteger_bounds numerator denominator).1
    (roundedInteger_bounds numerator denominator).2

/-- The units of great patterns are whole at the scale of rounding. -/
theorem exists_units_eq_mul {bits shift : Nat} (h : shift = 0 ∨ (shift + 1) * hiddenBit ≤ bits) :
    ∃ integer, units bits = integer * 2 ^ shift := by
  have hscale : shift ≤ scale bits := by
    obtain rfl | hle := h
    · exact Nat.zero_le _
    · have hquotient := (Nat.le_div_iff_mul_le (show 0 < hiddenBit by decide)).mpr hle
      rw [scale]
      omega
  obtain ⟨extra, hextra⟩ := Nat.exists_eq_add_of_le' hscale
  refine ⟨significand bits * 2 ^ extra, ?_⟩
  rw [units_eq, hextra, Nat.pow_add, Nat.mul_assoc]

theorem cast_shiftLeft (n places : Nat) : ((n <<< places : Nat) : ℚ) = n * 2 ^ places := by
  rw [Nat.shiftLeft_eq, Nat.cast_mul, Nat.cast_pow, Nat.cast_two]

variable (hdenominator : 0 < denominator)
include hdenominator

/-- Distances at the scale of rounding. -/
theorem abs_sub_eq_scaled (integer shift : Nat) :
    |((integer * 2 ^ shift : Nat) : ℚ) - numerator / denominator| =
      |(integer : ℚ) - numerator / (denominator <<< shift : Nat)| * 2 ^ shift := by
  have hpos : (0 : ℚ) < denominator := Nat.cast_pos.mpr hdenominator
  have hpower : (0 : ℚ) < 2 ^ shift := by positivity
  have hvalue : ((integer * 2 ^ shift : Nat) : ℚ) - numerator / denominator =
      ((integer : ℚ) - numerator / (denominator <<< shift : Nat)) * 2 ^ shift := by
    rw [cast_shiftLeft]
    push_cast
    field_simp
  rw [hvalue, abs_mul, abs_of_pos hpower]

/-- The rounded pattern is nearest among those that are whole at the scale of rounding. -/
theorem nearest_of_whole {other : Nat}
    (h : roundingShift numerator denominator = 0 ∨
      (roundingShift numerator denominator + 1) * hiddenBit ≤ other) :
    Preferred (numerator / denominator) (units (roundedBits numerator denominator)) (units other)
      (roundedBits numerator denominator) := by
  obtain ⟨integer, hinteger⟩ := exists_units_eq_mul h
  have hshifted : 0 < denominator <<< roundingShift numerator denominator := by
    rw [Nat.shiftLeft_eq]
    exact Nat.mul_pos hdenominator (Nat.two_pow_pos _)
  have hpower : (0 : ℚ) < 2 ^ roundingShift numerator denominator := by positivity
  obtain ⟨hnearest, heven⟩ := @roundQuotient_nearest numerator _ hshifted integer
  rw [hinteger, units_roundedBits]
  refine ⟨?_, fun hne htie => ?_⟩
  · rw [abs_sub_eq_scaled hdenominator, abs_sub_eq_scaled hdenominator]
    exact mul_le_mul_of_nonneg_right hnearest hpower.le
  · have hinteger_ne : (integer : ℚ) ≠ roundedInteger numerator denominator := by
      intro heq
      rw [Nat.cast_injective heq] at hne
      exact hne rfl
    rw [abs_sub_eq_scaled hdenominator, abs_sub_eq_scaled hdenominator] at htie
    have hmod := heven hinteger_ne (mul_right_cancel₀ hpower.ne' htie)
    rw [← roundedInteger] at hmod
    rw [roundedBits, hiddenBit]
    omega

/-- **The rounded pattern is nearest among all**, and even if another is as near. -/
theorem nearest_roundedBits (other : Nat) :
    Preferred (numerator / denominator) (units (roundedBits numerator denominator)) (units other)
      (roundedBits numerator denominator) := by
  by_cases hwhole : roundingShift numerator denominator = 0 ∨
      (roundingShift numerator denominator + 1) * hiddenBit ≤ other
  · exact nearest_of_whole hdenominator hwhole
  · -- A smaller pattern is farther than the power of two at the lower end of the scale.
    obtain ⟨hshift, hless⟩ := not_or.mp hwhole
    have hedge : units ((roundingShift numerator denominator + 1) * hiddenBit) =
        hiddenBit * 2 ^ roundingShift numerator denominator := by
      rw [Nat.succ_mul, Nat.add_comm]
      exact units_add (by decide) (.inr (Nat.le_refl _))
    have hedge_le : (units ((roundingShift numerator denominator + 1) * hiddenBit) : ℚ) ≤
        numerator / denominator := by
      rw [hedge]
      exact (Nat.cast_le.mpr (hiddenBit_mul_le hshift)).trans Nat.cast_div_le
    have hother : (units other : ℚ) <
        units ((roundingShift numerator denominator + 1) * hiddenBit) :=
      Nat.cast_lt.mpr (units_strictMono (Nat.lt_of_not_le hless))
    obtain ⟨hnearest, -⟩ := @nearest_of_whole numerator denominator hdenominator
      ((roundingShift numerator denominator + 1) * hiddenBit) (.inr (Nat.le_refl _))
    have hfarther : |(units (roundedBits numerator denominator) : ℚ) - numerator / denominator| <
        |(units other : ℚ) - numerator / denominator| := by
      refine hnearest.trans_lt ?_
      rw [abs_of_nonpos (sub_nonpos.mpr hedge_le),
        abs_of_nonpos (sub_nonpos.mpr (hother.le.trans hedge_le))]
      exact neg_lt_neg (sub_lt_sub_right hother _)
    exact ⟨hfarther.le, fun _ htie => absurd htie hfarther.ne'⟩

/-- **Rounding finds the nearest pattern.** -/
theorem nearestPattern_nearestBits :
    NearestPattern (nearestBits numerator denominator) (numerator / denominator) := by
  rw [nearestBits_eq_min]
  obtain hle | hlt := le_or_gt (roundedBits numerator denominator) infinityBits
  · rw [Nat.min_eq_right hle]
    refine ⟨hle, fun other _ => (nearest_roundedBits hdenominator other).nearest,
      fun other _ hne => (nearest_roundedBits hdenominator other).even ?_⟩
    exact fun heq => hne (units_strictMono.injective (Nat.cast_injective heq))
  · rw [Nat.min_eq_left hlt.le]
    refine ⟨Nat.le_refl _, fun other hother => ?_, fun _ _ _ _ => by decide⟩
    -- The value is nearer to a pattern beyond infinity, so it is itself beyond infinity.
    obtain ⟨hnearest, -⟩ := nearest_roundedBits hdenominator infinityBits
    have hbeyond : (units infinityBits : ℚ) < units (roundedBits numerator denominator) :=
      Nat.cast_lt.mpr (units_strictMono hlt)
    have hother_le : (units other : ℚ) ≤ units infinityBits :=
      Nat.cast_le.mpr (units_strictMono.monotone hother)
    generalize (numerator : ℚ) / denominator = exact at hnearest ⊢
    have hexact : (units infinityBits : ℚ) ≤ exact := by
      by_contra hless
      rw [abs_of_pos (by linarith), abs_of_pos (by linarith)] at hnearest
      linarith
    rw [abs_of_nonpos (by linarith), abs_of_nonpos (by linarith)]
    linarith

end Pattern

/-! ## Numbers from patterns -/

/-- Every pattern up to infinity is the pattern of a number. -/
theorem toBits_ofBits {bits : UInt64} (h : bits.toNat % signBit ≤ infinityBits) :
    (Float.ofBits bits).toBits = bits := by
  have hnumber : @UnpackedFloat.isNaNBits .binary64 bits.toBitVec = false := by
    refine decide_eq_false ?_
    rintro ⟨hexponent, hsignificand⟩
    have hfield : bits.toNat / 2 ^ 52 % 2 ^ 11 = 2047 := by
      simpa [unpackExponent, Nat.shiftRight_eq_div_pow] using congrArg BitVec.toNat hexponent
    have hrest : bits.toNat % 2 ^ 52 ≠ 0 := by
      simpa [unpackMantissa, ← BitVec.toNat_inj] using hsignificand
    rw [signBit, infinityBits] at h
    omega
  have hpack : UnpackedFloat.pack .binary64 (UnpackedFloat.unpack .binary64 bits.toBitVec) =
      bits.toBitVec := by
    rw [UnpackedFloat.pack_unpack, hnumber]
    rfl
  exact UInt64.toBitVec_inj.mp hpack

section OfMagnitude

variable (negative : Bool) {bits : Nat} (h : bits ≤ infinityBits)
include h

theorem toNat_toBits_ofMagnitude :
    (ofMagnitude negative bits).toBits.toNat = if negative then signBit + bits else bits := by
  have hnat : (UInt64.ofNat (if negative then signBit + bits else bits)).toNat =
      if negative then signBit + bits else bits := by
    rw [UInt64.toNat_ofNat']
    rw [infinityBits] at h
    rw [signBit]
    split <;> omega
  have hmagnitude : (UInt64.ofNat (if negative then signBit + bits else bits)).toNat % signBit ≤
      infinityBits := by
    rw [hnat]
    rw [infinityBits] at *
    rw [signBit]
    split <;> omega
  rw [ofMagnitude, toBits_ofBits hmagnitude, hnat]

theorem magnitude_ofMagnitude : magnitude (ofMagnitude negative bits) = bits := by
  rw [magnitude, toNat_toBits_ofMagnitude negative h, signBit]
  rw [infinityBits] at h
  split <;> omega

theorem isNegative_ofMagnitude : isNegative (ofMagnitude negative bits) = negative := by
  rw [isNegative, toNat_toBits_ofMagnitude negative h, signBit]
  rw [infinityBits] at h
  cases negative with
  | false =>
    refine decide_eq_false ?_
    rw [if_neg Bool.false_ne_true]
    omega
  | true => exact decide_eq_true (Nat.le_add_right _ _)

end OfMagnitude

/-! ## The size of numbers -/

/-- What is not a number has all ones in the field of the exponent and a significand. -/
theorem isNaN_iff_fields {value : Float} :
    value.isNaN = true ↔ exponentField value = -1#11 ∧ significandField value ≠ 0#52 := by
  change (UnpackedFloat.unpack .binary64 value.toBits.toBitVec).isNaN = true ↔ _
  rw [UnpackedFloat.unpack]
  simp only
  split
  · next hones =>
    split
    · next hzero => exact iff_of_false Bool.false_ne_true fun h => h.2 hzero
    · next hrest => exact iff_of_true rfl ⟨hones, hrest⟩
  · next hones =>
    refine iff_of_false ?_ fun h => hones h.1
    split
    · split <;> exact Bool.false_ne_true
    · exact Bool.false_ne_true

/-- **Numbers have the magnitudes up to infinity.** -/
theorem isNaN_eq_false_iff {value : Float} :
    value.isNaN = false ↔ magnitude value ≤ infinityBits := by
  have hexponent := (exponentField value).isLt
  have hsignificand := (significandField value).isLt
  rw [← Bool.not_eq_true, isNaN_iff_fields, magnitude_eq, ← BitVec.toNat_inj, ne_eq,
    ← BitVec.toNat_inj]
  change ¬((exponentField value).toNat = 2047 ∧ ¬(significandField value).toNat = 0) ↔ _
  rw [hiddenBit, infinityBits]
  omega

/-- The size of a number in core's model.  Infinity counts as the power of two that would
come next. -/
def unpackedSize : UnpackedFloat → ℚ
  | .finite _ mantissa exponent _ => mantissa * 2 ^ exponent
  | .zero _ | .notANumber => 0
  | .infinity _ => 2 ^ 1024

/-- The exact value of a number, without its sign. -/
def size (value : Float) : ℚ :=
  unpackedSize value.toModel.unpack

/-- A shifted integer of units as a number. -/
theorem units_div_eq {bits integer shift : Nat} (h : units bits = integer * 2 ^ shift) :
    (units bits : ℚ) / 2 ^ 1074 = integer * 2 ^ ((shift : ℤ) - 1074) := by
  have hplaces : ((1074 : ℕ) : ℤ) = 1074 := rfl
  rw [h, Nat.cast_mul, Nat.cast_pow, Nat.cast_two, mul_div_assoc, zpow_sub₀ two_ne_zero,
    zpow_natCast, ← hplaces, zpow_natCast]

/-- The units of a pattern without a hidden bit. -/
theorem units_of_subnormal {significand : Nat} (h : significand < 2 ^ 52) :
    units (0 * hiddenBit + significand) = significand * 2 ^ 0 := by
  rw [Nat.add_comm]
  exact units_add (by rw [hiddenBit]; omega) (.inl rfl)

/-- The units of a pattern with a hidden bit. -/
theorem units_of_normal {exponent significand : Nat} (hexponent : exponent ≠ 0)
    (h : significand < 2 ^ 52) :
    units (exponent * hiddenBit + significand) = (2 ^ 52 + significand) * 2 ^ (exponent - 1) := by
  have hbits : exponent * hiddenBit + significand =
      2 ^ 52 + significand + (exponent - 1) * hiddenBit := by
    rw [hiddenBit]
    omega
  rw [hbits]
  exact units_add (by rw [hiddenBit]; omega) (.inr (Nat.le_add_right _ _))

/-- Infinity counts as the power of two after the greatest finite number. -/
theorem units_infinityBits : (units infinityBits : ℚ) = 2 ^ 1024 * 2 ^ 1074 := by
  have hinfinity : infinityBits = 2047 * hiddenBit + 0 := rfl
  have hplaces : 52 + (2047 - 1) = 1024 + 1074 := rfl
  rw [hinfinity, units_of_normal (by decide) (by decide), Nat.add_zero, Nat.cast_mul,
    Nat.cast_pow, Nat.cast_pow, Nat.cast_two, ← pow_add, ← pow_add, hplaces]

/-- **The size of a number is the units of its magnitude.** -/
theorem size_eq {value : Float} (h : value.isNaN = false) :
    size value = units (magnitude value) / 2 ^ 1074 := by
  have hbound := (significandField value).isLt
  have hnumber := mt isNaN_iff_fields.mpr (Bool.eq_false_iff.mp h)
  rw [magnitude_eq]
  change unpackedSize (UnpackedFloat.unpack .binary64 value.toBits.toBitVec) = _
  rw [UnpackedFloat.unpack]
  simp only
  split
  · next hones =>
    have hexponent : (exponentField value).toNat = 2047 := congrArg BitVec.toNat hones
    split
    · next hzero =>
      have hsignificand : (significandField value).toNat = 0 := congrArg BitVec.toNat hzero
      have hinfinity : 2047 * hiddenBit + 0 = infinityBits := rfl
      rw [hexponent, hsignificand, hinfinity, units_infinityBits,
        mul_div_cancel_right₀ _ (by positivity)]
      rfl
    · next hrest => exact absurd ⟨hones, hrest⟩ hnumber
  · next hones =>
    split
    · next hsubnormal =>
      have hexponent : (exponentField value).toNat = 0 := congrArg BitVec.toNat hsubnormal
      rw [hexponent, units_div_eq (units_of_subnormal hbound)]
      split
      · next hzero =>
        have hsignificand : (significandField value).toNat = 0 := congrArg BitVec.toNat hzero
        rw [hsignificand, Nat.cast_zero, zero_mul]
        rfl
      · next hrest =>
        change ((significandField value).toNat : ℚ) * 2 ^
          (((exponentField value).toNat : ℤ) - (1023 + 52) + 1) = _
        rw [hexponent]
        rfl
    · next hnormal =>
      have hexponent : (exponentField value).toNat ≠ 0 := fun hzero =>
        hnormal (BitVec.toNat_inj.mp hzero)
      have hmantissa : (1#1 ++ significandField value).toNat =
          2 ^ 52 + (significandField value).toNat := by
        rw [BitVec.toNat_append, ← Nat.shiftLeft_add_eq_or_of_lt hbound]
        rfl
      rw [units_div_eq (units_of_normal hexponent hbound), ← hmantissa]
      change (((1#1 ++ significandField value).toNat : Nat) : ℚ) * 2 ^
          (((exponentField value).toNat : ℤ) - (1023 + 52)) = _
      congr 2
      omega

/-! ## What exact values round to -/

/-- **The number that an exact value rounds to**, with a given sign.  No other number is
nearer, and the last bit is zero if another one is as near. -/
structure RoundsTo (negative : Bool) (exact : ℚ) (value : Float) : Prop where
  number : value.isNaN = false
  sign : isNegative value = negative
  nearest : ∀ other : Float, other.isNaN = false → |size value - exact| ≤ |size other - exact|
  even : ∀ other : Float, other.isNaN = false → size other ≠ size value →
    |size other - exact| = |size value - exact| → magnitude value % 2 = 0

/-- Distances of numbers are those of their units. -/
theorem abs_size_sub {value : Float} (h : value.isNaN = false) (exact : ℚ) :
    |size value - exact| = |(units (magnitude value) : ℚ) - exact * 2 ^ 1074| / 2 ^ 1074 := by
  have hpower : (0 : ℚ) < 2 ^ 1074 := by positivity
  rw [size_eq h, ← abs_of_pos hpower, ← abs_div, abs_of_pos hpower, sub_div,
    mul_div_cancel_right₀ _ hpower.ne']

/-- **The number of a nearest pattern is what the exact value rounds to.** -/
theorem NearestPattern.roundsTo {bits : Nat} {exact : ℚ}
    (h : NearestPattern bits (exact * 2 ^ 1074)) (negative : Bool) :
    RoundsTo negative exact (ofMagnitude negative bits) := by
  have hmagnitude := magnitude_ofMagnitude negative h.le
  have hnumber : (ofMagnitude negative bits).isNaN = false :=
    isNaN_eq_false_iff.mpr (hmagnitude.le.trans h.le)
  have hpower : (0 : ℚ) < 2 ^ 1074 := by positivity
  refine ⟨hnumber, isNegative_ofMagnitude negative h.le, fun other hother => ?_,
    fun other hother hne htie => ?_⟩
  · rw [abs_size_sub hnumber, abs_size_sub hother, hmagnitude]
    exact div_le_div_of_nonneg_right (h.nearest _ (isNaN_eq_false_iff.mp hother)) hpower.le
  · have hbits : magnitude other ≠ bits := by
      intro heq
      rw [size_eq hnumber, size_eq hother, hmagnitude, heq] at hne
      exact hne rfl
    rw [abs_size_sub hnumber, abs_size_sub hother, hmagnitude, div_left_inj' hpower.ne'] at htie
    rw [hmagnitude]
    exact h.even _ (isNaN_eq_false_iff.mp hother) hbits htie

namespace RoundsTo

variable {negative : Bool} {exact : ℚ} {value : Float}

/-- The pattern of what an exact value rounds to is nearest to it. -/
theorem nearestPattern (h : RoundsTo negative exact value) :
    NearestPattern (magnitude value) (exact * 2 ^ 1074) := by
  have hpower : (0 : ℚ) < 2 ^ 1074 := by positivity
  have hpattern {bits : Nat} (hbits : bits ≤ infinityBits) :
      (ofMagnitude false bits).isNaN = false ∧ magnitude (ofMagnitude false bits) = bits := by
    have hmagnitude := magnitude_ofMagnitude false hbits
    exact ⟨isNaN_eq_false_iff.mpr (hmagnitude.le.trans hbits), hmagnitude⟩
  refine ⟨isNaN_eq_false_iff.mp h.number, fun bits hbits => ?_, fun bits hbits hne htie => ?_⟩
  · obtain ⟨hnumber, hmagnitude⟩ := hpattern hbits
    have hnearest := h.nearest _ hnumber
    rwa [abs_size_sub h.number, abs_size_sub hnumber, hmagnitude,
      div_le_div_iff_of_pos_right hpower] at hnearest
  · obtain ⟨hnumber, hmagnitude⟩ := hpattern hbits
    refine h.even _ hnumber ?_ ?_
    · rw [size_eq h.number, size_eq hnumber, hmagnitude, ne_eq, div_left_inj' hpower.ne',
        Nat.cast_inj]
      exact fun heq => hne (units_strictMono.injective heq)
    · rw [abs_size_sub h.number, abs_size_sub hnumber, hmagnitude, htie]

end RoundsTo

/-- A pattern below another cannot be nearest together with it. -/
theorem NearestPattern.not_lt {bits other : Nat} {exact : ℚ} (h : NearestPattern bits exact)
    (hother : NearestPattern other exact) : ¬bits < other := by
  intro hlt
  have htie : |(units other : ℚ) - exact| = |(units bits : ℚ) - exact| :=
    le_antisymm (hother.nearest _ h.le) (h.nearest _ hother.le)
  have heven := h.even other hother.le hlt.ne' htie
  have heven_other := hother.even bits h.le hlt.ne htie.symm
  -- Both are even, so there is a pattern between them, and it is nearer than they are.
  have hbetween : bits + 1 < other := by omega
  have hnearest := h.nearest (bits + 1) (hbetween.le.trans hother.le)
  have hlower : (units bits : ℚ) < units (bits + 1) :=
    Nat.cast_lt.mpr (units_strictMono (Nat.lt_succ_self bits))
  have hupper : (units (bits + 1) : ℚ) < units other := Nat.cast_lt.mpr (units_strictMono hbetween)
  have hcloser : |(units (bits + 1) : ℚ) - exact| < |(units bits : ℚ) - exact| := by
    obtain hsame | hmirror := abs_eq_abs.mp htie
    · linarith
    · rw [abs_of_neg (by linarith : (units bits : ℚ) - exact < 0), abs_lt]
      constructor <;> linarith
  exact absurd hnearest (not_le.mpr hcloser)

/-- What is nearest to infinity is beyond the greatest finite number by half a step or more. -/
theorem NearestPattern.eq_infinityBits_iff {bits : Nat} {exact : ℚ}
    (h : NearestPattern bits exact) :
    bits = infinityBits ↔ (units infinityBits : ℚ) - 2 ^ 2044 ≤ exact := by
  have hstep : (units infinityBits : ℚ) = units (infinityBits - 1) + 2 * 2 ^ 2044 := by
    have hscale : scale (infinityBits - 1) = 2045 := by decide
    have hsucc := units_succ (infinityBits - 1)
    rw [hscale, Nat.sub_add_cancel (by decide)] at hsucc
    rw [hsucc, Nat.cast_add, Nat.cast_pow, Nat.cast_two, ← pow_succ']
  have hhalf : (0 : ℚ) < 2 ^ 2044 := by positivity
  generalize (2 : ℚ) ^ 2044 = half at *
  constructor
  · rintro rfl
    have hnearest := h.nearest (infinityBits - 1) (Nat.sub_le _ _)
    by_contra hless
    rw [abs_of_pos (by linarith : 0 < (units infinityBits : ℚ) - exact), le_abs] at hnearest
    rcases hnearest with hle | hle <;> linarith
  · intro hexact
    by_contra hne
    have hbits : bits ≤ infinityBits - 1 := Nat.le_sub_one_of_lt (lt_of_le_of_ne h.le hne)
    have hunits : (units bits : ℚ) ≤ units (infinityBits - 1) :=
      Nat.cast_le.mpr (units_strictMono.monotone hbits)
    have hnearest := h.nearest infinityBits (Nat.le_refl _)
    have hbelow : |(units bits : ℚ) - exact| = exact - units bits := by
      rw [abs_of_neg (by linarith), neg_sub]
    have hcloser : exact - units bits ≤ units infinityBits - exact := by
      rw [hbelow, le_abs] at hnearest
      refine hnearest.resolve_right fun hle => ?_
      linarith
    -- The value is half a step away from both, and the greatest finite pattern is odd.
    have hgreatest : bits = infinityBits - 1 := by
      have hunits_ge : (units (infinityBits - 1) : ℚ) ≤ units bits := by linarith
      exact le_antisymm hbits (units_strictMono.le_iff_le.mp (Nat.cast_le.mp hunits_ge))
    have htie : |(units infinityBits : ℚ) - exact| = |(units bits : ℚ) - exact| := by
      rw [hbelow, abs_of_pos (by linarith)]
      linarith
    have heven := h.even infinityBits (Nat.le_refl _) (Ne.symm hne) htie
    rw [hgreatest] at heven
    exact absurd heven (by decide)

namespace RoundsTo

variable {negative : Bool} {exact : ℚ} {value other : Float}

/-- **An exact value rounds to one number only.** -/
theorem unique (h : RoundsTo negative exact value) (hother : RoundsTo negative exact other) :
    value = other := by
  have hmagnitude : magnitude value = magnitude other :=
    le_antisymm (not_lt.mp (hother.nearestPattern.not_lt h.nearestPattern))
      (not_lt.mp (h.nearestPattern.not_lt hother.nearestPattern))
  rw [← ofMagnitude_magnitude value, ← ofMagnitude_magnitude other, hmagnitude, h.sign,
    hother.sign]

/-- **Exact values overflow to infinity** from half a step beyond the greatest finite
number on. -/
theorem isInf_iff (h : RoundsTo negative exact value) :
    value.isInf = true ↔ (2 : ℚ) ^ 1024 - 2 ^ 970 ≤ exact := by
  have hinfinite : value.isInf = true ↔ magnitude value = infinityBits := by
    have hle := isNaN_eq_false_iff.mp h.number
    have hfinite : value.isFinite = false ↔ _ := isFinite_eq_false_iff
    rw [h.number, ← Bool.not_eq_true, isFinite_iff] at hfinite
    simp only [Bool.false_eq_true, false_or] at hfinite
    rw [← hfinite]
    omega
  have hpower : (0 : ℚ) < 2 ^ 1074 := by positivity
  have hhalf : (2 : ℚ) ^ 2044 = 2 ^ 970 * 2 ^ 1074 := by rw [← pow_add]
  rw [hinfinite, h.nearestPattern.eq_infinityBits_iff, units_infinityBits, hhalf, ← sub_mul,
    mul_le_mul_iff_of_pos_right hpower]

end RoundsTo

/-! ## What decimals round to -/

namespace Decimal

/-- The value of a decimal. -/
def value (decimal : Decimal) : ℚ :=
  decimal.mantissa * 10 ^ decimal.exponent

/-- The quotient that is rounded is the value in units. -/
theorem numerator_div_denominator (decimal : Decimal) :
    (decimal.numerator : ℚ) / decimal.denominator = decimal.value * 2 ^ 1074 := by
  have hpower : (10 : ℚ) ^ decimal.exponent =
      10 ^ decimal.exponent.toNat / 10 ^ (-decimal.exponent).toNat := by
    rw [← zpow_natCast, ← zpow_natCast, ← zpow_sub₀ (by norm_num)]
    congr 1
    omega
  have hnumerator : (decimal.numerator : ℚ) =
      decimal.mantissa * 2 ^ 1074 * 10 ^ decimal.exponent.toNat := by
    rw [numerator, Nat.cast_mul, cast_shiftLeft, Nat.cast_pow, Nat.cast_ofNat]
  have hdenominator : (decimal.denominator : ℚ) = 10 ^ (-decimal.exponent).toNat := by
    rw [denominator, Nat.cast_pow, Nat.cast_ofNat]
  rw [value, hpower, hnumerator, hdenominator]
  generalize (2 : ℚ) ^ 1074 = unit
  ring

/-- The pattern that a decimal is read as is nearest to its value. -/
theorem nearestPattern_bits (decimal : Decimal) :
    NearestPattern decimal.bits (decimal.value * 2 ^ 1074) := by
  rw [bits_eq, ← numerator_div_denominator]
  exact nearestPattern_nearestBits decimal.denominator_pos

/-- **A decimal is read as the number its value rounds to.** -/
theorem roundsTo_toFloat (decimal : Decimal) (negative : Bool) :
    RoundsTo negative decimal.value (decimal.toFloat negative) :=
  decimal.nearestPattern_bits.roundsTo negative

end Decimal

end KoreanScript.Number
