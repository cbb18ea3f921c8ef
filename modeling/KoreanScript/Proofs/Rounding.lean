import KoreanScript.Number.Shortest
import Mathlib.Data.Nat.Basic
import Mathlib.Tactic.Ring

/-!
# Reading decimals

A decimal is read as the pattern nearest to its value.  The value is a quotient of two
natural numbers, and rounding sees nothing of a quotient but its value: that is proved
first, and with it two decimals of one value are read alike.  A finite magnitude is a
whole number of units and its own nearest pattern.  As its exact decimal has just that
value, the exact decimal reads back, and so does the shortest one, since the search for
it only accepts decimals that do.

Reading cuts the calculation short for exponents at the far ends.  The cases are no
exception to the rule: the values there are rounded to infinity and to zero anyhow.
-/

set_option autoImplicit false

namespace KoreanScript.Number

/-! ## Shifts and powers -/

/-- A factor may be applied after a shift. -/
theorem mul_shiftLeft (n factor places : Nat) :
    (n * factor) <<< places = (n <<< places) * factor := by
  rw [Nat.shiftLeft_eq, Nat.shiftLeft_eq, Nat.mul_right_comm]

theorem two_mul_shiftLeft_lt (n places : Nat) : 2 * (n <<< places) < 2 ^ (n.log2 + places + 2) := calc
  2 * (n <<< places) = n * 2 ^ (places + 1) := by
    rw [Nat.shiftLeft_eq, Nat.pow_succ]
    ring
  _ < 2 ^ (n.log2 + 1) * 2 ^ (places + 1) :=
    (Nat.mul_lt_mul_right (Nat.two_pow_pos _)).mpr Nat.lt_log2_self
  _ = 2 ^ (n.log2 + places + 2) := by
    rw [← Nat.pow_add, Nat.add_add_add_comm]

/-- Shifting a multiple of a power of five makes some of the places powers of ten. -/
theorem mul_five_pow_shiftLeft (n : Nat) {places missing total : Nat}
    (h : places + missing = total) :
    (n * 5 ^ missing) <<< total = (n <<< places) * 10 ^ missing := by
  have hten : 10 ^ missing = 2 ^ missing * 5 ^ missing := Nat.mul_pow 2 5 missing
  rw [← h, Nat.shiftLeft_eq, Nat.shiftLeft_eq, Nat.pow_add, hten]
  ring

/-- Powers of ten are at least as great as powers of two with a threefold exponent. -/
theorem two_pow_le_ten_pow {m n : Nat} (h : m ≤ 3 * n) : 2 ^ m ≤ 10 ^ n := calc
  2 ^ m ≤ 2 ^ (3 * n) := Nat.pow_le_pow_right (by decide) h
  _ = 8 ^ n := Nat.pow_mul 2 3 n
  _ ≤ 10 ^ n := Nat.pow_le_pow_left (by decide) n

theorem two_pow_le_shiftLeft_mul {n : Nat} (hn : 0 < n) (places : Nat) {extra power : Nat}
    (h : extra ≤ 3 * power) : 2 ^ (places + extra) ≤ (n <<< places) * 10 ^ power := by
  rw [Nat.pow_add, Nat.shiftLeft_eq]
  exact Nat.mul_le_mul (Nat.le_mul_of_pos_left _ hn) (two_pow_le_ten_pow h)

/-! ## Rounding quotients -/

/-- A common factor is of no importance to the nearest integer. -/
theorem roundQuotient_mul {factor : Nat} (hfactor : 0 < factor) (numerator denominator : Nat) :
    roundQuotient (numerator * factor) (denominator * factor) =
      roundQuotient numerator denominator := by
  have hdoubled (r : Nat) : 2 * (r * factor) = 2 * r * factor := (Nat.mul_assoc 2 r factor).symm
  simp only [roundQuotient, Nat.mul_div_mul_right _ _ hfactor, Nat.mul_mod_mul_right, hdoubled,
    Nat.mul_lt_mul_right hfactor]

/-- A quotient without a remainder is its own nearest integer. -/
theorem roundQuotient_mul_self {denominator : Nat} (h : 0 < denominator) (quotient : Nat) :
    roundQuotient (quotient * denominator) denominator = quotient := by
  simp [roundQuotient, Nat.mul_div_cancel _ h, h]

/-- Nor is it to the nearest pattern. -/
theorem nearestBits_mul {factor : Nat} (hfactor : 0 < factor) (numerator denominator : Nat) :
    nearestBits (numerator * factor) (denominator * factor) =
      nearestBits numerator denominator := by
  simp only [nearestBits, Nat.mul_div_mul_right _ _ hfactor, mul_shiftLeft,
    roundQuotient_mul hfactor]

/-- **Equal quotients have one nearest pattern.** -/
theorem nearestBits_congr {numerator denominator numerator' denominator' : Nat}
    (h : 0 < denominator) (h' : 0 < denominator')
    (hcross : numerator * denominator' = numerator' * denominator) :
    nearestBits numerator denominator = nearestBits numerator' denominator' := calc
  nearestBits numerator denominator
      = nearestBits (numerator * denominator') (denominator * denominator') :=
    (nearestBits_mul h' _ _).symm
  _ = nearestBits (numerator' * denominator) (denominator' * denominator) := by
    rw [hcross, Nat.mul_comm denominator]
  _ = nearestBits numerator' denominator' := nearestBits_mul h _ _

/-- Quotients of less than half a unit are rounded to zero. -/
theorem nearestBits_eq_zero {numerator denominator : Nat} (h : 2 * numerator < denominator) :
    nearestBits numerator denominator = 0 := by
  have hlt : numerator < denominator := by omega
  have hlog : (0 : Nat).log2 = 0 := rfl
  simp [nearestBits, roundQuotient, Nat.div_eq_of_lt hlt, Nat.mod_eq_of_lt hlt, hlog, h]

/-- Quotients of `2 ^ 1025` and more, as numbers, are rounded to infinity. -/
theorem nearestBits_eq_infinityBits {numerator denominator k : Nat} (hk : 1074 + 1025 ≤ k)
    (h : 2 ^ k ≤ numerator / denominator) : nearestBits numerator denominator = infinityBits := by
  have hne : numerator / denominator ≠ 0 :=
    Nat.ne_of_gt (Nat.lt_of_lt_of_le (Nat.two_pow_pos k) h)
  have hlog : k ≤ (numerator / denominator).log2 := (Nat.le_log2 hne).mpr h
  have hshift : 2047 * hiddenBit ≤ ((numerator / denominator).log2 - 52) * hiddenBit :=
    Nat.mul_le_mul_right _ (by omega)
  exact Nat.min_eq_left (Nat.le_trans hshift (Nat.le_add_left _ _))

/-! ## Units -/

theorem units_eq (bits : Nat) : units bits = significand bits * 2 ^ scale bits :=
  Nat.shiftLeft_eq _ _

theorem significand_of_lt {bits : Nat} (h : bits < hiddenBit) : significand bits = bits :=
  if_pos h

theorem scale_of_lt {bits : Nat} (h : bits < hiddenBit) : scale bits = 0 := by
  rw [scale, Nat.div_eq_of_lt h]

theorem significand_of_le {bits : Nat} (h : hiddenBit ≤ bits) :
    significand bits = hiddenBit + bits % hiddenBit :=
  if_neg (Nat.not_lt.mpr h)

/-- A pattern is its significand and, in the exponent field, how far that is shifted. -/
theorem significand_add_scale (bits : Nat) : significand bits + scale bits * hiddenBit = bits := by
  obtain hlt | hle := Nat.lt_or_ge bits hiddenBit
  · rw [significand_of_lt hlt, scale_of_lt hlt, Nat.zero_mul, Nat.add_zero]
  · rw [significand_of_le hle, scale]
    rw [hiddenBit] at *
    omega

/-- The units of a pattern have as many places beyond 53 as its significand is shifted. -/
theorem log2_units_sub (bits : Nat) : (units bits).log2 - 52 = scale bits := by
  rw [units_eq]
  obtain hlt | hle := Nat.lt_or_ge bits hiddenBit
  · have hlog : bits.log2 < 53 := by
      obtain rfl | hne := Nat.eq_zero_or_pos bits
      · decide
      · rw [Nat.log2_lt (Nat.ne_of_gt hne)]
        exact Nat.lt_trans hlt (by decide)
    rw [significand_of_lt hlt, scale_of_lt hlt, Nat.pow_zero, Nat.mul_one]
    omega
  · have hmod := Nat.mod_lt bits (show 0 < hiddenBit by decide)
    have hlower : 2 ^ 52 ≤ significand bits := by
      rw [significand_of_le hle]
      exact Nat.le_add_right _ _
    have hupper : significand bits < 2 ^ 53 := by
      rw [significand_of_le hle]
      rw [hiddenBit] at *
      omega
    have hpos : 0 < significand bits * 2 ^ scale bits :=
      Nat.mul_pos (Nat.lt_of_lt_of_le (by decide) hlower) (Nat.two_pow_pos _)
    have hlog : (significand bits * 2 ^ scale bits).log2 = 52 + scale bits := by
      rw [Nat.log2_eq_iff (Nat.ne_of_gt hpos), Nat.add_right_comm, Nat.pow_add, Nat.pow_add]
      exact ⟨Nat.mul_le_mul_right _ hlower,
        (Nat.mul_lt_mul_right (Nat.two_pow_pos _)).mpr hupper⟩
    omega

/-- **The units of a finite magnitude are rounded to its pattern.** -/
theorem nearestBits_units {bits : Nat} (h : bits < infinityBits) :
    nearestBits (units bits) 1 = bits := by
  rw [nearestBits]
  simp only [Nat.div_one, log2_units_sub, Nat.one_shiftLeft]
  rw [units_eq, roundQuotient_mul_self (Nat.two_pow_pos _), significand_add_scale]
  exact Nat.min_eq_right (Nat.le_of_lt h)

/-! ## The value of a decimal -/

namespace Decimal

/-- What the value of a decimal, in units, is as a quotient: the number divided. -/
def numerator (decimal : Decimal) : Nat :=
  (decimal.mantissa <<< 1074) * 10 ^ decimal.exponent.toNat

/-- The number it is divided by. -/
def denominator (decimal : Decimal) : Nat :=
  10 ^ (-decimal.exponent).toNat

theorem denominator_pos (decimal : Decimal) : 0 < decimal.denominator :=
  Nat.pow_pos (by decide)

/-- Great exponents are infinite. -/
theorem nearestBits_of_gt {decimal : Decimal} (hmantissa : decimal.mantissa ≠ 0)
    (h : 400 < decimal.exponent) :
    nearestBits decimal.numerator decimal.denominator = infinityBits := by
  have hdenominator : decimal.denominator = 1 := by
    rw [denominator, Int.toNat_of_nonpos (by omega), Nat.pow_zero]
  have hexponent : 1074 + 1025 ≤ 1074 + 3 * decimal.exponent.toNat := by omega
  apply nearestBits_eq_infinityBits hexponent
  rw [hdenominator, Nat.div_one]
  exact two_pow_le_shiftLeft_mul (Nat.pos_of_ne_zero hmantissa) 1074 (Nat.le_refl _)

/-- Decimals far below a unit are zero. -/
theorem nearestBits_of_lt {decimal : Decimal}
    (h : decimal.exponent + decimal.mantissa.log2 < -400) :
    nearestBits decimal.numerator decimal.denominator = 0 := by
  apply nearestBits_eq_zero
  rw [numerator, Int.toNat_of_nonpos (by omega), Nat.pow_zero, Nat.mul_one]
  exact Nat.lt_of_lt_of_le (two_mul_shiftLeft_lt decimal.mantissa 1074)
    (two_pow_le_ten_pow (by omega))

/-- **A decimal is read as the pattern nearest to its value**, whichever way the
calculation is cut short. -/
theorem bits_eq (decimal : Decimal) :
    decimal.bits = nearestBits decimal.numerator decimal.denominator := by
  rw [bits]
  split
  · next hzero =>
    have hnumerator : decimal.numerator = 0 := by
      rw [numerator, hzero, Nat.zero_shiftLeft, Nat.zero_mul]
    rw [hnumerator, nearestBits_eq_zero decimal.denominator_pos]
  · next hzero =>
    split
    · next hgreat => exact (nearestBits_of_gt hzero hgreat).symm
    · split
      · next hsmall => exact (nearestBits_of_lt hsmall).symm
      · obtain ⟨mantissa, exponent⟩ := decimal
        cases exponent with
        | ofNat power => simp [numerator, denominator]
        | negSucc power => simp [numerator, denominator]

/-- **Zeros at the end of a mantissa may as well be counted by the exponent.** -/
theorem bits_mul_ten_pow (mantissa zeros : Nat) (exponent : Int) :
    bits ⟨mantissa * 10 ^ zeros, exponent⟩ = bits ⟨mantissa, exponent + zeros⟩ := by
  rw [bits_eq, bits_eq]
  apply nearestBits_congr (denominator_pos _) (denominator_pos _)
  have hpowers : 10 ^ zeros * 10 ^ exponent.toNat * 10 ^ (-(exponent + zeros)).toNat =
      10 ^ (exponent + zeros).toNat * 10 ^ (-exponent).toNat := by
    rw [← Nat.pow_add, ← Nat.pow_add, ← Nat.pow_add]
    congr 1
    omega
  simp only [numerator, denominator, mul_shiftLeft, Nat.mul_assoc]
  rw [← Nat.mul_assoc (10 ^ zeros), hpowers]

/-! ## Magnitudes as decimals -/

/-- The exact decimal of a magnitude has the value of its units. -/
theorem numerator_exactDecimal (b : Nat) :
    (exactDecimal b).numerator = units b * (exactDecimal b).denominator := by
  rw [exactDecimal]
  split
  · next hplaces =>
    obtain ⟨extra, hextra⟩ := Nat.exists_eq_add_of_le' hplaces
    simp [numerator, denominator, units, hextra, Nat.shiftLeft_add]
  · next hplaces =>
    have hexponent : (-((scale b : Int) - 1074)).toNat = 1074 - scale b := by omega
    have hpower : ((scale b : Int) - 1074).toNat = 0 := by omega
    simp only [numerator, denominator, hexponent, hpower, Nat.pow_zero, Nat.mul_one, units]
    exact mul_five_pow_shiftLeft _ (by omega)

/-- A finite magnitude is what its exact decimal is read as. -/
theorem bits_exactDecimal {b : Nat} (h : b < infinityBits) : (exactDecimal b).bits = b := calc
  (exactDecimal b).bits
      = nearestBits (exactDecimal b).numerator (exactDecimal b).denominator := bits_eq _
  _ = nearestBits (units b) 1 :=
    nearestBits_congr (denominator_pos _) (by decide) (by rw [numerator_exactDecimal, Nat.mul_one])
  _ = b := nearestBits_units h

/-- Zeros at the end do not change what a decimal is read as. -/
theorem bits_withoutTrailingZeros (decimal : Decimal) :
    decimal.withoutTrailingZeros.bits = decimal.bits := by
  fun_induction withoutTrailingZeros decimal with
  | case1 decimal h => rfl
  | case2 decimal h ih =>
    rw [ih]
    have hmod : decimal.mantissa % 10 = 0 := by omega
    have := bits_mul_ten_pow (decimal.mantissa / 10) 1 decimal.exponent
    rw [Nat.pow_one, Nat.div_mul_cancel (Nat.dvd_of_mod_eq_zero hmod)] at this
    exact this.symm

end Decimal

/-! ## The shortest decimal -/

/-- A neighbour that is taken reads back. -/
theorem bits_of_neighbour? {exact decimal : Decimal} {b dropped : Nat}
    (h : neighbour? exact b dropped = some decimal) : decimal.bits = b := by
  rw [neighbour?] at h
  split at h
  · next hlower =>
    split at h
    · next hupper => exact Option.some.inj h ▸ hupper.1
    · exact Option.some.inj h ▸ hlower
  · split at h
    · next hupper => exact Option.some.inj h ▸ hupper
    · exact absurd h (by simp)

/-- The search ends with a decimal that reads back, whatever is dropped. -/
theorem bits_shortestFrom {exact : Decimal} {b : Nat} (h : exact.bits = b) (dropped : Nat) :
    (shortestFrom exact b dropped).bits = b := by
  induction dropped with
  | zero => exact h
  | succ dropped ih =>
    rw [shortestFrom]
    split
    · next hneighbour => exact bits_of_neighbour? hneighbour
    · exact ih

/-- **The shortest decimal of a finite magnitude reads back.** -/
theorem bits_shortest {b : Nat} (h : b < infinityBits) : (shortest b).bits = b := by
  rw [shortest, Decimal.bits_withoutTrailingZeros]
  exact bits_shortestFrom (Decimal.bits_exactDecimal h) _

end KoreanScript.Number
