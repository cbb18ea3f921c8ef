import KoreanScript.Proofs.Numerals
import KoreanScript.Proofs.Shortest

/-!
# Layouts by the decimal exponent

Which layout a number is printed in is decided on patterns, before its digits are known:
it is written out if its pattern is not below the one that a millionth is read as, and is
below the one that `10 ^ 21` is read as.  What is printed are decimal digits, and their
exponent tells on which side of the two bounds they are.  The two do not disagree, although
a millionth is not a binary number and digits may be rounded up to a power of ten: a number
that is read from a power of ten is printed as its one digit, since the next smaller decimal
of one digit is read as another number (`powerOfTen_le_iff`).

The digits themselves are specified by what they read back as.  They are the fewest that
do, the nearest of those, and of two that are equally near the greater ones; there is always
just one such run of digits.
-/

set_option autoImplicit false

namespace KoreanScript.Number

/-! ## Significant digits -/

/-- The number `d₁.d₂…dₖ * 10 ^ exponent`. -/
def scientific (digits : List Char) (exponent : ℤ) : ℚ :=
  placeValue digits * 10 ^ (exponent + 1 - digits.length)

/-- Digits of which neither the first nor the last one is zero. -/
structure IsSignificand (text : List Char) : Prop extends IsRun text where
  first : text.head? ≠ some '0'
  last : text.getLast? ≠ some '0'

/-- Significant digits and an exponent that read back as a number, its sign aside. -/
structure ReadsBack (value : Float) (digits : List Char) (exponent : ℤ) : Prop where
  significand : IsSignificand digits
  rounds : RoundsTo (isNegative value) (scientific digits exponent) value

/-- Digits that read back, and no fewer do. -/
structure FewestDigits (value : Float) (digits : List Char) (exponent : ℤ) : Prop where
  reads : ReadsBack value digits exponent
  fewest : ∀ others power, ReadsBack value others power → digits.length ≤ others.length

/-- **The digits of a number**: the fewest that read back, nearest to the number among those,
and the greater ones of two that are equally near. -/
structure ShortestDigits (value : Float) (digits : List Char) (exponent : ℤ) : Prop
    extends FewestDigits value digits exponent where
  nearest : ∀ others power, ReadsBack value others power → others.length = digits.length →
    |scientific digits exponent - size value| ≤ |scientific others power - size value|
  greatest : ∀ others power, ReadsBack value others power → others.length = digits.length →
    |scientific others power - size value| = |scientific digits exponent - size value| →
      scientific others power ≤ scientific digits exponent

namespace IsSignificand

variable {digits : List Char}

theorem bounds (h : IsSignificand digits) :
    10 ^ (digits.length - 1) ≤ placeValue digits ∧ placeValue digits < 10 ^ digits.length := by
  refine ⟨?_, placeValue_lt h.digits⟩
  obtain ⟨c, rest, rfl⟩ := List.exists_cons_of_ne_nil h.nonempty
  have hzero : c ≠ '0' := fun hzero => h.first (congrArg some hzero)
  exact le_placeValue_cons (h.digits c List.mem_cons_self) hzero rest

/-- The first digit counts the power of ten that the exponent says. -/
theorem scientific_bounds (h : IsSignificand digits) (exponent : ℤ) :
    (10 : ℚ) ^ exponent ≤ scientific digits exponent ∧
      scientific digits exponent < 10 ^ (exponent + 1) := by
  obtain ⟨hlower, hupper⟩ := h.bounds
  have hpos : 0 < digits.length := List.length_pos_iff.mpr h.nonempty
  have hscale : (0 : ℚ) < 10 ^ (exponent + 1 - digits.length) := by positivity
  have hpower (k : Nat) (power : ℤ) (hk : power = k + (exponent + 1 - digits.length)) :
      (10 : ℚ) ^ power = (10 ^ k : Nat) * 10 ^ (exponent + 1 - digits.length) := by
    rw [hk, zpow_add₀ (by norm_num), zpow_natCast]
    push_cast
    rfl
  rw [hpower (digits.length - 1) exponent (by omega),
    hpower digits.length (exponent + 1) (by omega), scientific]
  exact ⟨mul_le_mul_of_nonneg_right (Nat.cast_le.mpr hlower) hscale.le,
    mul_lt_mul_of_pos_right (Nat.cast_lt.mpr hupper) hscale⟩

/-- Significant digits of the same value are the same, when they are as many. -/
theorem unique (h : IsSignificand digits) {others : List Char} (hothers : IsSignificand others)
    {exponent power : ℤ} (hlength : others.length = digits.length)
    (hvalue : scientific others power = scientific digits exponent) :
    others = digits ∧ power = exponent := by
  have hbounds := h.scientific_bounds exponent
  have hpower := hothers.scientific_bounds power
  rw [hvalue] at hpower
  have hten : (1 : ℚ) < 10 := by norm_num
  have hle := (zpow_lt_zpow_iff_right₀ hten).mp (hpower.1.trans_lt hbounds.2)
  have hge := (zpow_lt_zpow_iff_right₀ hten).mp (hbounds.1.trans_lt hpower.2)
  obtain rfl : power = exponent := by omega
  have hscale : (10 : ℚ) ^ (power + 1 - digits.length) ≠ 0 := by positivity
  rw [scientific, scientific, hlength, mul_left_inj' hscale, Nat.cast_inj] at hvalue
  exact ⟨eq_of_placeValue_eq hothers.digits h.digits hlength hvalue, rfl⟩

end IsSignificand

theorem isSignificand_one : IsSignificand ['1'] where
  nonempty := List.cons_ne_nil _ _
  digits := List.forall_mem_singleton.mpr rfl
  first := by decide
  last := by decide

/-- A positive number that does not end in a zero has significant digits. -/
theorem isSignificand_toDigits {n : Nat} (h : n % 10 ≠ 0) : IsSignificand (Nat.toDigits 10 n) := by
  have hpos : 0 < n := by omega
  have hrun : IsRun (Nat.toDigits 10 n) := isDigits_iff_isRun.mp (isDigits_toDigits n)
  have hvalue : placeValue (Nat.toDigits 10 n) = n := by
    rw [← digitsValue_eq_placeValue, digitsValue_toDigits]
  refine ⟨hrun, fun hzero => ?_, fun hzero => ?_⟩
  · -- with a zero in front the others would have to count as much as the power of ten
    obtain ⟨rest, hrest⟩ := List.head?_eq_some_iff.mp hzero
    have hlength : (Nat.toDigits 10 n).length = rest.length + 1 := congrArg List.length hrest
    have hlower := ((length_toDigits_eq_iff hpos).mp hlength).1
    have hdigits := hrun.digits
    rw [hrest] at hvalue hdigits
    have hless := placeValue_lt (List.forall_mem_cons.mp hdigits).2
    have hzeroth : digit '0' = 0 := rfl
    rw [placeValue, hzeroth, Nat.zero_mul, Nat.zero_add] at hvalue
    omega
  · obtain ⟨init, hinit⟩ := List.getLast?_eq_some_iff.mp hzero
    rw [← hvalue, hinit, placeValue_concat_mod rfl] at h
    exact h rfl

/-! ## Digits as decimals -/

theorem scientific_eq_value (digits : List Char) (exponent : ℤ) :
    scientific digits exponent =
      Decimal.value ⟨placeValue digits, exponent + 1 - digits.length⟩ := rfl

section Decimals

variable {value : Float}

/-- A decimal rounds to a number just if it is read as the pattern of the number. -/
theorem roundsTo_iff (decimal : Decimal) :
    RoundsTo (isNegative value) decimal.value value ↔ decimal.bits = magnitude value := by
  have hread := decimal.roundsTo_toFloat (isNegative value)
  constructor
  · intro h
    have hmagnitude := magnitude_ofMagnitude (isNegative value) decimal.nearestPattern_bits.le
    rw [h.unique hread, Decimal.toFloat, hmagnitude]
  · intro h
    rwa [Decimal.toFloat, h, ofMagnitude_magnitude] at hread

/-- Digits read back just if their decimal is read as the pattern of the number. -/
theorem readsBack_iff {digits : List Char} {exponent : ℤ} :
    ReadsBack value digits exponent ↔ IsSignificand digits ∧
      Decimal.bits ⟨placeValue digits, exponent + 1 - digits.length⟩ = magnitude value := by
  rw [← roundsTo_iff]
  exact ⟨fun h => ⟨h.significand, h.rounds⟩, fun h => ⟨h.1, h.2⟩⟩

/-- The shortest decimal of a number has its digits. -/
theorem shortestDigits_shortest (hnonzero : magnitude value ≠ 0)
    (hfinite : magnitude value < infinityBits) :
    ShortestDigits value (Nat.toDigits 10 (shortest (magnitude value)).mantissa)
      ((shortest (magnitude value)).exponent +
        (Nat.toDigits 10 (shortest (magnitude value)).mantissa).length - 1) := by
  obtain ⟨places, ⟨⟨hreads, hnearest, hgreatest⟩, hfewest⟩, hbound, hmod⟩ :=
    isShortest_shortest hnonzero hfinite
  have hnumber : value.isNaN = false := isNaN_eq_false_iff.mpr hfinite.le
  have hsize : size value = (exactDecimal (magnitude value)).value := by
    rw [size_eq hnumber, Decimal.value_exactDecimal]
  generalize shortest (magnitude value) = decimal at *
  obtain ⟨mantissa, exponent⟩ := decimal
  simp only at hbound hmod
  have hlength : (Nat.toDigits 10 mantissa).length = places + 1 :=
    (length_toDigits_eq_iff (by omega)).mpr ⟨hfewest _ hreads, hbound⟩
  have hdecimal : (⟨placeValue (Nat.toDigits 10 mantissa),
      exponent + (Nat.toDigits 10 mantissa).length - 1 + 1 - (Nat.toDigits 10 mantissa).length⟩ :
        Decimal) = ⟨mantissa, exponent⟩ := by
    rw [← digitsValue_eq_placeValue, digitsValue_toDigits]
    congr 1
    omega
  have hvalue : scientific (Nat.toDigits 10 mantissa)
      (exponent + (Nat.toDigits 10 mantissa).length - 1) = Decimal.value ⟨mantissa, exponent⟩ := by
    rw [← hdecimal, scientific_eq_value]
  have hother {others : List Char} {power : ℤ} (h : ReadsBack value others power)
      (hothers : others.length = (Nat.toDigits 10 mantissa).length) :
      placeValue others < 10 ^ (places + 1) := by
    rw [← hlength, ← hothers]
    exact h.significand.bounds.2
  refine ⟨⟨readsBack_iff.mpr ⟨isSignificand_toDigits hmod, ?_⟩, fun others power h => ?_⟩,
    fun others power h hothers => ?_, fun others power h hothers => ?_⟩
  · rw [hdecimal, hreads]
  · have hpower := (hfewest _ (readsBack_iff.mp h).2).trans_lt h.significand.bounds.2
    rw [hlength]
    exact (Nat.pow_lt_pow_iff_right (by decide)).mp hpower
  · rw [hvalue, hsize, scientific_eq_value]
    exact hnearest _ (readsBack_iff.mp h).2 (hother h hothers)
  · rw [hvalue, hsize, scientific_eq_value]
    exact hgreatest _ (readsBack_iff.mp h).2 (hother h hothers)

/-- **The digits of a number are unique.** -/
theorem ShortestDigits.unique {digits others : List Char} {exponent power : ℤ}
    (h : ShortestDigits value digits exponent) (hothers : ShortestDigits value others power) :
    others = digits ∧ power = exponent := by
  have hlength : others.length = digits.length :=
    le_antisymm (hothers.fewest digits exponent h.reads) (h.fewest others power hothers.reads)
  have htie : |scientific others power - size value| =
      |scientific digits exponent - size value| :=
    le_antisymm (hothers.nearest digits exponent h.reads hlength.symm)
      (h.nearest others power hothers.reads hlength)
  have hvalue : scientific others power = scientific digits exponent :=
    le_antisymm (h.greatest others power hothers.reads hlength htie)
      (hothers.greatest digits exponent h.reads hlength.symm htie.symm)
  exact h.reads.significand.unique hothers.reads.significand hlength hvalue

end Decimals

/-! ## The choice of a layout -/

section Choice

variable {value : Float} {digits : List Char} {exponent power : ℤ}

theorem value_one (power : ℤ) : Decimal.value ⟨1, power⟩ = 10 ^ power := by
  rw [Decimal.value, Nat.cast_one, one_mul]

/-- Nine of the next lower power of ten are less than a power of ten. -/
theorem value_nine_le (power : ℤ) :
    Decimal.value ⟨9, power - 1⟩ ≤ Decimal.value ⟨1, power⟩ := by
  rw [value_one, Decimal.value, zpow_sub_one₀ (by norm_num)]
  have hpos : (0 : ℚ) < 10 ^ power := by positivity
  push_cast
  linarith

/-- One digit below a power of ten is nine of the next lower one at most. -/
theorem IsSignificand.scientific_le_nine (h : IsSignificand digits) (hone : digits.length = 1)
    (hless : exponent < power) : scientific digits exponent ≤ Decimal.value ⟨9, power - 1⟩ := by
  have hbound := h.bounds.2
  have hexponent : exponent ≤ power - 1 := by omega
  rw [hone, Nat.pow_one] at hbound
  rw [scientific, hone, Nat.cast_one, add_sub_cancel_right, Decimal.value]
  exact mul_le_mul (Nat.cast_le.mpr (Nat.le_of_lt_succ hbound))
    (zpow_le_zpow_right₀ (by norm_num) hexponent) (by positivity) (by positivity)

/-- The digit one reads back as a number that is read as a power of ten. -/
theorem readsBack_one (h : Decimal.bits ⟨1, power⟩ = magnitude value) :
    ReadsBack value ['1'] power := by
  have hexponent : power + 1 - (['1'].length : ℤ) = power := add_sub_cancel_right power 1
  refine readsBack_iff.mpr ⟨isSignificand_one, ?_⟩
  rw [hexponent, ← h]
  rfl

/-- **A bound for patterns is a bound for exponents.**  A number that is read as a power of
ten has one digit, and the next smaller decimal of one digit is read as another number. -/
theorem powerOfTen_le_iff (hapart : Decimal.bits ⟨9, power - 1⟩ ≠ Decimal.bits ⟨1, power⟩)
    (h : FewestDigits value digits exponent) :
    Decimal.bits ⟨1, power⟩ ≤ magnitude value ↔ power ≤ exponent := by
  obtain ⟨hsignificand, hbits⟩ := readsBack_iff.mp h.reads
  obtain ⟨hlower, hupper⟩ := hsignificand.scientific_bounds exponent
  have hten : (1 : ℚ) ≤ 10 := by norm_num
  constructor
  · intro hle
    by_contra hless
    rw [not_le] at hless
    have hbelow : scientific digits exponent ≤ Decimal.value ⟨1, power⟩ := by
      rw [value_one]
      exact hupper.le.trans (zpow_le_zpow_right₀ hten hless)
    rw [scientific_eq_value] at hbelow
    have hsame := le_antisymm (hbits ▸ Decimal.bits_le_bits hbelow) hle
    have hone : digits.length = 1 :=
      le_antisymm (h.fewest _ _ (readsBack_one hsame.symm))
        (List.length_pos_iff.mpr hsignificand.nonempty)
    have hnine := hsignificand.scientific_le_nine hone hless
    rw [scientific_eq_value] at hnine
    exact hapart (Decimal.bits_eq_of_between hnine (value_nine_le power) (hbits.trans hsame))
  · intro hle
    rw [← hbits]
    refine Decimal.bits_le_bits ?_
    rw [value_one]
    exact (zpow_le_zpow_right₀ hten hle).trans hlower

/-- **The layout is the one that the exponent calls for.** -/
theorem isPositional_iff (h : FewestDigits value digits exponent) :
    isPositional (magnitude value) = true ↔ -6 ≤ exponent ∧ exponent < 21 := by
  have hmillionth : Decimal.bits ⟨9, -6 - 1⟩ ≠ Decimal.bits ⟨1, -6⟩ := by decide +kernel
  have hgreat : Decimal.bits ⟨9, 21 - 1⟩ ≠ Decimal.bits ⟨1, 21⟩ := by decide +kernel
  rw [isPositional, Bool.and_eq_true, decide_eq_true_iff, decide_eq_true_iff,
    powerOfTen_le_iff hmillionth h, ← not_le, powerOfTen_le_iff hgreat h, not_le]

end Choice

/-! ## Numbers written out -/

/-- A number written out without a power of ten: its whole part without needless zeros in
front, and the further digits, the last of which is no zero. -/
structure WrittenOut (amount : ℚ) (whole fraction : List Char) : Prop where
  run : IsRun whole
  digits : ∀ c ∈ fraction, c.isDigit = true
  noLeadingZero : whole.head? = some '0' → whole = ['0']
  noTrailingZero : fraction.getLast? ≠ some '0'
  counts : (placeValue whole : ℚ) + placeValue fraction / 10 ^ fraction.length = amount

/-- A run of digits without needless zeros in front is the digits of what it counts. -/
theorem eq_toDigits {whole : List Char} (run : IsRun whole)
    (noLeadingZero : whole.head? = some '0' → whole = ['0']) :
    whole = Nat.toDigits 10 (placeValue whole) := by
  obtain ⟨c, rest, rfl⟩ := List.exists_cons_of_ne_nil run.nonempty
  by_cases hzero : c = '0'
  · rw [noLeadingZero (congrArg some hzero)]
    decide
  · have hlower := le_placeValue_cons (run.digits c List.mem_cons_self) hzero rest
    have hpos : 0 < placeValue (c :: rest) := Nat.lt_of_lt_of_le (Nat.pow_pos (by decide)) hlower
    have hlength := (length_toDigits_eq_iff hpos).mpr ⟨hlower, placeValue_lt run.digits⟩
    refine eq_of_placeValue_eq run.digits (isDigits_iff.mp (isDigits_toDigits _)).2 hlength.symm ?_
    rw [← digitsValue_eq_placeValue (Nat.toDigits 10 _), digitsValue_toDigits]

namespace WrittenOut

variable {amount : ℚ} {whole fraction otherWhole otherFraction : List Char}

theorem placeValue_eq (h : WrittenOut amount whole fraction) :
    (placeValue (whole ++ fraction) : ℚ) = amount * 10 ^ fraction.length := by
  rw [← h.counts, ← placeValue_append_div, div_mul_cancel₀ _ (by positivity)]

/-- Of two ways to write a number out neither has more digits behind the point. -/
theorem length_fraction_le (h : WrittenOut amount whole fraction)
    (hother : WrittenOut amount otherWhole otherFraction) :
    otherFraction.length ≤ fraction.length := by
  by_contra hlonger
  obtain ⟨more, hmore⟩ := Nat.exists_eq_add_of_lt (Nat.lt_of_not_le hlonger)
  have hne : otherFraction ≠ [] := List.ne_nil_of_length_pos (by omega)
  obtain ⟨init, last, hlast⟩ := List.eq_nil_or_concat' otherFraction |>.resolve_left hne
  have hdigit : last.isDigit = true := hother.digits last (by simp [hlast])
  -- its last digit would be a zero, as it only multiplies the shorter one by a power of ten
  have hvalue : placeValue (otherWhole ++ otherFraction) =
      placeValue (whole ++ fraction) * 10 ^ more * 10 := by
    have hcast : (placeValue (otherWhole ++ otherFraction) : ℚ) =
        (placeValue (whole ++ fraction) * 10 ^ more * 10 : Nat) := by
      rw [hother.placeValue_eq, hmore]
      push_cast
      rw [h.placeValue_eq]
      ring
    exact Nat.cast_injective hcast
  have hmod := placeValue_concat_mod hdigit (otherWhole ++ init)
  rw [List.append_assoc, ← hlast, hvalue, Nat.mul_mod_left] at hmod
  obtain rfl : last = '0' := digit_injective hdigit rfl hmod.symm
  exact hother.noTrailingZero (hlast ▸ List.getLast?_concat)

/-- **A number is written out in one way.** -/
theorem unique (h : WrittenOut amount whole fraction)
    (hother : WrittenOut amount otherWhole otherFraction) :
    otherWhole = whole ∧ otherFraction = fraction := by
  have hlength := le_antisymm (h.length_fraction_le hother) (hother.length_fraction_le h)
  have hsame : placeValue (otherWhole ++ otherFraction) = placeValue (whole ++ fraction) := by
    have hvalue := hother.placeValue_eq
    rwa [hlength, ← h.placeValue_eq, Nat.cast_inj] at hvalue
  obtain ⟨hwhole, hfraction⟩ := placeValue_append_inj hother.digits h.digits hlength hsame
  refine ⟨?_, eq_of_placeValue_eq hother.digits h.digits hlength hfraction⟩
  rw [eq_toDigits hother.run hother.noLeadingZero, hwhole, ← eq_toDigits h.run h.noLeadingZero]

end WrittenOut

/-! ## The two layouts -/

section Layouts

variable {digits : List Char}

/-- Less than one: zeros stand between the point and the digits. -/
theorem writtenOut_zeros (h : IsSignificand digits) (zeros : Nat) :
    WrittenOut (scientific digits (-zeros - 1)) ['0'] (List.replicate zeros '0' ++ digits) where
  run := ⟨List.cons_ne_nil _ _, List.forall_mem_singleton.mpr rfl⟩
  digits := List.forall_mem_append.mpr ⟨fun c hc => List.eq_of_mem_replicate hc ▸ rfl, h.digits⟩
  noLeadingZero := fun _ => rfl
  noTrailingZero := by
    rw [List.getLast?_append_of_ne_nil _ h.nonempty]
    exact h.last
  counts := by
    have hzero : placeValue ['0'] = 0 := rfl
    have hexponent : (-zeros - 1 : ℤ) + 1 - digits.length = -((zeros + digits.length : Nat) : ℤ) := by
      omega
    rw [hzero, Nat.cast_zero, zero_add, ← digitsValue_eq_placeValue, digitsValue_zeros_append,
      digitsValue_eq_placeValue, List.length_append, List.length_replicate, scientific, hexponent,
      zpow_neg, zpow_natCast, div_eq_mul_inv]

/-- A whole number: zeros are appended to the digits. -/
theorem writtenOut_filled (h : IsSignificand digits) (zeros : Nat) :
    WrittenOut (scientific digits (digits.length + zeros - 1))
      (digits ++ List.replicate zeros '0') [] where
  run := ⟨List.append_ne_nil_of_left_ne_nil h.nonempty _,
    List.forall_mem_append.mpr ⟨h.digits, fun c hc => List.eq_of_mem_replicate hc ▸ rfl⟩⟩
  digits := List.forall_mem_nil _
  noLeadingZero := by
    rw [List.head?_append_of_ne_nil _ h.nonempty]
    exact fun hzero => absurd hzero h.first
  noTrailingZero := by decide
  counts := by
    have hnone : placeValue [] = 0 := rfl
    have hexponent : (digits.length + zeros - 1 : ℤ) + 1 - digits.length = zeros := by omega
    rw [hnone, Nat.cast_zero, zero_div, add_zero, ← digitsValue_eq_placeValue,
      digitsValue_append_zeros, digitsValue_eq_placeValue, scientific, hexponent, zpow_natCast]
    push_cast
    rfl

/-- Otherwise the point divides the digits. -/
theorem writtenOut_divided {whole fraction : List Char} (h : IsSignificand (whole ++ fraction))
    (hwhole : whole ≠ []) (hfraction : fraction ≠ []) :
    WrittenOut (scientific (whole ++ fraction) (whole.length - 1)) whole fraction where
  run := ⟨hwhole, (List.forall_mem_append.mp h.digits).1⟩
  digits := (List.forall_mem_append.mp h.digits).2
  noLeadingZero := by
    have hfirst := h.first
    rw [List.head?_append_of_ne_nil _ hwhole] at hfirst
    exact fun hzero => absurd hzero hfirst
  noTrailingZero := by
    have hlast := h.last
    rwa [List.getLast?_append_of_ne_nil _ hfraction] at hlast
  counts := by
    have hplaces : (whole.length - 1 : ℤ) + 1 - (whole ++ fraction).length =
        -(fraction.length : ℤ) := by
      rw [List.length_append]
      omega
    rw [← placeValue_append_div, scientific, hplaces, zpow_neg, zpow_natCast, div_eq_mul_inv]

/-- **Digits in positional layout are written out**, without a point if they are whole. -/
theorem exists_writtenOut (h : IsSignificand digits) (exponent : ℤ) :
    ∃ whole fraction, positional digits exponent = whole ++ pointed fraction ∧
      WrittenOut (scientific digits exponent) whole fraction ∧
        (digits.length ≤ exponent + 1 → fraction = []) := by
  have hplaced := placed_positional h.nonempty exponent
  generalize positional digits exponent = text at hplaced
  cases hplaced with
  | zeros zeros =>
    refine ⟨['0'], List.replicate zeros '0' ++ digits, ?_, writtenOut_zeros h zeros, ?_⟩
    · rw [pointed_of_ne_nil (List.append_ne_nil_of_right_ne_nil _ h.nonempty)]
      rfl
    · have hpos : 0 < digits.length := List.length_pos_iff.mpr h.nonempty
      omega
  | filled zeros =>
    exact ⟨_, [], (List.append_nil _).symm, writtenOut_filled h zeros, fun _ => rfl⟩
  | @divided whole fraction split before after =>
    subst split
    refine ⟨whole, fraction, by rw [pointed_of_ne_nil after],
      writtenOut_divided h before after, fun hfits => ?_⟩
    rw [List.length_append] at hfits
    exact List.eq_nil_of_length_eq_zero (by omega)

/-- A power of ten has an explicit sign. -/
theorem signedPower_eq (power : ℤ) :
    signedPower power =
      (if power < 0 then '-' else '+') :: Nat.toDigits 10 power.natAbs := by
  cases power with
  | ofNat n => rfl
  | negSucc n =>
    rw [if_pos (Int.negSucc_lt_zero n)]
    rfl

end Layouts

section Printed

variable {value : Float} {digits : List Char} {exponent : ℤ}

/-- The text that a number other than zero is printed as is the layout of its digits. -/
theorem toList_render (hnonzero : magnitude value ≠ 0) (hfinite : magnitude value < infinityBits)
    (h : ShortestDigits value digits exponent) :
    (render value).toList = (if isNegative value then ['-'] else []) ++
      if -6 ≤ exponent ∧ exponent < 21 then positional digits exponent
      else exponential digits exponent := by
  obtain ⟨hdigits, hexponent⟩ := h.unique (shortestDigits_shortest hnonzero hfinite)
  have hchoice := isPositional_iff h.toFewestDigits
  rw [hdigits] at hexponent
  rw [render, if_neg (Nat.lt_asymm hfinite), if_neg (Nat.ne_of_lt hfinite), if_neg hnonzero,
    String.toList_ofList, renderMagnitude, hdigits, hexponent]
  simp only [hchoice]

/-- The digits of a whole number have no places behind the point. -/
theorem length_digits_le (hnonzero : magnitude value ≠ 0)
    (hfinite : magnitude value < infinityBits) (h : ShortestDigits value digits exponent) {n : ℕ}
    (hwhole : size value = n) : digits.length ≤ exponent + 1 := by
  obtain ⟨places, hshortest, hbound, hmod⟩ := isShortest_shortest hnonzero hfinite
  rw [size_eq (isNaN_eq_false_iff.mpr hfinite.le), ← Decimal.value_exactDecimal] at hwhole
  have hnonneg :=
    hshortest.exponent_nonneg (Decimal.bits_exactDecimal hfinite) hwhole hbound hmod
  obtain ⟨hdigits, hexponent⟩ := h.unique (shortestDigits_shortest hnonzero hfinite)
  rw [hdigits] at hexponent
  omega

end Printed

theorem size_eq_zero_iff {value : Float} (h : value.isNaN = false) :
    size value = 0 ↔ magnitude value = 0 := by
  have hpower : (2 : ℚ) ^ 1074 ≠ 0 := by positivity
  have hzero : units 0 = 0 := by decide
  rw [size_eq h, div_eq_zero_iff, or_iff_left hpower, Nat.cast_eq_zero, ← hzero]
  exact units_strictMono.injective.eq_iff

/-- **A number is printed in the layout that the exponent of its digits calls for.**  Every
finite number other than zero has just one run of digits and exponent that are the shortest.
The choice between the layouts is made on patterns, and it is the one by the exponent.  From
`-6` up to `20` the number that the digits stand for is written out, in the only way there
is, and without a point if the number is whole; otherwise there are the first digit, the
others after a point unless there are none, and the exponent with its sign. -/
theorem render_by_exponent {value : Float} (hfinite : value.isFinite = true)
    (hnonzero : size value ≠ 0) :
    ∃ first others exponent,
      (∀ digits power, ShortestDigits value digits power ↔
        digits = first :: others ∧ power = exponent) ∧
      (isPositional (magnitude value) = true ↔ -6 ≤ exponent ∧ exponent < 21) ∧
      (-6 ≤ exponent ∧ exponent < 21 → ∃ whole fraction,
        (∀ before after, WrittenOut (scientific (first :: others) exponent) before after ↔
          before = whole ∧ after = fraction) ∧
        ((∃ n : ℕ, size value = n) → fraction = []) ∧
        (render value).toList =
          (if isNegative value then ['-'] else []) ++ (whole ++ pointed fraction)) ∧
      (¬(-6 ≤ exponent ∧ exponent < 21) →
        (render value).toList = (if isNegative value then ['-'] else []) ++
          (first :: pointed others ++ 'e' :: (if exponent < 0 then '-' else '+') ::
            Nat.toDigits 10 exponent.natAbs)) := by
  have hbound : magnitude value < infinityBits := isFinite_iff.mp hfinite
  have hnumber : value.isNaN = false := isNaN_eq_false_iff.mpr hbound.le
  have hmagnitude : magnitude value ≠ 0 := mt (size_eq_zero_iff hnumber).mpr hnonzero
  obtain ⟨digits, exponent, hshortest⟩ : ∃ digits exponent, ShortestDigits value digits exponent :=
    ⟨_, _, shortestDigits_shortest hmagnitude hbound⟩
  have hrender := toList_render hmagnitude hbound hshortest
  obtain ⟨first, others, rfl⟩ :=
    List.exists_cons_of_ne_nil hshortest.reads.significand.nonempty
  refine ⟨first, others, exponent, fun digits power => ⟨hshortest.unique, ?_⟩,
    isPositional_iff hshortest.toFewestDigits, fun hwithin => ?_, fun hbeyond => ?_⟩
  · rintro ⟨rfl, rfl⟩
    exact hshortest
  · obtain ⟨whole, fraction, hlayout, hwritten, hfits⟩ :=
      exists_writtenOut hshortest.reads.significand exponent
    refine ⟨whole, fraction, fun before after => ⟨hwritten.unique, ?_⟩, ?_, ?_⟩
    · rintro ⟨rfl, rfl⟩
      exact hwritten
    · rintro ⟨n, hwhole⟩
      exact hfits (length_digits_le hmagnitude hbound hshortest hwhole)
    · rw [hrender, if_pos hwithin, hlayout]
  · rw [hrender, if_neg hbeyond, exponential_cons, signedPower_eq]
    rfl

/-- A millionth, which is no binary number, is written out, and a number below `10 ^ 23` is
printed as that power of ten. -/
theorem render_by_exponent_powers :
    let millionth : Float := 1e-6
    let great : Float := -1e23
    (millionth.isFinite = true ∧ size millionth ≠ 0 ∧ ShortestDigits millionth ['1'] (-6) ∧
      (render millionth).toList = "0.000001".toList) ∧
    (great.isFinite = true ∧ size great ≠ 0 ∧ ShortestDigits great ['1'] 23 ∧
      (render great).toList = "-1e+23".toList) := by
  intro millionth great
  have hmillionth : ShortestDigits millionth ['1'] (-6) := by
    have hdecimal : shortest (magnitude millionth) = ⟨1, -6⟩ := by decide +kernel
    have hshortest := @shortestDigits_shortest millionth (by decide +kernel) (by decide +kernel)
    rwa [hdecimal] at hshortest
  have hgreat : ShortestDigits great ['1'] 23 := by
    have hdecimal : shortest (magnitude great) = ⟨1, 23⟩ := by decide +kernel
    have hshortest := @shortestDigits_shortest great (by decide +kernel) (by decide +kernel)
    rwa [hdecimal] at hshortest
  have hmillionth_finite : millionth.isFinite = true := by decide +kernel
  have hgreat_finite : great.isFinite = true := by decide +kernel
  have hmillionth_size : size millionth ≠ 0 :=
    mt (size_eq_zero_iff (by decide +kernel)).mp (by decide +kernel)
  have hgreat_size : size great ≠ 0 :=
    mt (size_eq_zero_iff (by decide +kernel)).mp (by decide +kernel)
  refine ⟨⟨hmillionth_finite, hmillionth_size, hmillionth, ?_⟩,
    hgreat_finite, hgreat_size, hgreat, ?_⟩
  · obtain ⟨first, others, exponent, hdigits, -, hwritten, -⟩ :=
      render_by_exponent hmillionth_finite hmillionth_size
    obtain ⟨heq, rfl⟩ := (hdigits _ _).mp hmillionth
    obtain ⟨whole, fraction, hunique, -, hrender⟩ := hwritten (by decide)
    have hlayout : WrittenOut (scientific (first :: others) (-6)) ['0'] "000001".toList := by
      rw [← heq]
      exact writtenOut_zeros isSignificand_one 5
    obtain ⟨rfl, rfl⟩ := (hunique _ _).mp hlayout
    exact hrender
  · obtain ⟨first, others, exponent, hdigits, -, -, hpowered⟩ :=
      render_by_exponent hgreat_finite hgreat_size
    obtain ⟨heq, rfl⟩ := (hdigits _ _).mp hgreat
    obtain ⟨rfl, rfl⟩ := List.cons.inj heq
    exact hpowered (by decide)

end KoreanScript.Number
