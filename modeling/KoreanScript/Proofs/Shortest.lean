import KoreanScript.Proofs.Nearest

/-!
# The search for the shortest decimal

Greater decimals are read as greater patterns, so whatever lies between a decimal that
reads back and the exact value reads back as well.  A decimal of at most as many digits as
a grid leaves cannot stand between two neighbours of that grid.  Hence, if some decimal of
that many digits reads back, one of the two neighbours of the exact value does, and none is
nearer than the better one of them.

The search goes from coarse grids to fine ones and stops at the first neighbour that reads
back.  What it finds has as few digits as possible, and it is nearest to the exact value
among all decimals of as many digits; of two that are equally near it is the greater one.
-/

set_option autoImplicit false

namespace KoreanScript.Number

/-! ## Greater values have greater patterns -/

/-- Whoever prefers the upper of two neighbours lies above their middle. -/
theorem middle_le {lower upper exact : ℚ} (h : lower < upper)
    (hnearer : |upper - exact| ≤ |lower - exact|) : lower + upper ≤ 2 * exact := by
  rcases abs_cases (upper - exact) with ⟨hupper, -⟩ | ⟨-, hbeyond⟩
  · rcases abs_cases (lower - exact) with ⟨hlower, -⟩ | ⟨hlower, -⟩ <;> linarith
  · linarith

theorem le_middle {lower upper exact : ℚ} (h : lower < upper)
    (hnearer : |lower - exact| ≤ |upper - exact|) : 2 * exact ≤ lower + upper := by
  rcases abs_cases (lower - exact) with ⟨-, hbeyond⟩ | ⟨hlower, -⟩
  · linarith
  · rcases abs_cases (upper - exact) with ⟨hupper, -⟩ | ⟨hupper, -⟩ <;> linarith

/-- **Rounding keeps the order.** -/
theorem NearestPattern.le_of_le {bits other : Nat} {exact greater : ℚ}
    (h : NearestPattern bits exact) (hother : NearestPattern other greater)
    (hle : exact ≤ greater) : bits ≤ other := by
  by_contra hgt
  rw [not_le] at hgt
  have hunits : (units other : ℚ) < units bits := Nat.cast_lt.mpr (units_strictMono hgt)
  -- Otherwise both values are in the middle of the two numbers, and so they are one value.
  have habove := middle_le hunits (h.nearest other hother.le)
  have hbelow := le_middle hunits (hother.nearest bits h.le)
  obtain rfl : exact = greater := by linarith
  exact hother.not_lt h hgt

namespace Decimal

/-- **Reading keeps the order.** -/
theorem bits_le_bits {first second : Decimal} (h : first.value ≤ second.value) :
    first.bits ≤ second.bits :=
  first.nearestPattern_bits.le_of_le second.nearestPattern_bits
    (mul_le_mul_of_nonneg_right h (by positivity))

/-- What lies between two decimals that are read alike is read as they are. -/
theorem bits_eq_of_between {first between second : Decimal} (hfirst : first.value ≤ between.value)
    (hsecond : between.value ≤ second.value) (h : first.bits = second.bits) :
    between.bits = second.bits :=
  le_antisymm (bits_le_bits hsecond) (h ▸ bits_le_bits hfirst)

/-- The exact decimal of a pattern has the value of the pattern. -/
theorem value_exactDecimal (bits : Nat) : (exactDecimal bits).value = units bits / 2 ^ 1074 := by
  have hdenominator : ((exactDecimal bits).denominator : ℚ) ≠ 0 :=
    Nat.cast_ne_zero.mpr (denominator_pos _).ne'
  have hvalue := numerator_div_denominator (exactDecimal bits)
  rw [numerator_exactDecimal, Nat.cast_mul, mul_div_cancel_right₀ _ hdenominator] at hvalue
  rw [hvalue, mul_div_cancel_right₀ _ (by positivity)]

/-- A value on a grid, counted by the finer one. -/
theorem value_grid (mantissa dropped : Nat) (exponent : Int) :
    value ⟨mantissa, exponent + dropped⟩ = (mantissa * 10 ^ dropped : Nat) * 10 ^ exponent := by
  rw [value, zpow_add₀ (by norm_num), zpow_natCast]
  push_cast
  ring

theorem value_le_value {first second : Nat} (exponent : Int) (h : first ≤ second) :
    value ⟨first, exponent⟩ ≤ value ⟨second, exponent⟩ :=
  mul_le_mul_of_nonneg_right (Nat.cast_le.mpr h) (by positivity)

end Decimal

/-! ## Neighbours on a grid -/

section Grid

variable (exact : Decimal) (dropped : Nat)

/-- The decimal below, on the grid that lacks the last digits of an exact one. -/
def below : Decimal :=
  ⟨exact.mantissa / 10 ^ dropped, exact.exponent + dropped⟩

/-- The next decimal of the grid. -/
def above : Decimal :=
  ⟨exact.mantissa / 10 ^ dropped + 1, exact.exponent + dropped⟩

theorem value_below_le : (below exact dropped).value ≤ exact.value := by
  rw [below, Decimal.value_grid]
  exact Decimal.value_le_value _ (Nat.div_mul_le_self _ _)

theorem value_lt_above : exact.value < (above exact dropped).value := by
  rw [above, Decimal.value_grid, Decimal.value]
  refine mul_lt_mul_of_pos_right (Nat.cast_lt.mpr ?_) (by positivity)
  rw [Nat.mul_comm]
  exact Nat.lt_mul_div_succ _ (Nat.pow_pos (by decide))

/-- The upper neighbour is nearer, or as near. -/
def AboveIsNearer : Prop :=
  (above exact dropped).value - exact.value ≤ exact.value - (below exact dropped).value

theorem aboveIsNearer_iff :
    (exact.mantissa / 10 ^ dropped + 1) * 10 ^ dropped - exact.mantissa ≤
        exact.mantissa - exact.mantissa / 10 ^ dropped * 10 ^ dropped ↔
      AboveIsNearer exact dropped := by
  have hbelow := Nat.div_mul_le_self exact.mantissa (10 ^ dropped)
  have habove : exact.mantissa ≤ (exact.mantissa / 10 ^ dropped + 1) * 10 ^ dropped := by
    rw [Nat.mul_comm]
    exact (Nat.lt_mul_div_succ _ (Nat.pow_pos (by decide))).le
  have hscale : (0 : ℚ) < 10 ^ exact.exponent := by positivity
  rw [AboveIsNearer, above, below, Decimal.value_grid, Decimal.value_grid, Decimal.value,
    ← sub_mul, ← sub_mul, mul_le_mul_iff_of_pos_right hscale, ← Nat.cast_sub hbelow,
    ← Nat.cast_sub habove, Nat.cast_le]

variable {exact dropped} {bits : Nat}

/-- A neighbour that is taken reads back, and the other one is farther or does not. -/
theorem cases_of_neighbour? {decimal : Decimal} (h : neighbour? exact bits dropped = some decimal) :
    (decimal = above exact dropped ∧ (above exact dropped).bits = bits ∧
      ((below exact dropped).bits = bits → AboveIsNearer exact dropped)) ∨
    (decimal = below exact dropped ∧ (below exact dropped).bits = bits ∧
      ((above exact dropped).bits = bits → ¬AboveIsNearer exact dropped)) := by
  simp only [← aboveIsNearer_iff]
  simp only [neighbour?] at h
  split at h
  · next hbelow =>
    split at h
    · next habove => exact .inl ⟨(Option.some.inj h).symm, habove.1, fun _ => habove.2⟩
    · next hnot => exact .inr ⟨(Option.some.inj h).symm, hbelow, not_and.mp hnot⟩
  · next hbelow =>
    split at h
    · next habove =>
      exact .inl ⟨(Option.some.inj h).symm, habove, fun hreads => absurd hreads hbelow⟩
    · cases h

/-- None is taken just if none reads back. -/
theorem not_reads_of_neighbour? (h : neighbour? exact bits dropped = none) :
    (below exact dropped).bits ≠ bits ∧ (above exact dropped).bits ≠ bits := by
  simp only [neighbour?] at h
  split at h
  · split at h <;> cases h
  · next hbelow =>
    split at h
    · cases h
    · next habove => exact ⟨hbelow, habove⟩

end Grid

/-! ## Decimals with no more digits than the grid -/

/-- A decimal with no more digits than the exact one keeps on a grid is not between the two
neighbours. -/
theorem value_le_below_or {exact other : Decimal} {dropped places : Nat}
    (hexact : 10 ^ (places + dropped) ≤ exact.mantissa) (hother : other.mantissa < 10 ^ (places + 1)) :
    other.value ≤ (below exact dropped).value ∨ (above exact dropped).value ≤ other.value := by
  by_contra hbetween
  obtain ⟨hbelow, habove⟩ := not_or.mp hbetween
  rw [not_le] at hbelow habove
  have hkept : 10 ^ places ≤ exact.mantissa / 10 ^ dropped := by
    rw [Nat.le_div_iff_mul_le (Nat.pow_pos (by decide)), ← Nat.pow_add]
    exact hexact
  -- It is a multiple of the step of the grid, because it is greater than so many steps.
  have hcoarse : exact.exponent + dropped ≤ other.exponent := by
    by_contra hfine
    have hpower : (10 : ℚ) ^ (other.exponent + 1) ≤ 10 ^ (exact.exponent + dropped) :=
      zpow_le_zpow_right₀ (by norm_num) (by omega)
    have hsmall : other.value ≤ (below exact dropped).value := calc
      other.value ≤ (10 ^ (places + 1) : Nat) * 10 ^ other.exponent :=
        Decimal.value_le_value _ hother.le
      _ = (10 ^ places : Nat) * 10 ^ (other.exponent + 1) := by
        rw [zpow_add_one₀ (by norm_num)]
        push_cast
        ring
      _ ≤ (exact.mantissa / 10 ^ dropped : Nat) * 10 ^ (exact.exponent + dropped) :=
        mul_le_mul (Nat.cast_le.mpr hkept) hpower (by positivity) (by positivity)
    exact absurd hbelow (not_lt.mpr hsmall)
  obtain ⟨zeros, hzeros⟩ := Int.le.dest hcoarse
  have hvalue : other.value =
      (other.mantissa * 10 ^ zeros : Nat) * 10 ^ (exact.exponent + dropped) := by
    rw [← Decimal.value_grid, hzeros]
  have hscale : (0 : ℚ) < 10 ^ (exact.exponent + dropped) := by positivity
  rw [hvalue, below, Decimal.value, mul_lt_mul_iff_of_pos_right hscale, Nat.cast_lt] at hbelow
  rw [hvalue, above, Decimal.value, mul_lt_mul_iff_of_pos_right hscale, Nat.cast_lt] at habove
  exact absurd habove (Nat.not_lt.mpr hbelow)

/-! ## The better neighbour -/

/-- A decimal that reads back, while no other one with a mantissa below `bound` that does is
nearer to the exact one, or as near and greater. -/
structure Best (exact : Decimal) (bits bound : Nat) (decimal : Decimal) : Prop where
  reads : decimal.bits = bits
  nearest : ∀ other : Decimal, other.bits = bits → other.mantissa < bound →
    |decimal.value - exact.value| ≤ |other.value - exact.value|
  greatest : ∀ other : Decimal, other.bits = bits → other.mantissa < bound →
    |other.value - exact.value| = |decimal.value - exact.value| → other.value ≤ decimal.value

section Neighbours

variable {exact : Decimal} {bits dropped places : Nat} (hexact : exact.bits = bits)
  (hplaces : 10 ^ (places + dropped) ≤ exact.mantissa)
include hexact hplaces

/-- **If a decimal of so many digits reads back, a neighbour does**, on the same side. -/
theorem neighbour_of_reads {other : Decimal} (hreads : other.bits = bits)
    (hother : other.mantissa < 10 ^ (places + 1)) :
    (other.value ≤ (below exact dropped).value ∧ (below exact dropped).bits = bits) ∨
      (above exact dropped).value ≤ other.value ∧ (above exact dropped).bits = bits := by
  have halike : other.bits = exact.bits := hreads.trans hexact.symm
  rcases value_le_below_or hplaces hother with hle | hle
  · have hbetween := Decimal.bits_eq_of_between hle (value_below_le exact dropped) halike
    exact .inl ⟨hle, hbetween.trans hexact⟩
  · have hbetween :=
      Decimal.bits_eq_of_between (value_lt_above exact dropped).le hle halike.symm
    exact .inr ⟨hle, hbetween.trans hreads⟩

/-- The upper neighbour, if it reads back and the lower one is farther or does not. -/
theorem best_above (hreads : (above exact dropped).bits = bits)
    (hnearer : (below exact dropped).bits = bits → AboveIsNearer exact dropped) :
    Best exact bits (10 ^ (places + 1)) (above exact dropped) := by
  have hlower := value_below_le exact dropped
  have hupper := value_lt_above exact dropped
  have hdistance : |(above exact dropped).value - exact.value| =
      (above exact dropped).value - exact.value := abs_of_pos (sub_pos.mpr hupper)
  refine ⟨hreads, fun other hother hbound => ?_, fun other hother hbound htie => ?_⟩
  · rw [hdistance]
    rcases neighbour_of_reads hexact hplaces hother hbound with ⟨hle, hbelow⟩ | ⟨hle, -⟩
    · have hnear : _ ≤ _ := hnearer hbelow
      rw [abs_of_nonpos (by linarith)]
      linarith
    · rw [abs_of_pos (by linarith)]
      linarith
  · rw [hdistance] at htie
    rcases neighbour_of_reads hexact hplaces hother hbound with ⟨hle, -⟩ | ⟨hle, -⟩
    · linarith
    · rw [abs_of_pos (by linarith)] at htie
      linarith

/-- The lower neighbour, if it reads back and the upper one is farther or does not. -/
theorem best_below (hreads : (below exact dropped).bits = bits)
    (hnearer : (above exact dropped).bits = bits → ¬AboveIsNearer exact dropped) :
    Best exact bits (10 ^ (places + 1)) (below exact dropped) := by
  have hlower := value_below_le exact dropped
  have hdistance : |(below exact dropped).value - exact.value| =
      exact.value - (below exact dropped).value := by
    rw [abs_of_nonpos (sub_nonpos.mpr hlower), neg_sub]
  refine ⟨hreads, fun other hother hbound => ?_, fun other hother hbound htie => ?_⟩
  · rw [hdistance]
    rcases neighbour_of_reads hexact hplaces hother hbound with ⟨hle, -⟩ | ⟨hle, habove⟩
    · rw [abs_of_nonpos (by linarith)]
      linarith
    · have hfar : _ < _ := not_le.mp (hnearer habove)
      rw [abs_of_pos (by linarith)]
      linarith
  · rw [hdistance] at htie
    rcases neighbour_of_reads hexact hplaces hother hbound with ⟨hle, -⟩ | ⟨hle, habove⟩
    · exact hle
    · have hfar : _ < _ := not_le.mp (hnearer habove)
      rw [abs_of_pos (by linarith)] at htie
      linarith

/-- **A neighbour that is taken is the best decimal of so many digits.** -/
theorem best_of_neighbour? {decimal : Decimal}
    (h : neighbour? exact bits dropped = some decimal) :
    Best exact bits (10 ^ (places + 1)) decimal := by
  rcases cases_of_neighbour? h with ⟨rfl, hreads, hnearer⟩ | ⟨rfl, hreads, hnearer⟩
  · exact best_above hexact hplaces hreads hnearer
  · exact best_below hexact hplaces hreads hnearer

/-- **If no neighbour is taken, no decimal of so many digits reads back.** -/
theorem le_mantissa_of_neighbour? (h : neighbour? exact bits dropped = none)
    {other : Decimal} (hreads : other.bits = bits) : 10 ^ (places + 1) ≤ other.mantissa := by
  obtain ⟨hbelow, habove⟩ := not_reads_of_neighbour? h
  by_contra hbound
  rcases neighbour_of_reads hexact hplaces hreads (Nat.lt_of_not_le hbound) with
    ⟨-, hneighbour⟩ | ⟨-, hneighbour⟩
  · exact hbelow hneighbour
  · exact habove hneighbour

end Neighbours

/-- A neighbour has no more digits than the grid leaves, or is the next power of ten. -/
theorem mantissa_le_of_neighbour? {exact decimal : Decimal} {bits dropped places : Nat}
    (hexact : exact.mantissa < 10 ^ (places + 1 + dropped))
    (h : neighbour? exact bits dropped = some decimal) : decimal.mantissa ≤ 10 ^ (places + 1) := by
  have hkept : exact.mantissa / 10 ^ dropped < 10 ^ (places + 1) := by
    rw [Nat.div_lt_iff_lt_mul (Nat.pow_pos (by decide)), ← Nat.pow_add]
    exact hexact
  rcases cases_of_neighbour? h with ⟨rfl, -⟩ | ⟨rfl, -⟩
  · exact hkept
  · exact hkept.le

/-! ## The search -/

/-- A shortest decimal: no decimal that reads back has fewer digits than `places + 1`, and
it is the best among those of so many digits. -/
structure IsShortest (exact : Decimal) (bits places : Nat) (decimal : Decimal) : Prop where
  best : Best exact bits (10 ^ (places + 1)) decimal
  fewest : ∀ other : Decimal, other.bits = bits → 10 ^ places ≤ other.mantissa

/-- **The search finds a shortest decimal**, if there is none with fewer digits than the grid
leaves on which it starts.  It may be found as the next power of ten. -/
theorem isShortest_shortestFrom {exact : Decimal} {bits dropped places : Nat}
    (hexact : exact.bits = bits) (hlower : 10 ^ (places + dropped) ≤ exact.mantissa)
    (hupper : exact.mantissa < 10 ^ (places + 1 + dropped))
    (hfewest : ∀ other : Decimal, other.bits = bits → 10 ^ places ≤ other.mantissa) :
    ∃ count, IsShortest exact bits count (shortestFrom exact bits dropped) ∧
      (shortestFrom exact bits dropped).mantissa ≤ 10 ^ (count + 1) := by
  induction dropped generalizing places with
  | zero =>
    refine ⟨places, ⟨⟨hexact, fun other _ _ => ?_, fun other _ _ htie => ?_⟩, hfewest⟩, hupper.le⟩
    · rw [shortestFrom, sub_self, abs_zero]
      exact abs_nonneg _
    · rw [shortestFrom, sub_self, abs_zero, abs_eq_zero, sub_eq_zero] at htie
      exact htie.le
  | succ dropped ih =>
    rw [shortestFrom]
    split
    · next decimal hneighbour =>
      exact ⟨places, ⟨best_of_neighbour? hexact hlower hneighbour, hfewest⟩,
        mantissa_le_of_neighbour? hupper hneighbour⟩
    · next hnone =>
      have hfiner : 10 ^ (places + 1 + dropped) ≤ exact.mantissa := by
        rwa [Nat.add_assoc, Nat.add_comm 1]
      refine ih hfiner ?_ fun other => le_mantissa_of_neighbour? hexact hlower hnone
      rwa [Nat.add_assoc _ 1, Nat.add_comm 1]

/-! ## Zeros at the end -/

namespace Decimal

theorem value_withoutTrailingZeros (decimal : Decimal) :
    decimal.withoutTrailingZeros.value = decimal.value := by
  fun_induction withoutTrailingZeros decimal with
  | case1 decimal h => rfl
  | case2 decimal h ih =>
    have hmod : decimal.mantissa % 10 = 0 := by omega
    have hgrid := value_grid (decimal.mantissa / 10) 1 decimal.exponent
    rw [Nat.pow_one, Nat.div_mul_cancel (Nat.dvd_of_mod_eq_zero hmod)] at hgrid
    exact ih.trans hgrid

theorem mantissa_withoutTrailingZeros_le (decimal : Decimal) :
    decimal.withoutTrailingZeros.mantissa ≤ decimal.mantissa := by
  fun_induction withoutTrailingZeros decimal with
  | case1 decimal h => exact Nat.le_refl _
  | case2 decimal h ih => exact ih.trans (Nat.div_le_self _ _)

theorem mantissa_withoutTrailingZeros_mod {decimal : Decimal} (h : decimal.mantissa ≠ 0) :
    decimal.withoutTrailingZeros.mantissa % 10 ≠ 0 := by
  fun_induction withoutTrailingZeros decimal with
  | case1 decimal hend => exact hend.resolve_left h
  | case2 decimal hend ih => exact ih (by simp only; omega)

end Decimal

/-- A shortest decimal is one without the zeros at its end, too. -/
theorem IsShortest.withoutTrailingZeros {exact decimal : Decimal} {bits places : Nat}
    (h : IsShortest exact bits places decimal) :
    IsShortest exact bits places decimal.withoutTrailingZeros where
  best := by
    obtain ⟨hreads, hnearest, hgreatest⟩ := h.best
    refine ⟨?_, ?_, ?_⟩
    · rwa [Decimal.bits_withoutTrailingZeros]
    · rwa [Decimal.value_withoutTrailingZeros]
    · rwa [Decimal.value_withoutTrailingZeros]
  fewest := h.fewest

/-- **The shortest decimal of a whole number is whole.**  With a fraction it would have more
digits than the number itself, or than the power of ten between them. -/
theorem IsShortest.exponent_nonneg {exact decimal : Decimal} {bits places n : Nat}
    (h : IsShortest exact bits places decimal) (hexact : exact.bits = bits)
    (hwhole : exact.value = n) (hbound : decimal.mantissa < 10 ^ (places + 1))
    (hmod : decimal.mantissa % 10 ≠ 0) : 0 ≤ decimal.exponent := by
  by_contra hfraction
  have hvalue (m k : Nat) : Decimal.value ⟨m, k⟩ = (m * 10 ^ k : Nat) := by
    rw [Decimal.value, zpow_natCast]
    push_cast
    rfl
  rcases Nat.lt_or_ge n (10 ^ (places + 1)) with hshort | hlong
  · have hsame : Decimal.value ⟨n, (0 : Nat)⟩ = exact.value := by
      rw [hvalue, hwhole, Nat.pow_zero, Nat.mul_one]
    have hreads : Decimal.bits ⟨n, (0 : Nat)⟩ = bits :=
      (Decimal.bits_eq_of_between hsame.ge hsame.le rfl).trans hexact
    have hnearest := h.best.nearest _ hreads hshort
    rw [hsame, sub_self, abs_zero, abs_nonpos_iff, sub_eq_zero, ← hsame] at hnearest
    obtain ⟨zeros, hzeros⟩ : ∃ zeros : Nat, decimal.exponent + (zeros + 1 : Nat) = (0 : Nat) :=
      ⟨(-decimal.exponent - 1).toNat, by omega⟩
    have hscale : (10 : ℚ) ^ decimal.exponent ≠ 0 := by positivity
    rw [← hzeros, Decimal.value_grid, Decimal.value, mul_left_inj' hscale, Nat.cast_inj,
      Nat.pow_succ, ← Nat.mul_assoc] at hnearest
    rw [hnearest, Nat.mul_mod_left] at hmod
    exact hmod rfl
  · have hbetween : Decimal.value ⟨1, (places + 1 : Nat)⟩ ≤ exact.value := by
      rw [hvalue, hwhole, Nat.one_mul]
      exact Nat.cast_le.mpr hlong
    have hbelow : decimal.value < Decimal.value ⟨1, (places + 1 : Nat)⟩ := by
      rw [hvalue, Nat.one_mul, Decimal.value]
      have hpower : (10 : ℚ) ^ decimal.exponent ≤ 1 :=
        zpow_le_one_of_nonpos₀ (by norm_num) (not_le.mp hfraction).le
      exact (mul_le_of_le_one_right (Nat.cast_nonneg _) hpower).trans_lt (Nat.cast_lt.mpr hbound)
    have hreads := Decimal.bits_eq_of_between hbelow.le hbetween (h.best.reads.trans hexact.symm)
    have hnearest := h.best.nearest _ (hreads.trans hexact)
      (Nat.one_lt_pow (Nat.succ_ne_zero places) (by decide))
    rw [abs_of_neg (by linarith), abs_of_nonpos (by linarith)] at hnearest
    linarith

/-- The digits of a positive number tell between which powers of ten it is. -/
theorem length_toDigits_eq_iff {n places : Nat} (h : 0 < n) :
    (Nat.toDigits 10 n).length = places + 1 ↔ 10 ^ places ≤ n ∧ n < 10 ^ (places + 1) := by
  have hupper := @Nat.length_toDigits_le_iff 10 n (places + 1) (by decide) (Nat.succ_pos places)
  have hlower : 10 ^ places ≤ n ↔ places < (Nat.toDigits 10 n).length := by
    rcases Nat.eq_zero_or_pos places with rfl | hpos
    · exact iff_of_true h Nat.length_toDigits_pos
    · rw [← Nat.not_lt, ← Nat.length_toDigits_le_iff (by decide) hpos, Nat.not_le]
  rw [hlower, ← hupper]
  omega

/-- **The shortest decimal of a magnitude** has as few digits as any that reads back and does
not end in a zero; it is nearest to the magnitude among those of as many digits, and of two
that are equally near it is the greater one. -/
theorem isShortest_shortest {bits : Nat} (hnonzero : bits ≠ 0) (hfinite : bits < infinityBits) :
    ∃ places, IsShortest (exactDecimal bits) bits places (shortest bits) ∧
      (shortest bits).mantissa < 10 ^ (places + 1) ∧ (shortest bits).mantissa % 10 ≠ 0 := by
  have hexact := Decimal.bits_exactDecimal hfinite
  have hpositive (other : Decimal) (hother : other.bits = bits) : 0 < other.mantissa := by
    rw [Nat.pos_iff_ne_zero]
    intro hzero
    rw [Decimal.bits, if_pos hzero] at hother
    exact hnonzero hother.symm
  obtain ⟨dropped, hdropped⟩ : ∃ dropped,
      (Nat.toDigits 10 (exactDecimal bits).mantissa).length = dropped + 1 :=
    Nat.exists_eq_add_one.mpr Nat.length_toDigits_pos
  obtain ⟨hlower, hupper⟩ := (length_toDigits_eq_iff (hpositive _ hexact)).mp hdropped
  rw [← Nat.zero_add dropped] at hlower
  rw [Nat.add_comm, ← Nat.zero_add 1] at hupper
  obtain ⟨places, hshortest, hmantissa⟩ :=
    isShortest_shortestFrom hexact hlower hupper hpositive
  have hfound : shortest bits =
      (shortestFrom (exactDecimal bits) bits dropped).withoutTrailingZeros := by
    rw [shortest]
    simp only [hdropped, Nat.add_sub_cancel]
  have hmod : (shortest bits).mantissa % 10 ≠ 0 := by
    rw [hfound]
    exact Decimal.mantissa_withoutTrailingZeros_mod (hpositive _ hshortest.best.reads).ne'
  have hle : (shortest bits).mantissa ≤ 10 ^ (places + 1) := by
    rw [hfound]
    exact (Decimal.mantissa_withoutTrailingZeros_le _).trans hmantissa
  refine ⟨places, hfound ▸ hshortest.withoutTrailingZeros, ?_, hmod⟩
  -- A power of ten would have lost all its zeros.
  refine lt_of_le_of_ne hle fun hpower => hmod ?_
  rw [hpower, Nat.pow_succ, Nat.mul_mod_left]

end KoreanScript.Number
