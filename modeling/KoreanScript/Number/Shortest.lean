import KoreanScript.Number.Decimal

/-!
# The shortest decimal that reads back

Of the decimals that are read as a given magnitude, the one with the fewest
digits is wanted, and of those the one nearest to the magnitude.  With one digit,
then two, and so on, the magnitude lies between two neighbouring decimals of that
many digits; the first pair of which one reads back settles the answer.  When
both read back the nearer one is taken, and of two equally near ones the greater.
The search ends at the latest with all digits of the magnitude, which is then
itself the answer.
-/

set_option autoImplicit false

namespace KoreanScript.Number

/-- The neighbour of `exact` that reads back as `bits`, on the grid of decimals
that lack the last `dropped` digits of `exact`. -/
def neighbour? (exact : Decimal) (bits dropped : Nat) : Option Decimal :=
  let step := Nat.pow 10 dropped
  let below := exact.mantissa / step
  let lower : Decimal := ⟨below, exact.exponent + dropped⟩
  let upper : Decimal := ⟨below + 1, exact.exponent + dropped⟩
  let upperIsNearer := (below + 1) * step - exact.mantissa ≤ exact.mantissa - below * step
  if lower.bits = bits then
    if upper.bits = bits ∧ upperIsNearer then some upper else some lower
  else if upper.bits = bits then some upper
  else none

/-- The first neighbour that reads back, with ever fewer digits dropped. -/
def shortestFrom (exact : Decimal) (bits : Nat) : Nat → Decimal
  | 0 => exact
  | dropped + 1 =>
    match neighbour? exact bits (dropped + 1) with
    | some decimal => decimal
    | none => shortestFrom exact bits dropped

/-- **The shortest decimal that reads back** as a finite magnitude, nearest to it
among the shortest. -/
def shortest (bits : Nat) : Decimal :=
  let exact := exactDecimal bits
  let digits := (Nat.toDigits 10 exact.mantissa).length
  (shortestFrom exact bits (digits - 1)).withoutTrailingZeros

end KoreanScript.Number
