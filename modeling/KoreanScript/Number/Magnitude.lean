/-!
# Magnitudes of binary64 numbers

A non-negative binary64 number is handled through its bit pattern, a natural
number below `2 ^ 63`.  Patterns are ordered like the numbers they stand for, and
consecutive patterns are neighbouring numbers, so rounding is done on patterns.
Every finite magnitude is a whole number of units of `2 ^ -1074`, the smallest
positive one.

The main operation is `nearestBits`, which rounds a quotient of natural numbers,
counted in those units, to the nearest pattern.  A quotient half way between two
patterns goes to the even one, and what lies beyond the greatest finite number
goes to infinity.
-/

set_option autoImplicit false

namespace KoreanScript.Number

/-! ## Patterns -/

/-- The leading bit of a significand, `2 ^ 52`; the exponent field lies above it. -/
def hiddenBit : Nat := 0x10000000000000

/-- The sign bit, `2 ^ 63`. -/
def signBit : Nat := 0x8000000000000000

/-- The pattern of infinity, one more than that of the greatest finite magnitude. -/
def infinityBits : Nat := 0x7FF0000000000000

/-- The integer significand of a pattern; numbers below `2 ^ -1022` have no hidden bit. -/
def significand (bits : Nat) : Nat :=
  if bits < hiddenBit then bits else hiddenBit + bits % hiddenBit

/-- By how many binary places, in units, the significand of a pattern is shifted. -/
def scale (bits : Nat) : Nat :=
  bits / hiddenBit - 1

/-- A finite magnitude as a number of units of `2 ^ -1074`. -/
def units (bits : Nat) : Nat :=
  significand bits <<< scale bits

/-! ## Rounding -/

/-- The integer nearest to a quotient; a half goes to the even neighbour. -/
def roundQuotient (numerator denominator : Nat) : Nat :=
  let quotient := numerator / denominator
  let doubled := 2 * (numerator % denominator)
  if doubled < denominator then quotient
  else if denominator < doubled then quotient + 1
  else quotient + quotient % 2

/-- The pattern nearest to a quotient of units.  The quotient is rounded to 53
significant bits, and adding the places that were set aside to the exponent field
gives the pattern, also where rounding carries into the next power of two. -/
def nearestBits (numerator denominator : Nat) : Nat :=
  let shift := (numerator / denominator).log2 - 52
  min infinityBits (roundQuotient numerator (denominator <<< shift) + shift * hiddenBit)

/-! ## Patterns and numbers -/

/-- The number with a given sign and magnitude. -/
def ofMagnitude (negative : Bool) (bits : Nat) : Float :=
  Float.ofBits (UInt64.ofNat (if negative then signBit + bits else bits))

/-- The pattern of a number without its sign. -/
def magnitude (value : Float) : Nat :=
  value.toBits.toNat % signBit

/-- Whether the sign bit of a number is set. -/
def isNegative (value : Float) : Bool :=
  signBit ≤ value.toBits.toNat

end KoreanScript.Number
