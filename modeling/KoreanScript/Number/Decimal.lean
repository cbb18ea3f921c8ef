import KoreanScript.Number.Magnitude

/-!
# Decimals and binary64

A decimal is a natural number times a power of ten.  It is read as the nearest
magnitude, and every finite magnitude is in turn a decimal exactly, because a
negative power of two is a multiple of a negative power of ten.
-/

set_option autoImplicit false

namespace KoreanScript.Number

/-- The number `mantissa * 10 ^ exponent`. -/
structure Decimal where
  mantissa : Nat
  exponent : Int
  deriving DecidableEq

/-- The pattern of the magnitude nearest to a decimal.  Decimals of `10 ^ 400` and
more are infinite and those below `10 ^ -400` are zero without any powers being
computed. -/
def Decimal.bits (decimal : Decimal) : Nat :=
  if decimal.mantissa = 0 then 0
  else if 400 < decimal.exponent then infinityBits
  else if decimal.exponent + decimal.mantissa.log2 < -400 then 0
  else
    let scaled := decimal.mantissa <<< 1074
    match decimal.exponent with
    | .ofNat power => nearestBits (scaled * Nat.pow 10 power) 1
    | .negSucc power => nearestBits scaled (Nat.pow 10 (power + 1))

/-- The number nearest to a decimal, with a given sign. -/
def Decimal.toFloat (decimal : Decimal) (negative : Bool) : Float :=
  ofMagnitude negative decimal.bits

/-- The value of a run of decimal digits. -/
def digitsValue (digits : List Char) : Nat :=
  Nat.ofDigitChars 10 digits 0

/-- The number nearest to a run of decimal digits. -/
def ofDigits (digits : List Char) : Float :=
  Decimal.toFloat ⟨digitsValue digits, 0⟩ false

/-- A finite magnitude as a decimal, without any rounding. -/
def exactDecimal (bits : Nat) : Decimal :=
  let places := scale bits
  if 1074 ≤ places then ⟨significand bits <<< (places - 1074), 0⟩
  else ⟨significand bits * Nat.pow 5 (1074 - places), (places : Int) - 1074⟩

/-- A decimal with the same value whose mantissa does not end in a zero. -/
def Decimal.withoutTrailingZeros (decimal : Decimal) : Decimal :=
  if h : decimal.mantissa = 0 ∨ decimal.mantissa % 10 ≠ 0 then decimal
  else Decimal.withoutTrailingZeros ⟨decimal.mantissa / 10, decimal.exponent + 1⟩
termination_by decimal.mantissa
decreasing_by
  have : decimal.mantissa ≠ 0 := fun h0 => h (Or.inl h0)
  exact Nat.div_lt_self (Nat.pos_of_ne_zero this) (by decide)

end KoreanScript.Number
