import KoreanScript.Number.Shortest

/-!
# How numbers are written

A finite number is written with the shortest digits that read back.  Magnitudes
from `10 ^ -6` up to `10 ^ 21` are written positionally, whole numbers without a
point; all others are written as one digit, the further digits after a point if
there are any, and a signed power of ten.  Negative zero is written as zero, and
the three special values have names.
-/

set_option autoImplicit false

namespace KoreanScript.Number

/-! ## Layouts of digits -/

/-- Digits with the point placed so that the first one counts `10 ^ exponent`. -/
def positional (digits : List Char) : Int → List Char
  | .negSucc zeros => '0' :: '.' :: List.replicate zeros '0' ++ digits
  | .ofNat exponent =>
    let places := exponent + 1
    if digits.length ≤ places then digits ++ List.replicate (places - digits.length) '0'
    else digits.take places ++ '.' :: digits.drop places

/-- A power of ten with an explicit sign. -/
def signedPower : Int → List Char
  | .negSucc n => '-' :: Nat.toDigits 10 (n + 1)
  | .ofNat n => '+' :: Nat.toDigits 10 n

/-- One digit, the others after a point, and the power of ten of the first. -/
def exponential (digits : List Char) (exponent : Int) : List Char :=
  let others := match digits.drop 1 with
    | [] => []
    | fraction => '.' :: fraction
  digits.take 1 ++ others ++ 'e' :: signedPower exponent

/-! ## Numbers -/

/-- The magnitudes written positionally: from the number nearest to a millionth up
to, but without, the number nearest to `10 ^ 21`. -/
def isPositional (bits : Nat) : Bool :=
  Decimal.bits ⟨1, -6⟩ ≤ bits && bits < Decimal.bits ⟨1, 21⟩

/-- A finite magnitude other than zero, written in the layout its size calls for. -/
def renderMagnitude (bits : Nat) : List Char :=
  let decimal := shortest bits
  let digits := Nat.toDigits 10 decimal.mantissa
  let exponent := decimal.exponent + digits.length - 1
  if isPositional bits then positional digits exponent else exponential digits exponent

/-- A number as programs print it. -/
def render (value : Float) : String :=
  let bits := magnitude value
  if infinityBits < bits then "NaN"
  else if bits = infinityBits then (if isNegative value then "-Infinity" else "Infinity")
  else if bits = 0 then "0"
  else String.ofList ((if isNegative value then ['-'] else []) ++ renderMagnitude bits)

end KoreanScript.Number
