import KoreanScript.Number.Decimal
import KoreanScript.Text.Blank

/-!
# Numbers in input and loop counts

A line of input is a number when, white space at its ends aside, it is an
optional sign, digits with an optional point among or around them, and an
optional exponent: the letter `e` in either case, an optional sign and digits.
There is at least one digit before the exponent.  Words, groups of digits and
anything else are not numbers.  A loop count is a run of digits whose value fits
into 64 bits.
-/

set_option autoImplicit false

namespace KoreanScript.Number

/-! ## Parts of a numeral -/

/-- Splits off a sign; the flag is set for a minus. -/
def splitSign : List Char → Bool × List Char
  | '-' :: rest => (true, rest)
  | '+' :: rest => (false, rest)
  | text => (false, text)

/-- Splits off the digits after a point, if the text starts with one. -/
def splitFraction : List Char → List Char × List Char
  | '.' :: rest => (rest.takeWhile Char.isDigit, rest.dropWhile Char.isDigit)
  | text => ([], text)

/-- Whether a text is a run of at least one decimal digit. -/
def isDigits (text : List Char) : Bool :=
  !text.isEmpty && text.all Char.isDigit

/-- The power of ten that the end of a numeral asks for; none is the zeroth. -/
def exponentPart? : List Char → Option Int
  | [] => some 0
  | c :: rest =>
    let (negative, digits) := splitSign rest
    if (c == 'e' || c == 'E') && isDigits digits then
      some (if negative then -(digitsValue digits : Int) else digitsValue digits)
    else none

/-! ## Numerals -/

/-- The sign and the exact value of a numeral. -/
def readNumeral? (text : List Char) : Option (Bool × Decimal) :=
  let (negative, unsigned) := splitSign text
  let whole := unsigned.takeWhile Char.isDigit
  let (fraction, rest) := splitFraction (unsigned.dropWhile Char.isDigit)
  if whole.isEmpty && fraction.isEmpty then none
  else (exponentPart? rest).map fun exponent =>
    (negative, ⟨digitsValue (whole ++ fraction), exponent - fraction.length⟩)

/-- The number that a line of input holds, if it holds nothing else. -/
def ofInput? (line : List Char) : Option Float :=
  (readNumeral? (Text.trim line)).map fun (negative, decimal) => decimal.toFloat negative

/-! ## Loop counts -/

/-- Loop counts are less than this, `2 ^ 64`. -/
def countLimit : Nat := 0x10000000000000000

theorem countLimit_pos : 0 < countLimit := by
  decide

/-- The loop count that a text is, if it is one. -/
def count? (text : List Char) : Option Nat :=
  if isDigits text && digitsValue text < countLimit then some (digitsValue text) else none

theorem count?_lt {text : List Char} {n : Nat} (h : count? text = some n) : n < countLimit := by
  simp only [count?, Option.ite_none_right_eq_some, Bool.and_eq_true, decide_eq_true_eq,
    Option.some.injEq] at h
  omega

end KoreanScript.Number
