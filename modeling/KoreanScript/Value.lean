import KoreanScript.Fault
import KoreanScript.Number.Numeral
import KoreanScript.Number.Rendering

/-!
# Values

A value is a binary64 number or a text.  Values have no declared types: a
variable may hold a number now and a text later.  A number is printed in its
shortest form and a text as it is; a line of input is a number when it is a
numeral and a text otherwise.
-/

set_option autoImplicit false

namespace KoreanScript

/-- What variables hold and expressions yield. -/
inductive Value where
  | number (value : Float)
  | text (content : String)
  deriving DecidableEq

/-- An operator on numbers has a text on one of its sides. -/
def Cause.needsNumbers (operator : String) : Cause :=
  .typeMismatch ("연산자 '" ++ operator ++ "' 앞뒤에는 숫자가 있어야 해요")

namespace Value

/-- A value as programs print it. -/
def render : Value → String
  | .number value => Number.render value
  | .text content => content

/-- The name of a value's type in messages. -/
def typeName : Value → String
  | .number _ => "숫자"
  | .text _ => "문자열"

/-- The number that an operator needs here. -/
def asNumber (operator : String) : Value → Except Cause Float
  | .number value => .ok value
  | .text _ => .error (.needsNumbers operator)

/-- The value of one line of input; a line that is no numeral is kept as it is. -/
def ofInput (line : String) : Value :=
  match Number.ofInput? line.toList with
  | some value => .number value
  | none => .text line

end Value

end KoreanScript
