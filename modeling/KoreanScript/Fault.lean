/-!
# Faults

A run stops at its first fault: a cause together with the line of the statement
that was being executed.  Causes carry what their message needs and nothing else,
and every message is worded in one place.
-/

set_option autoImplicit false

namespace KoreanScript

/-! ## Causes -/

/-- Why a text is no sequence of tokens. -/
inductive LexError where
  /-- A character that starts no token. -/
  | unexpectedCharacter (character : String)
  /-- A text literal without its closing quote. -/
  | unterminatedText
  deriving DecidableEq

/-- Why a statement cannot be executed. -/
inductive Cause where
  /-- An expression is no sequence of tokens. -/
  | lexical (error : LexError)
  /-- A variable is read before it has a value. -/
  | undefinedVariable (name : String)
  /-- A parenthesis lacks its partner. -/
  | unbalancedParens
  /-- An operator or a comparison gets a value of the wrong type. -/
  | typeMismatch (details : String)
  /-- Operands and operators do not alternate. -/
  | malformedExpression (details : String)
  /-- A loop count is not a number of iterations. -/
  | invalidCount (count : String)
  /-- A condition compares nothing. -/
  | missingComparator
  /-- A line is no statement. -/
  | unrecognizedStatement (statement : String)
  deriving DecidableEq

/-- A cause and the number of the line at fault, counted from one. -/
structure Fault where
  line : Nat
  cause : Cause
  deriving DecidableEq

/-- Puts a cause, if there is one, on a line. -/
def locate {α : Type} (line : Nat) : Except Cause α → Except Fault α
  | .ok result => .ok result
  | .error cause => .error ⟨line, cause⟩

/-! ## Results of computations that can fail -/

section Results

variable {ε α β : Type}

theorem bind_eq_ok_iff {first : Except ε α} {next : α → Except ε β} {result : β} :
    first >>= next = .ok result ↔ ∃ value, first = .ok value ∧ next value = .ok result := by
  cases first with
  | ok value => exact ⟨fun h => ⟨value, rfl, h⟩, fun ⟨_, hvalue, h⟩ => by cases hvalue; exact h⟩
  | error e => exact ⟨nofun, fun ⟨_, hvalue, _⟩ => nomatch hvalue⟩

theorem map_eq_ok_iff {first : Except ε α} {f : α → β} {result : β} :
    f <$> first = .ok result ↔ ∃ value, first = .ok value ∧ f value = result := by
  cases first with
  | ok value =>
    exact ⟨fun h => ⟨value, rfl, Except.ok.inj h⟩,
      fun ⟨_, hvalue, h⟩ => by cases hvalue; exact congrArg _ h⟩
  | error e => exact ⟨nofun, fun ⟨_, hvalue, _⟩ => nomatch hvalue⟩

theorem map_eq_error_iff {first : Except ε α} {f : α → β} {e : ε} :
    f <$> first = .error e ↔ first = .error e := by
  cases first with
  | ok value => exact ⟨nofun, nofun⟩
  | error e' =>
    exact ⟨fun h => congrArg _ (Except.error.inj h), fun h => congrArg _ (Except.error.inj h)⟩

theorem locate_eq_ok_iff {line : Nat} {result : Except Cause α} {value : α} :
    locate line result = .ok value ↔ result = .ok value := by
  cases result <;> simp [locate]

theorem locate_eq_error_iff {line : Nat} {result : Except Cause α} {fault : Fault} :
    locate line result = .error fault ↔ fault.line = line ∧ result = .error fault.cause := by
  cases result with
  | ok value => exact ⟨nofun, nofun⟩
  | error cause =>
    constructor
    · intro h
      cases h
      exact ⟨rfl, rfl⟩
    · rintro ⟨rfl, hcause⟩
      rw [Except.error.inj hcause]
      rfl

end Results

/-! ## Messages -/

/-- What the user is told about a lexical error. -/
def LexError.message : LexError → String
  | .unexpectedCharacter character => "'" ++ character ++ "' 은(는) 사용할 수 없는 문자예요"
  | .unterminatedText => "문자열이 끝나지 않았어요 (\")"

/-- What the user is told about a cause. -/
def Cause.message : Cause → String
  | .lexical error => error.message
  | .undefinedVariable name => "'" ++ name ++ "' 이라는 변수는 아직 없어요"
  | .unbalancedParens => "괄호 '(' 와 ')' 의 짝이 맞지 않아요"
  | .typeMismatch details => details
  | .malformedExpression details => "식이 올바르지 않아요: " ++ details
  | .invalidCount count => "반복 횟수는 숫자여야 해요 ('" ++ count ++ "')"
  | .missingComparator => "조건식에는 비교 연산자가 필요해요"
  | .unrecognizedStatement _ => "이 문장은 이해할 수 없어요"

/-- What the user is told about a fault, without its line. -/
def Fault.message (fault : Fault) : String :=
  fault.cause.message

end KoreanScript
