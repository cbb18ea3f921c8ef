import KoreanScript.Text.Blank
import KoreanScript.Token

/-!
# Statements

Every line of a program is one statement, told by its code alone.  The forms are
tried in a fixed order: nothing, printing, input, the two block headers, and
assignment last, because an input line contains an equals sign too.  A line of
no form is kept with its code and fails when it is executed.
-/

set_option autoImplicit false

namespace KoreanScript

/-- What a line of a program asks for. -/
inductive Statement where
  /-- A blank line or a mere comment. -/
  | empty
  /-- Prints the value of an expression. -/
  | print (expression : List Char)
  /-- Asks for a line of input, with a prompt that may be empty. -/
  | input (name prompt : String)
  /-- Opens a block that is executed if a condition holds. -/
  | conditional (condition : List Char)
  /-- Opens a block that is executed as often as a count says. -/
  | loop (count : List Char)
  /-- Gives a variable the value of an expression. -/
  | assignment (name : String) (expression : List Char)
  /-- A line of no form. -/
  | unrecognized (code : List Char)
  deriving DecidableEq

/-! ## Keywords -/

/-- How a printing line starts. -/
def printKeyword : List Char := ['출', '력', '(']

/-- What an input line contains. -/
def inputMarker : List Char := ['=', ' ', '입', '력']

/-- How the header of a conditional starts. -/
def ifKeyword : List Char := ['만', '약', ' ']

/-- How the line between the two blocks of a conditional starts. -/
def elseKeyword : List Char := ['아', '니', '면']

/-- How the header of a loop starts. -/
def repeatKeyword : List Char := ['반', '복', ' ']

/-! ## Parts of a line -/

/-- Whether a text contains a pattern. -/
def occursIn (pattern : List Char) : List Char → Bool
  | [] => pattern.isEmpty
  | c :: rest => pattern.isPrefixOf (c :: rest) || occursIn pattern rest

/-- What follows a keyword at the start of a text. -/
def afterKeyword? (keyword text : List Char) : Option (List Char) :=
  if keyword.isPrefixOf text then some (text.drop keyword.length) else none

/-- The texts before and after the first equals sign. -/
def splitAtEquals? (text : List Char) : Option (List Char × List Char) :=
  match text.dropWhile (· != '=') with
  | [] => none
  | _ :: after => some (text.takeWhile (· != '='), after)

/-- The target of an assignment or an input: a text that is a name when trimmed. -/
def targetName? (text : List Char) : Option String :=
  let name := Text.trim text
  if isIdentifier name then some (String.ofList name) else none

/-- What stands between the first opening and the last closing parenthesis after it,
and nothing if there is no such pair. -/
def betweenParens (text : List Char) : List Char :=
  let inner := (text.dropWhile (· != '(')).drop 1
  ((inner.reverse.dropWhile (· != ')')).drop 1).reverse

/-! ## The forms in their order -/

/-- The statement of a line that contains the input marker. -/
def Statement.ofInputCode (code : List Char) : Statement :=
  match splitAtEquals? code with
  | none => .unrecognized code
  | some (target, request) =>
    match targetName? target with
    | none => .unrecognized code
    | some name => .input name (String.ofList ((betweenParens request).filter (· != '"')))

/-- The statement of a line that is an assignment or nothing at all. -/
def Statement.ofOtherCode (code : List Char) : Statement :=
  match splitAtEquals? code with
  | none => .unrecognized code
  | some (target, expression) =>
    match targetName? target with
    | none => .unrecognized code
    | some name => .assignment name (Text.trim expression)

/-- The statement of a line's code, that is of a line without comment and trimmed. -/
def Statement.ofCode (code : List Char) : Statement :=
  if code.isEmpty then .empty
  else if printKeyword.isPrefixOf code && code.getLast? == some ')' then
    .print (code.drop printKeyword.length).dropLast
  else if occursIn inputMarker code then .ofInputCode code
  else
    match afterKeyword? ifKeyword code with
    | some rest => .conditional (Text.trim (rest.erase '{'))
    | none =>
      match afterKeyword? repeatKeyword code with
      | some rest => .loop (Text.trim (rest.takeWhile (· != '{')))
      | none => .ofOtherCode code

/-- **The statement of a line.** -/
def Statement.ofLine (line : List Char) : Statement :=
  .ofCode (Text.stripComment line)

/-- Whether a line goes on with the second block of a conditional. -/
def startsElse (line : List Char) : Bool :=
  elseKeyword.isPrefixOf (Text.trimStart line)

end KoreanScript
