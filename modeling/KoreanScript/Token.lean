import KoreanScript.Number.Decimal
import KoreanScript.Text.Letter
import KoreanScript.Fault

/-!
# Tokens of an expression

The text of an expression falls into lexemes from left to right, each as long as
its class allows: runs of blanks, runs of digits, names, text literals, single
operators and parentheses.  A quote without a partner and a character of no class
are lexemes too, so that the lexemes of any text, put together again, are that
text.  Tokens are what evaluation needs of the lexemes: blanks are dropped, and
the first lexeme that is no token is the error of the whole text.
-/

set_option autoImplicit false

namespace KoreanScript

/-! ## Tokens -/

/-- The four arithmetic operators. -/
inductive Operator where
  | plus
  | minus
  | times
  | divide
  deriving DecidableEq

/-- An operator as it is written. -/
def Operator.symbol : Operator → Char
  | .plus => '+'
  | .minus => '-'
  | .times => '*'
  | .divide => '/'

/-- The words of the expression language.  The last two are never among the tokens
of a text. -/
inductive Token where
  | number (value : Float)
  | text (content : String)
  | name (name : String)
  | operator (op : Operator)
  | leftParen
  | rightParen
  /-- A text literal without its closing quote. -/
  | unclosedText
  /-- Blanks between other tokens. -/
  | blank
  deriving DecidableEq

/-! ## Character classes -/

/-- Blanks between tokens: space, tab, carriage return, line feed and form feed. -/
def isBlank (c : Char) : Bool :=
  c == ' ' || c == '\t' || c == '\r' || c == '\n' || c == '\x0c'

/-- Whether a name may start with a character. -/
def startsName (c : Char) : Bool :=
  Text.isLetter c || c == '_'

/-- Whether a name may go on with a character. -/
def continuesName (c : Char) : Bool :=
  startsName c || c.isDigit

/-! ## Lexemes -/

/-- The stretches that a text falls into. -/
inductive Lexeme where
  | blanks (run : List Char)
  | digits (run : List Char)
  | name (run : List Char)
  | literal (content : List Char)
  | operator (op : Operator)
  | leftParen
  | rightParen
  /-- A quote without a partner and all that follows it. -/
  | unclosed (content : List Char)
  /-- A character that starts no token. -/
  | stray (character : Char)
  deriving DecidableEq

namespace Lexeme

/-- The stretch of text that a lexeme is. -/
def text : Lexeme → List Char
  | .blanks run => run
  | .digits run => run
  | .name run => run
  | .literal content => '"' :: content ++ ['"']
  | .operator op => [op.symbol]
  | .leftParen => ['(']
  | .rightParen => [')']
  | .unclosed content => '"' :: content
  | .stray character => [character]

/-- The lexeme that a character is by itself. -/
def ofChar (c : Char) : Lexeme :=
  match c with
  | '+' => .operator .plus
  | '-' => .operator .minus
  | '*' => .operator .times
  | '/' => .operator .divide
  | '(' => .leftParen
  | ')' => .rightParen
  | _ => .stray c

/-- The text literal that a quote opens, and what follows the literal. -/
def splitLiteral (rest : List Char) : Lexeme × List Char :=
  match rest.dropWhile (· != '"') with
  | [] => (.unclosed rest, [])
  | _ :: after => (.literal (rest.takeWhile (· != '"')), after)

/-- The first lexeme of the text `c :: rest`, and what follows it. -/
def split (c : Char) (rest : List Char) : Lexeme × List Char :=
  if isBlank c then
    (.blanks (c :: rest.takeWhile isBlank), rest.dropWhile isBlank)
  else if c.isDigit then
    (.digits (c :: rest.takeWhile Char.isDigit), rest.dropWhile Char.isDigit)
  else if startsName c then
    (.name (c :: rest.takeWhile continuesName), rest.dropWhile continuesName)
  else if c = '"' then splitLiteral rest
  else (ofChar c, rest)

/-! ## Nothing is lost -/

theorem text_ofChar (c : Char) : (ofChar c).text = [c] := by
  unfold ofChar
  split <;> rfl

theorem text_splitLiteral (rest : List Char) :
    (splitLiteral rest).1.text ++ (splitLiteral rest).2 = '"' :: rest := by
  have hsplit : rest.takeWhile (· != '"') ++ rest.dropWhile (· != '"') = rest :=
    List.takeWhile_append_dropWhile
  unfold splitLiteral
  split
  · simp [text]
  · next quote after heq =>
    have hquote : quote = '"' := by
      have := List.head_dropWhile_not (· != '"') (l := rest) (by simp [heq])
      simpa [heq] using this
    subst hquote
    rw [heq] at hsplit
    simpa [text] using hsplit

/-- A lexeme and what follows it are the text it was split from. -/
theorem text_split (c : Char) (rest : List Char) :
    (split c rest).1.text ++ (split c rest).2 = c :: rest := by
  unfold split
  split
  · simp [text]
  split
  · simp [text]
  split
  · simp [text]
  split
  · next h => rw [h]; exact text_splitLiteral rest
  · simp [text_ofChar]

/-- No lexeme is empty. -/
theorem text_split_ne_nil (c : Char) (rest : List Char) : (split c rest).1.text ≠ [] := by
  unfold split
  split
  · simp [text]
  split
  · simp [text]
  split
  · simp [text]
  split
  · unfold splitLiteral
    split <;> simp [text]
  · simp [text_ofChar]

theorem length_split_lt (c : Char) (rest : List Char) :
    (split c rest).2.length < (c :: rest).length := by
  have hlength := congrArg List.length (text_split c rest)
  have hpos := List.length_pos_iff.mpr (text_split_ne_nil c rest)
  simp only [List.length_append] at hlength
  omega

end Lexeme

/-- The lexemes of a text, from left to right. -/
def lexemes : List Char → List Lexeme
  | [] => []
  | c :: rest => (Lexeme.split c rest).1 :: lexemes (Lexeme.split c rest).2
termination_by text => text.length
decreasing_by exact Lexeme.length_split_lt c rest

/-- **The lexemes of a text, put together, are that text.** -/
theorem flatMap_text_lexemes (text : List Char) : (lexemes text).flatMap Lexeme.text = text := by
  fun_induction lexemes text with
  | case1 => rfl
  | case2 c rest ih => rw [List.flatMap_cons, ih, Lexeme.text_split]

/-! ## From lexemes to tokens -/

/-- The token of a lexeme; blanks have none, and some lexemes are errors. -/
def Lexeme.token? : Lexeme → Except LexError (Option Token)
  | .blanks _ => .ok none
  | .digits run => .ok (some (.number (Number.ofDigits run)))
  | .name run => .ok (some (.name (String.ofList run)))
  | .literal content => .ok (some (.text (String.ofList content)))
  | .operator op => .ok (some (.operator op))
  | .leftParen => .ok (some .leftParen)
  | .rightParen => .ok (some .rightParen)
  | .unclosed _ => .error .unterminatedText
  | .stray character => .error (.unexpectedCharacter (String.ofList [character]))

/-- The tokens of a text, or the error of its first lexeme that is none. -/
def tokenize (text : List Char) : Except LexError (List Token) :=
  (lexemes text).filterMapM Lexeme.token?

/-- Whether a text is a single name, with nothing but blanks around it. -/
def isIdentifier (text : List Char) : Bool :=
  match tokenize text with
  | .ok [.name _] => true
  | _ => false

end KoreanScript
