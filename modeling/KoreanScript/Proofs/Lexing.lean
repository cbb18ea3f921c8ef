import Mathlib.Data.List.TakeWhile
import KoreanScript.Proofs.Grammar
import KoreanScript.Proofs.Scanning

/-!
# The language of the lexer

A text has tokens just if its quotes can be paired and every character outside the
quoted stretches is a blank, belongs to a name or a number, or is an operator or a
parenthesis.  Otherwise the first character that is none of these is reported, and a
quote without a partner only if there is no such character.

The tokens of a text are read off its layout: the text is the words of the tokens in
order, with nothing but blanks between them, and no word could be longer.  A text
has at most one such layout, and the lexer finds it.
-/

set_option autoImplicit false

namespace KoreanScript

/-! ## Characters -/

/-- Whether a character can stand outside quotes. -/
def isLexical (c : Char) : Bool :=
  isBlank c || continuesName c || c == '+' || c == '-' || c == '*' || c == '/' || c == '(' ||
    c == ')'

theorem isBlank_of_isDigit {c : Char} (h : c.isDigit = true) : isBlank c = false := by
  simp only [isBlank, Bool.or_eq_false_iff, beq_eq_false_iff_ne]
  refine ⟨⟨⟨⟨?_, ?_⟩, ?_⟩, ?_⟩, ?_⟩ <;> rintro rfl <;> cases h

theorem isBlank_of_startsName {c : Char} (h : startsName c = true) : isBlank c = false := by
  simp only [isBlank, Bool.or_eq_false_iff, beq_eq_false_iff_ne]
  refine ⟨⟨⟨⟨?_, ?_⟩, ?_⟩, ?_⟩, ?_⟩ <;> rintro rfl <;> revert h <;> decide

/-- Digits come before the letters in ASCII. -/
theorem isAlpha_of_isDigit {c : Char} (h : c.isDigit = true) : c.isAlpha = false := by
  have hdigit : c.toNat ≤ 57 := (Char.isDigit_iff_toNat.mp h).2
  have hupper : c.isUpper = false := by
    refine decide_eq_false fun hletter => ?_
    have hbound : 65 ≤ c.toNat := UInt32.le_iff_toNat_le.mp hletter.1
    omega
  have hlower : c.isLower = false := by
    refine Bool.and_eq_false_iff.mpr (.inl (decide_eq_false fun hletter => ?_))
    have hbound : 97 ≤ c.toNat := UInt32.le_iff_toNat_le.mp hletter
    omega
  exact Bool.or_eq_false_iff.mpr ⟨hupper, hlower⟩

/-- No name starts with a digit. -/
theorem isDigit_of_startsName {c : Char} (h : startsName c = true) : c.isDigit = false := by
  by_contra hdigit
  rw [Bool.not_eq_false] at hdigit
  have hupper : c.toNat ≤ 57 := (Char.isDigit_iff_toNat.mp hdigit).2
  have hletter : Text.isLetter c = false := by
    rw [Text.isLetter_of_lt (by omega), isAlpha_of_isDigit hdigit]
  rw [startsName, hletter, Bool.false_or, beq_iff_eq] at h
  subst h
  cases hdigit

theorem isLexical_of_isBlank {c : Char} (h : isBlank c = true) : isLexical c = true := by
  simp [isLexical, h]

theorem isLexical_of_continuesName {c : Char} (h : continuesName c = true) :
    isLexical c = true := by
  simp [isLexical, h]

theorem continuesName_of_isDigit {c : Char} (h : c.isDigit = true) : continuesName c = true := by
  simp [continuesName, h]

theorem continuesName_of_startsName {c : Char} (h : startsName c = true) :
    continuesName c = true := by
  simp [continuesName, h]

/-- A quote stands only where it opens or closes a quoted stretch. -/
theorem isLexical_quote : isLexical '"' = false := by
  decide

theorem ne_quote_of_isLexical {c : Char} (h : isLexical c = true) : c ≠ '"' := by
  rintro rfl
  cases isLexical_quote.symm.trans h

/-! ## Words -/

/-- How a token can be written. -/
inductive Token.WrittenAs : Token → List Char → Prop where
  | number {run : List Char} (nonempty : run ≠ []) (digits : ∀ c ∈ run, c.isDigit = true) :
      WrittenAs (.number (Number.ofDigits run)) run
  | name {first : Char} {run : List Char} (starts : startsName first = true)
      (continues : ∀ c ∈ run, continuesName c = true) :
      WrittenAs (.name (String.ofList (first :: run))) (first :: run)
  | text {content : List Char} (noQuote : '"' ∉ content) :
      WrittenAs (.text (String.ofList content)) ('"' :: content ++ ['"'])
  | operator (op : Operator) : WrittenAs (.operator op) [op.symbol]
  | leftParen : WrittenAs .leftParen ['(']
  | rightParen : WrittenAs .rightParen [')']

/-- Whether a token would go on with a character that follows its word. -/
def Token.goesOnWith : Token → Char → Bool
  | .number _, c => c.isDigit
  | .name _, c => continuesName c
  | _, _ => false

/-- The words of some tokens in order, with blanks among them, where no word could be
longer. -/
inductive LaidOut : List Token → List Char → Prop where
  | nil : LaidOut [] []
  | blank {tokens : List Token} {c : Char} {rest : List Char} (isBlank : isBlank c = true)
      (later : LaidOut tokens rest) : LaidOut tokens (c :: rest)
  | word {token : Token} {tokens : List Token} {word rest : List Char}
      (written : token.WrittenAs word) (maximal : ∀ c ∈ rest.head?, token.goesOnWith c = false)
      (later : LaidOut tokens rest) : LaidOut (token :: tokens) (word ++ rest)

/-! ## The lexer step by step -/

section Runs

variable {p : Char → Bool} {run rest : List Char}

/-- A run of a class ends where the next character is of another. -/
theorem takeWhile_append_of_head (hrun : ∀ c ∈ run, p c = true)
    (hrest : ∀ c ∈ rest.head?, p c = false) : (run ++ rest).takeWhile p = run := by
  rw [List.takeWhile_append_of_pos hrun]
  cases rest with
  | nil => simp
  | cons c rest => simp [hrest c rfl]

theorem dropWhile_append_of_head (hrun : ∀ c ∈ run, p c = true)
    (hrest : ∀ c ∈ rest.head?, p c = false) : (run ++ rest).dropWhile p = rest := by
  rw [List.dropWhile_append_of_pos hrun]
  cases rest with
  | nil => rfl
  | cons c rest => simp [hrest c rfl]

end Runs

section Steps

variable {c : Char} {rest after : List Char} {lexeme : Lexeme}

theorem tokenize_nil : tokenize [] = .ok [] := by
  rw [tokenize, lexemes]
  rfl

theorem lexemes_of_split (hsplit : Lexeme.split c rest = (lexeme, after)) :
    lexemes (c :: rest) = lexeme :: lexemes after := by
  rw [lexemes, hsplit]

theorem tokenize_of_none (hsplit : Lexeme.split c rest = (lexeme, after))
    (htoken : lexeme.token? = .ok none) : tokenize (c :: rest) = tokenize after := by
  rw [tokenize, lexemes_of_split hsplit, List.filterMapM_cons, htoken]
  rfl

theorem tokenize_of_error {error : LexError} (hsplit : Lexeme.split c rest = (lexeme, after))
    (htoken : lexeme.token? = .error error) : tokenize (c :: rest) = .error error := by
  rw [tokenize, lexemes_of_split hsplit, List.filterMapM_cons, htoken]
  rfl

/-- Blanks in front of a text change nothing. -/
theorem tokenize_blank (h : isBlank c = true) : tokenize (c :: rest) = tokenize rest := by
  have hskip (c : Char) (rest : List Char) (h : isBlank c = true) :
      tokenize (c :: rest) = tokenize (rest.dropWhile isBlank) :=
    tokenize_of_none (by rw [Lexeme.split, if_pos h]) rfl
  rw [hskip c rest h]
  cases rest with
  | nil => rfl
  | cons d rest =>
    by_cases hd : isBlank d = true
    · rw [List.dropWhile_cons_of_pos hd, hskip d rest hd]
    · rw [List.dropWhile_cons_of_neg hd]

/-- A word that could not be longer is the first lexeme. -/
theorem exists_lexeme_word {token : Token} {word : List Char} (written : token.WrittenAs word)
    (maximal : ∀ c ∈ rest.head?, token.goesOnWith c = false) :
    ∃ lexeme, lexemes (word ++ rest) = lexeme :: lexemes rest ∧ lexeme.text = word ∧
      lexeme.token? = .ok (some token) := by
  cases written with
  | @number run nonempty digits =>
    obtain ⟨d, more, rfl⟩ := List.exists_cons_of_ne_nil nonempty
    obtain ⟨hd, hmore⟩ := List.forall_mem_cons.mp digits
    have hsplit : Lexeme.split d (more ++ rest) = (.digits (d :: more), rest) := by
      rw [Lexeme.split, if_neg (by simp [isBlank_of_isDigit hd]), if_pos hd,
        takeWhile_append_of_head hmore maximal, dropWhile_append_of_head hmore maximal]
    exact ⟨_, lexemes_of_split hsplit, rfl, rfl⟩
  | @name first run starts continues =>
    have hsplit : Lexeme.split first (run ++ rest) = (.name (first :: run), rest) := by
      rw [Lexeme.split, if_neg (by simp [isBlank_of_startsName starts]),
        if_neg (by simp [isDigit_of_startsName starts]), if_pos starts,
        takeWhile_append_of_head continues maximal, dropWhile_append_of_head continues maximal]
    exact ⟨_, lexemes_of_split hsplit, rfl, rfl⟩
  | @text content noQuote =>
    have hcontent : ∀ c ∈ content, (c != '"') = true := fun c hc =>
      bne_iff_ne.mpr (ne_of_mem_of_not_mem hc noQuote)
    have hclosing : ∀ c ∈ ('"' :: rest).head?, (c != '"') = false := by simp
    have hsplit : Lexeme.split '"' (content ++ '"' :: rest) = (.literal content, rest) := by
      change Lexeme.splitLiteral (content ++ '"' :: rest) = _
      rw [Lexeme.splitLiteral, dropWhile_append_of_head hcontent hclosing,
        takeWhile_append_of_head hcontent hclosing]
    rw [List.append_assoc, List.cons_append]
    exact ⟨_, lexemes_of_split hsplit, rfl, rfl⟩
  | operator op =>
    have hsplit : Lexeme.split op.symbol rest = (.operator op, rest) := by
      cases op <;> rfl
    exact ⟨_, lexemes_of_split hsplit, rfl, rfl⟩
  | leftParen => exact ⟨.leftParen, lexemes_of_split rfl, rfl, rfl⟩
  | rightParen => exact ⟨.rightParen, lexemes_of_split rfl, rfl, rfl⟩

/-- A word that could not be longer is the first token. -/
theorem tokenize_word {token : Token} {word : List Char} (written : token.WrittenAs word)
    (maximal : ∀ c ∈ rest.head?, token.goesOnWith c = false) :
    tokenize (word ++ rest) = (token :: ·) <$> tokenize rest := by
  obtain ⟨lexeme, hlexemes, -, htoken⟩ := exists_lexeme_word written maximal
  rw [tokenize, hlexemes, List.filterMapM_cons, htoken, tokenize]
  cases (lexemes rest).filterMapM Lexeme.token? <;> rfl

/-- A quote without a partner is the last that is looked at. -/
theorem tokenize_unclosed (h : '"' ∉ rest) :
    tokenize ('"' :: rest) = .error .unterminatedText := by
  have hrest : rest.dropWhile (· != '"') = [] := by
    rw [List.dropWhile_eq_nil_iff]
    exact fun c hc => bne_iff_ne.mpr (ne_of_mem_of_not_mem hc h)
  have hsplit : Lexeme.split '"' rest = (.unclosed rest, []) := by
    change Lexeme.splitLiteral rest = _
    rw [Lexeme.splitLiteral, hrest]
  exact tokenize_of_error hsplit rfl

/-- A character that cannot stand outside quotes is an error at once. -/
theorem tokenize_stray (h : isLexical c = false) (hquote : c ≠ '"') :
    tokenize (c :: rest) = .error (.unexpectedCharacter (String.ofList [c])) := by
  simp only [isLexical, continuesName, Bool.or_eq_false_iff, beq_eq_false_iff_ne] at h
  obtain ⟨⟨⟨⟨⟨⟨⟨hblank, hstarts, hdigit⟩, hplus⟩, hminus⟩, htimes⟩, hdivide⟩, hleft⟩, hright⟩ := h
  have hchar : Lexeme.ofChar c = .stray c := by
    unfold Lexeme.ofChar
    split <;> first | contradiction | rfl
  have hsplit : Lexeme.split c rest = (.stray c, rest) := by
    rw [Lexeme.split, if_neg (by simp [hblank]), if_neg (by simp [hdigit]),
      if_neg (by simp [hstarts]), if_neg hquote, hchar]
  exact tokenize_of_error hsplit rfl

end Steps

/-- **A layout is found by the lexer.** -/
theorem LaidOut.tokenize_eq {tokens : List Token} {text : List Char} (h : LaidOut tokens text) :
    tokenize text = .ok tokens := by
  induction h with
  | nil => exact tokenize_nil
  | blank hblank _ ih => rw [tokenize_blank hblank, ih]
  | word written maximal _ ih =>
    rw [tokenize_word written maximal, ih]
    rfl

/-! ## What a text begins with -/

/-- The ways in which a text that is not empty can begin. -/
inductive Begins : List Char → Prop where
  | blank {c : Char} {rest : List Char} (h : isBlank c = true) : Begins (c :: rest)
  | word {token : Token} {word rest : List Char} (written : token.WrittenAs word)
      (maximal : ∀ c ∈ rest.head?, token.goesOnWith c = false) : Begins (word ++ rest)
  | unclosed {rest : List Char} (h : '"' ∉ rest) : Begins ('"' :: rest)
  | stray {c : Char} {rest : List Char} (h : isLexical c = false) (hquote : c ≠ '"') :
      Begins (c :: rest)

theorem head?_dropWhile {p : Char → Bool} {text : List Char} :
    ∀ c ∈ (text.dropWhile p).head?, p c = false := by
  intro c hc
  have hhead := List.head?_dropWhile_not p text
  rwa [Option.mem_def.mp hc] at hhead

theorem begins_of_cons (c : Char) (rest : List Char) : Begins (c :: rest) := by
  by_cases hlexical : isLexical c = true
  · by_cases hblank : isBlank c = true
    · exact .blank hblank
    by_cases hdigit : c.isDigit = true
    · have hword := @Begins.word _ (c :: rest.takeWhile Char.isDigit) (rest.dropWhile Char.isDigit)
        (.number (List.cons_ne_nil _ _) (List.forall_mem_cons.mpr ⟨hdigit, fun d hd => ?_⟩))
        head?_dropWhile
      · rwa [List.cons_append, List.takeWhile_append_dropWhile] at hword
      · exact List.mem_takeWhile_imp hd
    by_cases hstarts : startsName c = true
    · have hword := @Begins.word _ (c :: rest.takeWhile continuesName)
        (rest.dropWhile continuesName)
        (.name hstarts fun d hd => List.mem_takeWhile_imp hd) head?_dropWhile
      rwa [List.cons_append, List.takeWhile_append_dropWhile] at hword
    simp only [isLexical, continuesName, hblank, hdigit, hstarts, Bool.false_or, Bool.or_eq_true,
      beq_iff_eq] at hlexical
    rcases hlexical with ((((rfl | rfl) | rfl) | rfl) | rfl) | rfl
    · exact .word (.operator .plus) fun _ _ => rfl
    · exact .word (.operator .minus) fun _ _ => rfl
    · exact .word (.operator .times) fun _ _ => rfl
    · exact .word (.operator .divide) fun _ _ => rfl
    · exact .word .leftParen fun _ _ => rfl
    · exact .word .rightParen fun _ _ => rfl
  · by_cases hquote : c = '"'
    · subst hquote
      by_cases hclosing : '"' ∈ rest
      · obtain ⟨content, after, rfl, hcontent⟩ := List.eq_append_cons_of_mem hclosing
        have hword := @Begins.word _ _ after (.text hcontent) (by simp [Token.goesOnWith])
        rwa [List.append_assoc, List.cons_append, List.singleton_append] at hword
      · exact .unclosed hclosing
    · exact .stray (Bool.not_eq_true _ ▸ hlexical) hquote

/-! ## What is outside quotes -/

/-- The first character outside quotes that cannot stand there. -/
def offence? (text : List Char) : Option Char :=
  (Text.outside text).find? (!isLexical ·)

theorem offence?_eq_none_iff {text : List Char} :
    offence? text = none ↔ ∀ c ∈ Text.outside text, isLexical c = true := by
  simp [offence?]

section Outside

variable {rest : List Char}

theorem outside_cons_of_ne {c : Char} (h : c ≠ '"') :
    Text.outside (c :: rest) = c :: Text.outside rest := by
  simp [Text.outside, Text.outsideFrom, h]

/-- Inside quotes nothing is outside them. -/
theorem outsideFrom_true {content : List Char} (h : '"' ∉ content) (rest : List Char) :
    Text.outsideFrom true (content ++ rest) = Text.outsideFrom true rest := by
  induction content with
  | nil => rfl
  | cons c content ih =>
    obtain ⟨hc, hcontent⟩ := not_or.mp (mt List.mem_cons.mpr h)
    rw [List.cons_append, Text.outsideFrom, if_neg (Ne.symm hc), if_pos rfl, ih hcontent]

theorem offence?_of_lexical {run : List Char} (h : ∀ c ∈ run, isLexical c = true) :
    offence? (run ++ rest) = offence? rest := by
  induction run with
  | nil => rfl
  | cons c run ih =>
    obtain ⟨hc, hrun⟩ := List.forall_mem_cons.mp h
    rw [← ih hrun, List.cons_append, offence?, outside_cons_of_ne (ne_quote_of_isLexical hc),
      List.find?_cons_of_neg (by simp [hc])]
    rfl

theorem offence?_stray {c : Char} (h : isLexical c = false) (hquote : c ≠ '"') :
    offence? (c :: rest) = some c := by
  rw [offence?, outside_cons_of_ne hquote, List.find?_cons_of_pos (by simp [h])]

theorem offence?_unclosed (h : '"' ∉ rest) : offence? ('"' :: rest) = none := by
  have houtside : Text.outside ('"' :: rest) = Text.outsideFrom true (rest ++ []) := by
    rw [List.append_nil]
    rfl
  rw [offence?, houtside, outsideFrom_true h]
  rfl

end Outside

namespace Token.WrittenAs

variable {token : Token} {word : List Char}

/-- The characters of a word can stand outside quotes, or the word is a quoted stretch. -/
theorem lexical_or_quoted (h : token.WrittenAs word) :
    (∀ c ∈ word, isLexical c = true) ∨
      ∃ content, word = '"' :: content ++ ['"'] ∧ '"' ∉ content := by
  cases h with
  | number _ digits =>
    exact .inl fun c hc => isLexical_of_continuesName (continuesName_of_isDigit (digits c hc))
  | name starts continues =>
    refine .inl (List.forall_mem_cons.mpr ⟨?_, fun c hc => ?_⟩)
    · exact isLexical_of_continuesName (continuesName_of_startsName starts)
    · exact isLexical_of_continuesName (continues c hc)
  | text noQuote => exact .inr ⟨_, rfl, noQuote⟩
  | operator op =>
    refine .inl (List.forall_mem_singleton.mpr ?_)
    cases op <;> rfl
  | leftParen => exact .inl (List.forall_mem_singleton.mpr rfl)
  | rightParen => exact .inl (List.forall_mem_singleton.mpr rfl)

theorem offence?_append (h : token.WrittenAs word) (rest : List Char) :
    offence? (word ++ rest) = offence? rest := by
  rcases h.lexical_or_quoted with hlexical | ⟨content, rfl, hcontent⟩
  · exact offence?_of_lexical hlexical
  · have houtside : Text.outside ('"' :: content ++ ['"'] ++ rest) =
        Text.outsideFrom true (content ++ '"' :: rest) := by
      rw [List.append_assoc, List.cons_append]
      rfl
    rw [offence?, houtside, outsideFrom_true hcontent]
    rfl

theorem count_quote (h : token.WrittenAs word) : word.count '"' % 2 = 0 := by
  rcases h.lexical_or_quoted with hlexical | ⟨content, rfl, hcontent⟩
  · rw [List.count_eq_zero_of_not_mem fun hquote => ne_quote_of_isLexical (hlexical _ hquote) rfl]
  · simp [List.count_eq_zero_of_not_mem hcontent]

end Token.WrittenAs

/-! ## The verdict on a text -/

/-- What the lexer makes of a text, and why. -/
inductive Verdict (text : List Char) : Prop where
  | stray {c : Char} (offence : offence? text = some c)
      (eq : tokenize text = .error (.unexpectedCharacter (String.ofList [c])))
  | unclosed (offence : offence? text = none) (quotes : text.count '"' % 2 = 1)
      (eq : tokenize text = .error .unterminatedText)
  | laidOut {tokens : List Token} (offence : offence? text = none)
      (quotes : text.count '"' % 2 = 0) (layout : LaidOut tokens text)

namespace Verdict

/-- A blank or a word in front of a text does not change the verdict. -/
theorem of_rest {front rest : List Char} {extend : List Token → List Token}
    (h : Verdict rest) (hoffence : offence? (front ++ rest) = offence? rest)
    (hquotes : front.count '"' % 2 = 0)
    (htokens : tokenize (front ++ rest) = extend <$> tokenize rest)
    (hlayout : ∀ tokens, LaidOut tokens rest → LaidOut (extend tokens) (front ++ rest)) :
    Verdict (front ++ rest) := by
  have hcount : (front ++ rest).count '"' % 2 = rest.count '"' % 2 := by
    rw [List.count_append]
    omega
  cases h with
  | stray offence eq => exact .stray (hoffence.trans offence) (by rw [htokens, eq]; rfl)
  | unclosed offence quotes eq =>
    exact .unclosed (hoffence.trans offence) (hcount.trans quotes) (by rw [htokens, eq]; rfl)
  | laidOut offence quotes layout =>
    exact .laidOut (hoffence.trans offence) (hcount.trans quotes) (hlayout _ layout)

end Verdict

/-- No word is empty. -/
theorem Token.WrittenAs.ne_nil {token : Token} {word : List Char} (h : token.WrittenAs word) :
    word ≠ [] := by
  cases h with
  | number nonempty _ => exact nonempty
  | _ => exact List.cons_ne_nil _ _

/-- **Every text gets one of the three verdicts.** -/
theorem verdict (text : List Char) : Verdict text := by
  induction hlength : text.length using Nat.strongRecOn generalizing text with
  | ind length ih =>
    subst hlength
    cases text with
    | nil => exact .laidOut rfl rfl .nil
    | cons c rest =>
      have hbegins := begins_of_cons c rest
      generalize c :: rest = text at ih hbegins
      cases hbegins with
      | @blank c rest h =>
        refine @Verdict.of_rest [c] rest id (ih rest.length (Nat.lt_succ_self _) rest rfl)
          ?_ ?_ ?_ ?_
        · exact offence?_of_lexical (List.forall_mem_singleton.mpr (isLexical_of_isBlank h))
        · rw [List.count_singleton, if_neg]
          exact fun hquote => ne_quote_of_isLexical (isLexical_of_isBlank h) (beq_iff_eq.mp hquote)
        · rw [List.singleton_append, tokenize_blank h, id_map]
        · exact fun _ layout => .blank h layout
      | @word token word rest written maximal =>
        have hshorter : rest.length < (word ++ rest).length := by
          have hword := List.length_pos_iff.mpr written.ne_nil
          rw [List.length_append]
          omega
        exact (ih rest.length hshorter rest rfl).of_rest (written.offence?_append rest)
          written.count_quote (tokenize_word written maximal)
          fun _ layout => .word written maximal layout
      | unclosed h =>
        refine .unclosed (offence?_unclosed h) ?_ (tokenize_unclosed h)
        rw [List.count_cons_self, List.count_eq_zero_of_not_mem h]
      | stray h hquote => exact .stray (offence?_stray h hquote) (tokenize_stray h hquote)

/-! ## The language -/

/-- The tokens of an expression on line `line`. -/
def tokensAt (line : Nat) (text : List Char) : Except Fault (List Token) :=
  locate line ((tokenize text).mapError Cause.lexical)

theorem tokensAt_of_ok {line : Nat} {text : List Char} {tokens : List Token}
    (h : tokenize text = .ok tokens) : tokensAt line text = .ok tokens := by
  rw [tokensAt, h]
  rfl

theorem tokensAt_of_error {line : Nat} {text : List Char} {error : LexError}
    (h : tokenize text = .error error) :
    tokensAt line text = .error ⟨line, .lexical error⟩ := by
  rw [tokensAt, h]
  rfl

theorem tokenize_of_tokensAt {line : Nat} {text : List Char} {tokens : List Token}
    (h : tokensAt line text = .ok tokens) : tokenize text = .ok tokens := by
  cases htokens : tokenize text with
  | ok found =>
    rw [tokensAt_of_ok htokens] at h
    rw [Except.ok.inj h]
  | error error =>
    rw [tokensAt_of_error htokens] at h
    cases h

theorem tokensAt_eq_ok_iff {line : Nat} {text : List Char} {tokens : List Token} :
    tokensAt line text = .ok tokens ↔ LaidOut tokens text := by
  refine ⟨fun h => ?_, fun layout => tokensAt_of_ok layout.tokenize_eq⟩
  have htokens := tokenize_of_tokensAt h
  cases verdict text with
  | stray _ eq => cases htokens.symm.trans eq
  | unclosed _ _ eq => cases htokens.symm.trans eq
  | laidOut _ _ layout =>
    obtain rfl := Except.ok.inj (htokens.symm.trans layout.tokenize_eq)
    exact layout

/-- All tokens of a layout have words. -/
theorem LaidOut.exists_word {tokens : List Token} {text : List Char} (h : LaidOut tokens text) :
    ∀ token ∈ tokens, ∃ word, token.WrittenAs word := by
  induction h with
  | nil => exact List.forall_mem_nil _
  | blank _ _ ih => exact ih
  | word written _ _ ih => exact List.forall_mem_cons.mpr ⟨⟨_, written⟩, ih⟩

/-- **The lexer accepts exactly its language, reports the first offence and loses
nothing.**  There are tokens just if the quotes can be paired and all that is outside
them can stand there.  The first character that cannot is the error, and a quote
without a partner is if there is no such character.  The tokens are those of the
layout of the text; evaluation puts an item in the place of each of them. -/
theorem tokensAt_language (line : Nat) (text : List Char) :
    ((∃ tokens, tokensAt line text = .ok tokens) ↔
        text.count '"' % 2 = 0 ∧ ∀ c ∈ Text.outside text, isLexical c = true) ∧
      (∀ c, (Text.outside text).find? (!isLexical ·) = some c →
        tokensAt line text = .error ⟨line, .lexical (.unexpectedCharacter (String.ofList [c]))⟩) ∧
      ((∀ c ∈ Text.outside text, isLexical c = true) → text.count '"' % 2 = 1 →
        tokensAt line text = .error ⟨line, .lexical .unterminatedText⟩) ∧
      ∀ tokens, (tokensAt line text = .ok tokens ↔ LaidOut tokens text) ∧
        (tokensAt line text = .ok tokens → .unclosedText ∉ tokens ∧ .blank ∉ tokens ∧
          ∀ store items, tokens.filterMapM (Item.resolve store) = .ok items →
            List.Forall₂ (Replaces store) tokens items) := by
  refine ⟨?_, ?_, ?_, fun tokens => ⟨tokensAt_eq_ok_iff, fun h => ?_⟩⟩
  · simp only [tokensAt_eq_ok_iff, ← offence?_eq_none_iff]
    constructor
    · rintro ⟨tokens, layout⟩
      cases verdict text with
      | stray _ eq => cases layout.tokenize_eq.symm.trans eq
      | unclosed _ _ eq => cases layout.tokenize_eq.symm.trans eq
      | laidOut offence quotes _ => exact ⟨quotes, offence⟩
    · rintro ⟨hquotes, hoffence⟩
      cases verdict text with
      | stray offence _ => cases hoffence.symm.trans offence
      | unclosed _ quotes _ => cases hquotes.symm.trans quotes
      | laidOut _ _ layout => exact ⟨_, layout⟩
  · intro c hoffence
    cases verdict text with
    | stray offence eq =>
      obtain rfl := Option.some.inj (offence.symm.trans hoffence)
      exact tokensAt_of_error eq
    | unclosed offence _ _ => cases offence.symm.trans hoffence
    | laidOut offence _ _ => cases offence.symm.trans hoffence
  · intro hlexical hodd
    have hoffence := offence?_eq_none_iff.mpr hlexical
    cases verdict text with
    | stray offence _ => cases hoffence.symm.trans offence
    | unclosed _ _ eq => exact tokensAt_of_error eq
    | laidOut _ quotes _ => cases hodd.symm.trans quotes
  · have hwords := (tokensAt_eq_ok_iff.mp h).exists_word
    have hunclosed : .unclosedText ∉ tokens := fun hmem => by
      obtain ⟨_, hword⟩ := hwords _ hmem
      cases hword
    have hblank : .blank ∉ tokens := fun hmem => by
      obtain ⟨_, hword⟩ := hwords _ hmem
      cases hword
    refine ⟨hunclosed, hblank, fun store items hitems => ?_⟩
    have hkeep : ∀ token ∈ tokens, Item.resolve store token ≠ .ok none := fun token hmem =>
      resolve_ne_ok_none (ne_of_mem_of_not_mem hmem hblank)
    simpa only [filterMapM_eq_ok_iff hkeep, resolve_eq_ok_iff] using hitems

/-- A number next to a name and a literal that looks like a comment; a stray character
before a quote without a partner; and such a quote alone. -/
theorem tokensAt_language_examples :
    let tokens : List Token := [.number (Number.ofDigits ['1', '2']), .name "가2", .text "# ("]
    LaidOut tokens "12가2\t\"# (\"".toList ∧ tokensAt 3 "12가2\t\"# (\"".toList = .ok tokens ∧
      .unclosedText ∉ tokens ∧
        tokensAt 3 "1 . \"".toList = .error ⟨3, .lexical (.unexpectedCharacter ".")⟩ ∧
          tokensAt 3 "1 + \".".toList = .error ⟨3, .lexical .unterminatedText⟩ := by
  intro tokens
  have hliteral : LaidOut [.text "# ("] "\"# (\"".toList :=
    @LaidOut.word _ _ "\"# (\"".toList [] (@Token.WrittenAs.text "# (".toList (by decide)) nofun .nil
  have hname : LaidOut [.name "가2", .text "# ("] "가2\t\"# (\"".toList :=
    @LaidOut.word _ _ "가2".toList "\t\"# (\"".toList
      (.name (by decide) (List.all_eq_true.mp (by decide))) (by rintro _ ⟨⟩; decide)
      (.blank rfl hliteral)
  have hlayout : LaidOut tokens "12가2\t\"# (\"".toList :=
    @LaidOut.word _ _ ['1', '2'] "가2\t\"# (\"".toList
      (.number (by decide) (List.all_eq_true.mp rfl)) (by rintro _ ⟨⟩; decide) hname
  have htokens := ((tokensAt_language 3 _).2.2.2 tokens).1.mpr hlayout
  exact ⟨hlayout, htokens, (((tokensAt_language 3 _).2.2.2 tokens).2 htokens).1,
    (tokensAt_language 3 _).2.1 '.' (by decide),
    (tokensAt_language 3 _).2.2.1 (List.all_eq_true.mp (by decide)) (by decide)⟩

end KoreanScript
