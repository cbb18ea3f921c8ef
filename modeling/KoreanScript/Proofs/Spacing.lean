import KoreanScript.Proofs.Lexing

/-!
# Blanks between texts

No word goes on with a blank.  So a text that has tokens may be put in front of any
other, if there are blanks between the two: the tokens of the whole are those of the
first and those of the second, and if the second has none, the whole has none for the
same reason.  Without the blanks two words could become one.

It follows that lexing undoes the writing of words side by side with blanks between
them.
-/

set_option autoImplicit false

namespace KoreanScript

/-! ## Blanks -/

/-- One or more blanks. -/
structure IsGap (gap : List Char) : Prop where
  nonempty : gap ≠ []
  blank : ∀ c ∈ gap, isBlank c = true

theorem continuesName_of_isBlank {c : Char} (h : isBlank c = true) : continuesName c = false := by
  apply Bool.eq_false_iff.mpr
  intro hcontinues
  rcases Bool.or_eq_true_iff.mp hcontinues with hstarts | hdigit
  · cases h.symm.trans (isBlank_of_startsName hstarts)
  · cases h.symm.trans (isBlank_of_isDigit hdigit)

/-- No word goes on with a blank. -/
theorem Token.goesOnWith_of_isBlank (token : Token) {c : Char} (h : isBlank c = true) :
    token.goesOnWith c = false := by
  have hname := continuesName_of_isBlank h
  cases token with
  | number value => exact (Bool.or_eq_false_iff.mp hname).2
  | name name => exact hname
  | _ => rfl

theorem tokenize_blanks {blanks : List Char} (h : ∀ c ∈ blanks, isBlank c = true)
    (rest : List Char) : tokenize (blanks ++ rest) = tokenize rest := by
  induction blanks with
  | nil => rfl
  | cons c blanks ih =>
    obtain ⟨hc, hblanks⟩ := List.forall_mem_cons.mp h
    rw [List.cons_append, tokenize_blank hc, ih hblanks]

/-! ## Texts side by side -/

/-- The tokens of a text that a blank follows do not depend on what comes then. -/
theorem LaidOut.tokenize_append {tokens : List Token} {text rest : List Char}
    (h : LaidOut tokens text) (hrest : ∀ c ∈ rest.head?, isBlank c = true) :
    tokenize (text ++ rest) = (tokens ++ ·) <$> tokenize rest := by
  induction h with
  | nil => exact (id_map _).symm
  | blank hblank _ ih => rw [List.cons_append, tokenize_blank hblank, ih]
  | @word token tokens word later written maximal _ ih =>
    have hnext : ∀ c ∈ (later ++ rest).head?, token.goesOnWith c = false := by
      cases later with
      | nil => exact fun c hc => token.goesOnWith_of_isBlank (hrest c hc)
      | cons d later => exact maximal
    rw [List.append_assoc, tokenize_word written hnext, ih, ← comp_map]
    rfl

/-- **A text with tokens, a gap and any text** have the tokens of the one and those of
the other, or the error of the other. -/
theorem tokenize_append_gap {text gap : List Char} {tokens : List Token}
    (htokens : tokenize text = .ok tokens) (hgap : IsGap gap) (rest : List Char) :
    tokenize (text ++ gap ++ rest) = (tokens ++ ·) <$> tokenize rest := by
  have hline : tokensAt 0 text = .ok tokens := tokensAt_of_ok htokens
  have hlayout := tokensAt_eq_ok_iff.mp hline
  have hhead : ∀ c ∈ (gap ++ rest).head?, isBlank c = true := by
    obtain ⟨c, more, rfl⟩ := List.exists_cons_of_ne_nil hgap.nonempty
    rintro _ ⟨⟩
    exact hgap.blank c List.mem_cons_self
  rw [List.append_assoc, hlayout.tokenize_append hhead, tokenize_blanks hgap.blank]

/-! ## Words side by side -/

/-- The words of some tokens in order, with a gap between each two of them. -/
inductive Spaced : List Token → List Char → Prop where
  | nil : Spaced [] []
  | single {token : Token} {word : List Char} (written : token.WrittenAs word) :
      Spaced [token] word
  | cons {token next : Token} {tokens : List Token} {word gap rest : List Char}
      (written : token.WrittenAs word) (isGap : IsGap gap) (later : Spaced (next :: tokens) rest) :
      Spaced (token :: next :: tokens) (word ++ gap ++ rest)

theorem Token.WrittenAs.tokenize_eq {token : Token} {word : List Char}
    (h : token.WrittenAs word) : tokenize word = .ok [token] := by
  have hword : tokenize (word ++ []) = (token :: ·) <$> tokenize [] := tokenize_word h nofun
  rwa [List.append_nil, tokenize_nil] at hword

/-- Lexing undoes the writing of words with gaps between them. -/
theorem Spaced.tokenize_eq {tokens : List Token} {text : List Char} (h : Spaced tokens text) :
    tokenize text = .ok tokens := by
  induction h with
  | nil => exact tokenize_nil
  | single written => exact written.tokenize_eq
  | cons written isGap _ ih =>
    rw [tokenize_append_gap written.tokenize_eq isGap, ih]
    rfl

/-- **Lexing is compositional at blanks, and undoes writing.**  A text that has tokens, a
gap and any other text have the tokens of both, or the fault of the other.  Words with
gaps between them have the tokens that they are the words of. -/
theorem tokensAt_spaced (line : Nat) :
    (∀ (text gap rest : List Char) (tokens : List Token),
        tokensAt line text = .ok tokens → IsGap gap →
          (∀ later, tokensAt line rest = .ok later →
            tokensAt line (text ++ gap ++ rest) = .ok (tokens ++ later)) ∧
          ∀ fault, tokensAt line rest = .error fault →
            tokensAt line (text ++ gap ++ rest) = .error fault) ∧
      ∀ (tokens : List Token) (text : List Char), Spaced tokens text →
        tokensAt line text = .ok tokens := by
  refine ⟨fun text gap rest tokens htokens hgap => ?_, fun tokens text h => ?_⟩
  · have htext := tokenize_append_gap (tokenize_of_tokensAt htokens) hgap rest
    constructor
    · intro later hlater
      rw [tokenize_of_tokensAt hlater] at htext
      exact tokensAt_of_ok htext
    · intro fault hfault
      cases hrest : tokenize rest with
      | ok later => cases (tokensAt_of_ok hrest).symm.trans hfault
      | error error =>
        rw [hrest] at htext
        exact (tokensAt_of_error htext).trans ((tokensAt_of_error hrest).symm.trans hfault)
  · exact tokensAt_of_ok h.tokenize_eq

/-- A name and a literal before a number and a stray character; and two words that would be
one without the blank between them. -/
theorem tokensAt_spaced_examples :
    let text := "가\"+ #\"".toList
    let tokens : List Token := [.name "가", .text "+ #"]
    let fault : Fault := ⟨2, .lexical (.unexpectedCharacter ".")⟩
    let names : List Token := [.name "가", .name "나"]
    tokensAt 2 text = .ok tokens ∧ IsGap [' ', '\t'] ∧ tokensAt 2 "2.".toList = .error fault ∧
      tokensAt 2 (text ++ [' ', '\t'] ++ "2.".toList) = .error fault ∧
        Spaced names "가\n나".toList ∧ tokensAt 2 "가\n나".toList = .ok names := by
  intro text tokens fault names
  have htext : tokensAt 2 text = .ok tokens := by decide +kernel
  have hrest : tokensAt 2 "2.".toList = .error fault := by decide +kernel
  have hgap : IsGap [' ', '\t'] := ⟨List.cons_ne_nil _ _, List.all_eq_true.mp rfl⟩
  have hfeed : IsGap ['\n'] := ⟨List.cons_ne_nil _ _, List.all_eq_true.mp rfl⟩
  have hname (c : Char) (h : startsName c = true) :
      (Token.name (String.ofList [c])).WrittenAs [c] := .name h (List.forall_mem_nil _)
  have hnames : Spaced names "가\n나".toList :=
    .cons (hname '가' (by decide)) hfeed (.single (hname '나' (by decide)))
  exact ⟨htext, hgap, hrest, ((tokensAt_spaced 2).1 text _ _ tokens htext hgap).2 fault hrest,
    hnames, (tokensAt_spaced 2).2 names _ hnames⟩

end KoreanScript
