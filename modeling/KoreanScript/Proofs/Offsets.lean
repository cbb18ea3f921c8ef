import Mathlib.Data.Nat.SuccPred
import Mathlib.Data.String.Basic
import Mathlib.Order.Interval.Set.Monotone
import Mathlib.Order.Lattice.Nat
import KoreanScript.Proofs.Lexing

/-!
# Offsets of tokens

Conditions are taken apart by the scan of a text, and the parts are read by the
lexer.  The scan knows quotes and parentheses only; the lexer knows words.  On a text
that has tokens the two see the same: a spot of the scan is an offset that no literal
of the lexer hides, and the depth there is the number of opening less the number of
closing parentheses among the tokens that begin before it.

The tokens of a text are placed by the lengths of its lexemes.  The agreement is an
induction over the layout of the text, in which a word takes the scan from outside
literals to outside literals, and through the inside of one only if it is one.
-/

set_option autoImplicit false

namespace KoreanScript

open Text (Scan)

/-! ## Spans -/

/-- A token and the stretch of characters that it is read from. -/
structure TokenSpan where
  token : Token
  start : Nat
  stop : Nat

/-- The tokens among some lexemes, the first of which begins at `start`, with their
places. -/
def spansFrom (start : Nat) : List Lexeme → List TokenSpan
  | [] => []
  | lexeme :: rest =>
    let stop := start + lexeme.text.length
    match lexeme.token? with
    | .ok (some token) => ⟨token, start, stop⟩ :: spansFrom stop rest
    | _ => spansFrom stop rest

/-- The tokens of a text with their places. -/
def tokenSpans (text : List Char) : List TokenSpan :=
  spansFrom 0 (lexemes text)

theorem le_start_of_mem_spansFrom {start : Nat} {lexemes : List Lexeme} {span : TokenSpan}
    (h : span ∈ spansFrom start lexemes) : start ≤ span.start := by
  fun_induction spansFrom start lexemes with
  | case1 => cases h
  | case2 start lexeme rest stop token htoken ih =>
    rcases List.mem_cons.mp h with rfl | h
    · exact Nat.le_refl _
    · exact (Nat.le_add_right _ _).trans (ih h)
  | case3 start lexeme rest stop _ ih => exact (Nat.le_add_right _ _).trans (ih h)

section Layouts

variable {start : Nat} {c : Char} {rest : List Char}

/-- A blank in front moves all tokens by one place. -/
theorem spansFrom_blank (h : isBlank c = true) :
    spansFrom start (lexemes (c :: rest)) = spansFrom (start + 1) (lexemes rest) := by
  have hskip (start : Nat) (c : Char) (rest : List Char) (h : isBlank c = true) :
      spansFrom start (lexemes (c :: rest)) =
        spansFrom (start + ((rest.takeWhile isBlank).length + 1))
          (lexemes (rest.dropWhile isBlank)) := by
    rw [lexemes_of_split (by rw [Lexeme.split, if_pos h])]
    rfl
  rw [hskip start c rest h]
  cases rest with
  | nil => rfl
  | cons d rest =>
    by_cases hd : isBlank d = true
    · rw [hskip (start + 1) d rest hd, List.takeWhile_cons_of_pos hd,
        List.dropWhile_cons_of_pos hd, List.length_cons]
      congr 1
      omega
    · rw [List.takeWhile_cons_of_neg hd, List.dropWhile_cons_of_neg hd]
      rfl

/-- A word that could not be longer is the first token, and the others follow it. -/
theorem spansFrom_word {token : Token} {word : List Char} (written : token.WrittenAs word)
    (maximal : ∀ c ∈ rest.head?, token.goesOnWith c = false) :
    spansFrom start (lexemes (word ++ rest)) =
      ⟨token, start, start + word.length⟩ ::
        spansFrom (start + word.length) (lexemes rest) := by
  obtain ⟨lexeme, hlexemes, rfl, htoken⟩ := exists_lexeme_word written maximal
  rw [hlexemes, spansFrom, htoken]

end Layouts

/-- Spans at which a text reads as some tokens: their stretches are words of the tokens,
one after the other. -/
structure Reads (text : List Char) (tokens : List Token) (spans : List TokenSpan) : Prop where
  tokens_eq : spans.map TokenSpan.token = tokens
  written : ∀ span ∈ spans, span.token.WrittenAs (text.extract span.start span.stop)
  apart : spans.Pairwise fun earlier later => earlier.stop ≤ later.start

theorem LaidOut.reads {tokens : List Token} {text : List Char} (h : LaidOut tokens text)
    (front : List Char) : Reads (front ++ text) tokens (spansFrom front.length (lexemes text)) := by
  induction h generalizing front with
  | nil =>
    rw [lexemes]
    exact ⟨rfl, List.forall_mem_nil _, .nil⟩
  | @blank tokens c rest hblank _ ih =>
    have hlater := ih (front ++ [c])
    rwa [List.append_assoc, List.length_append, List.length_singleton, List.singleton_append,
      ← spansFrom_blank hblank] at hlater
  | @word token tokens word rest written maximal _ ih =>
    have hlater := ih (front ++ word)
    rw [List.append_assoc, List.length_append] at hlater
    have hword : (front ++ (word ++ rest)).extract front.length (front.length + word.length) =
        word := by
      simp [List.extract_eq_take_drop]
    rw [spansFrom_word written maximal]
    refine ⟨?_, List.forall_mem_cons.mpr ⟨?_, hlater.written⟩, .cons ?_ hlater.apart⟩
    · rw [List.map_cons, hlater.tokens_eq]
    · rwa [hword]
    · exact fun _ hspan => le_start_of_mem_spansFrom hspan

/-! ## What tokens say of an offset -/

/-- Whether a token is a literal. -/
def Token.isLiteral : Token → Bool
  | .text _ => true
  | _ => false

/-- Whether an offset lies inside a literal, after its opening quote.  The closing quote
is inside. -/
def TokenSpan.hides (span : TokenSpan) (offset : Nat) : Bool :=
  span.token.isLiteral && span.start < offset && offset < span.stop

/-- Whether an offset lies inside one of some literals. -/
def hidden (spans : List TokenSpan) (offset : Nat) : Bool :=
  spans.any (·.hides offset)

/-- How often a token begins before an offset. -/
def begunBefore (token : Token) (spans : List TokenSpan) (offset : Nat) : Nat :=
  spans.countP fun span => span.token = token ∧ span.start < offset

/-- The opening less the closing parentheses that begin before an offset. -/
def depthBefore (spans : List TokenSpan) (offset : Nat) : Int :=
  begunBefore .leftParen spans offset - begunBefore .rightParen spans offset

/-- What a token adds to the depth. -/
def Token.rise : Token → Int
  | .leftParen => 1
  | .rightParen => -1
  | _ => 0

section Before

variable {start offset : Nat} {lexemes : List Lexeme} {spans : List TokenSpan}

theorem hidden_spansFrom (h : offset ≤ start) :
    hidden (spansFrom start lexemes) offset = false := by
  rw [hidden, List.any_eq_false]
  intro span hspan
  simp [TokenSpan.hides, Nat.not_lt.mpr (h.trans (le_start_of_mem_spansFrom hspan))]

theorem depthBefore_spansFrom (h : offset ≤ start) :
    depthBefore (spansFrom start lexemes) offset = 0 := by
  have hbegun (token : Token) : begunBefore token (spansFrom start lexemes) offset = 0 := by
    rw [begunBefore, List.countP_eq_zero]
    intro span hspan
    simp [Nat.not_lt.mpr (h.trans (le_start_of_mem_spansFrom hspan))]
  rw [depthBefore, hbegun, hbegun, sub_self]

theorem hidden_cons {span : TokenSpan} (h : span.start < offset) :
    hidden (span :: spans) offset =
      (span.token.isLiteral && decide (offset < span.stop) || hidden spans offset) := by
  simp [hidden, TokenSpan.hides, h]

theorem depthBefore_cons {span : TokenSpan} (h : span.start < offset) :
    depthBefore (span :: spans) offset = span.token.rise + depthBefore spans offset := by
  simp only [depthBefore, begunBefore, List.countP_cons, h, and_true, decide_eq_true_eq]
  cases span.token <;> simp [Token.rise] <;> omega

end Before

/-! ## The scan over a word -/

theorem isPlain_of_isBlank {c : Char} (h : isBlank c = true) : Text.IsPlain c := by
  refine ⟨?_, ?_, ?_⟩ <;> rintro rfl <;> cases h

theorem isPlain_of_continuesName {c : Char} (h : continuesName c = true) : Text.IsPlain c := by
  refine ⟨?_, ?_, ?_⟩ <;> rintro rfl <;> revert h <;> decide

/-- **A word takes the scan from outside literals to outside literals.**  In between a
literal is open just if the word is one. -/
theorem Token.WrittenAs.after_take {token : Token} {word : List Char}
    (written : token.WrittenAs word) (depth : Int) {count : Nat} (hpos : 0 < count)
    (hcount : count ≤ word.length) :
    (⟨depth, false⟩ : Scan).after (word.take count) =
      ⟨depth + token.rise, token.isLiteral && decide (count < word.length)⟩ := by
  have hplain {token : Token} {word : List Char} (hrise : token.rise = 0)
      (htext : token.isLiteral = false) (h : ∀ c ∈ word, Text.IsPlain c) :
      (⟨depth, false⟩ : Scan).after (word.take count) =
        ⟨depth + token.rise, token.isLiteral && decide (count < word.length)⟩ := by
    rw [Scan.after_of_isPlain _ fun c hc => h c (List.mem_of_mem_take hc), hrise, htext,
      add_zero, Bool.false_and]
  cases written with
  | number _ digits =>
    exact hplain rfl rfl fun c hc =>
      isPlain_of_continuesName (continuesName_of_isDigit (digits c hc))
  | name starts continues =>
    refine hplain rfl rfl (List.forall_mem_cons.mpr ⟨?_, fun c hc => ?_⟩)
    · exact isPlain_of_continuesName (continuesName_of_startsName starts)
    · exact isPlain_of_continuesName (continues c hc)
  | operator op =>
    refine hplain rfl rfl (List.forall_mem_singleton.mpr ?_)
    cases op <;> refine ⟨?_, ?_, ?_⟩ <;> decide
  | leftParen =>
    obtain rfl : count = 1 := Nat.le_antisymm hcount hpos
    rfl
  | rightParen =>
    obtain rfl : count = 1 := Nat.le_antisymm hcount hpos
    rfl
  | @text content noQuote =>
    obtain ⟨passed, rfl⟩ := Nat.exists_eq_succ_of_ne_zero hpos.ne'
    have hopen {part : List Char} (h : '"' ∉ part) :
        (⟨depth, false⟩ : Scan).after ('"' :: part) = ⟨depth, true⟩ :=
      Scan.after_of_inLiteral rfl h
    rcases Nat.lt_or_ge content.length passed with hwhole | hpart
    · have hall : ('"' :: content ++ ['"']).take (passed + 1) = '"' :: content ++ ['"'] :=
        List.take_of_length_le (by simpa using hwhole)
      have hlength : ¬passed + 1 < ('"' :: content ++ ['"']).length := by simpa using hwhole
      rw [hall, Scan.after_append, hopen noQuote, decide_eq_false hlength]
      simp [Scan.advance, Token.rise]
    · have hinside : ('"' :: content ++ ['"']).take (passed + 1) = '"' :: content.take passed := by
        rw [List.cons_append, List.take_succ_cons, List.take_append_of_le_length hpart]
      have hlength : passed + 1 < ('"' :: content ++ ['"']).length := by simpa using hpart
      rw [hinside, hopen fun h => noQuote (List.mem_of_mem_take h), decide_eq_true hlength]
      simp [Token.rise, Token.isLiteral]

/-- **The scan after the front of a text** has the depth that the tokens say, and is in
a literal just if one of them hides the offset. -/
theorem LaidOut.after_take {tokens : List Token} {text : List Char} (h : LaidOut tokens text)
    (depth : Int) (start count : Nat) :
    (⟨depth, false⟩ : Scan).after (text.take count) =
      ⟨depth + depthBefore (spansFrom start (lexemes text)) (start + count),
        hidden (spansFrom start (lexemes text)) (start + count)⟩ := by
  -- What stands before the text changes the depth and the start, and nothing else.
  induction h generalizing depth start count with
  | nil =>
    rw [lexemes, List.take_nil]
    simp [spansFrom, depthBefore, begunBefore, hidden]
  | @blank tokens c rest hblank _ ih =>
    cases count with
    | zero =>
      rw [Nat.add_zero, hidden_spansFrom le_rfl, depthBefore_spansFrom le_rfl, add_zero]
      rfl
    | succ count =>
      rw [List.take_succ_cons, Scan.after_cons,
        Scan.advance_of_isPlain _ (isPlain_of_isBlank hblank),
        ih depth (start + 1) count, spansFrom_blank hblank, Nat.add_right_comm, Nat.add_assoc]
  | @word token tokens word rest written maximal _ ih =>
    rcases Nat.eq_zero_or_pos count with rfl | hpos
    · rw [Nat.add_zero, hidden_spansFrom le_rfl, depthBefore_spansFrom le_rfl, add_zero]
      rfl
    have hbegun : start < start + count := Nat.lt_add_of_pos_right hpos
    rw [spansFrom_word written maximal, depthBefore_cons hbegun, hidden_cons hbegun, ← add_assoc]
    rcases Nat.le_total count word.length with hwithin | hbeyond
    · -- All later tokens begin after the word.
      have hlater : start + count ≤ start + word.length := Nat.add_le_add_left hwithin start
      rw [List.take_append_of_le_length hwithin, written.after_take depth hpos hwithin,
        depthBefore_spansFrom hlater, hidden_spansFrom hlater, add_zero, Bool.or_false]
      simp
    · obtain ⟨more, rfl⟩ := Nat.exists_eq_add_of_le hbeyond
      have hword := written.after_take depth (List.length_pos_iff.mpr written.ne_nil) le_rfl
      have hpassed : decide (start + (word.length + more) < start + word.length) = false :=
        decide_eq_false (by omega)
      rw [List.take_length, decide_eq_false (lt_irrefl _), Bool.and_false] at hword
      rw [List.take_length_add_append, Scan.after_append, hword, ih _ (start + word.length) more,
        hpassed, Bool.and_false, Bool.false_or, Nat.add_assoc]

/-! ## Spots -/

/-- The spots are the offsets that no literal hides, with the depth that the tokens say. -/
theorem LaidOut.spots_eq {tokens : List Token} {text : List Char} (h : LaidOut tokens text) :
    Text.spots text =
      ((List.range text.length).filter fun offset => !hidden (tokenSpans text) offset).map
        fun offset => ⟨offset, depthBefore (tokenSpans text) offset, text.drop offset⟩ := by
  have hscan (offset : Nat) : Scan.start.after (text.take offset) =
      ⟨depthBefore (tokenSpans text) offset, hidden (tokenSpans text) offset⟩ := by
    have hafter := h.after_take 0 0 offset
    rwa [zero_add, Nat.zero_add] at hafter
  simp only [Text.spots, Text.spotsFrom_eq, hscan, Nat.zero_add]

/-- The offsets outside literals at which a pattern occurs. -/
def occurrences (text pattern : List Char) : Set Nat :=
  {offset | hidden (tokenSpans text) offset = false ∧ pattern <+: text.drop offset}

theorem lt_length_of_mem_occurrences {text pattern : List Char} {offset : Nat}
    (hpattern : pattern ≠ []) (h : offset ∈ occurrences text pattern) : offset < text.length := by
  by_contra hbeyond
  have hprefix := h.2
  rw [List.drop_eq_nil_of_le (Nat.not_lt.mp hbeyond), List.prefix_nil] at hprefix
  exact hpattern hprefix

theorem LaidOut.findOutside?_eq {tokens : List Token} {text : List Char}
    (h : LaidOut tokens text) (pattern : List Char) :
    Text.findOutside? text pattern = (List.range text.length).find? fun offset =>
      !hidden (tokenSpans text) offset && decide (pattern <+: text.drop offset) := by
  rw [Text.findOutside?, h.spots_eq, List.find?_map, List.find?_filter, Option.map_map]
  simp [Function.comp_def]

section Search

variable {tokens : List Token} {text pattern : List Char}

/-- A pattern is found where it first occurs outside literals. -/
theorem LaidOut.findOutside?_eq_some_iff (h : LaidOut tokens text) (hpattern : pattern ≠ [])
    {offset : Nat} : Text.findOutside? text pattern = some offset ↔
      IsLeast (occurrences text pattern) offset := by
  have hoccurs (k : Nat) : (!hidden (tokenSpans text) k && decide (pattern <+: text.drop k)) =
      true ↔ k ∈ occurrences text pattern := by
    simp [occurrences]
  rw [h.findOutside?_eq, List.find?_range_eq_some]
  simp only [Bool.not_eq_true', Bool.eq_false_iff, ne_eq, hoccurs, List.mem_range]
  constructor
  · rintro ⟨hhere, -, hbefore⟩
    exact ⟨hhere, fun k hk => not_lt.mp fun hlt => hbefore k hlt hk⟩
  · rintro ⟨hhere, hleast⟩
    exact ⟨hhere, lt_length_of_mem_occurrences hpattern hhere,
      fun k hlt hk => hlt.not_ge (hleast hk)⟩

theorem LaidOut.findOutside?_eq_none_iff (h : LaidOut tokens text) (hpattern : pattern ≠ []) :
    Text.findOutside? text pattern = none ↔ occurrences text pattern = ∅ := by
  rw [Option.eq_none_iff_forall_ne_some]
  simp only [ne_eq, h.findOutside?_eq_some_iff hpattern]
  constructor
  · intro hnone
    by_contra hsome
    exact hnone _ (isLeast_csInf (Set.nonempty_iff_ne_empty.mpr hsome))
  · rintro hempty offset ⟨hhere, -⟩
    exact Set.eq_empty_iff_forall_notMem.mp hempty offset hhere

end Search

/-! ## Offsets in bytes -/

theorem Text.byteOffset_succ {text : List Char} {count : Nat} (h : count < text.length) :
    byteOffset text (count + 1) = byteOffset text count + text[count].utf8Size := by
  rw [byteOffset, byteOffset, ← List.take_append_getElem h, String.ofList_append,
    String.utf8ByteSize_append, String.utf8ByteSize_ofList [text[count]]]
  exact congrArg _ (Nat.zero_add _)

/-- Offsets in bytes are ordered as the offsets in characters are. -/
theorem Text.strictMonoOn_byteOffset (text : List Char) :
    StrictMonoOn (byteOffset text) (Set.Iic text.length) := by
  refine strictMonoOn_Iic_of_lt_succ fun count hcount => ?_
  rw [Order.succ_eq_add_one, byteOffset_succ hcount]
  exact Nat.lt_add_of_pos_right (Char.utf8Size_pos _)

theorem isLeast_byteOffset {text pattern : List Char} (hpattern : pattern ≠ []) {offset : Nat}
    (h : IsLeast (occurrences text pattern) offset) :
    IsLeast (Text.byteOffset text '' occurrences text pattern) (Text.byteOffset text offset) := by
  have hwithin : occurrences text pattern ⊆ Set.Iic text.length := fun _ hk =>
    (lt_length_of_mem_occurrences hpattern hk).le
  exact ((Text.strictMonoOn_byteOffset text).monotoneOn.mono hwithin).map_isLeast h

/-! ## The agreement -/

/-- **The scan agrees with the lexer.**  Of a text that has tokens, the spots are the
offsets that do not lie inside a literal, after its opening quote, in order; the depth
of a spot is the number of opening less the number of closing parentheses among the
tokens that begin before it.  So a pattern is found at the least offset outside literals
at which it occurs, counted in characters or in bytes, and not found just if there is
none. -/
theorem spots_agree {text : List Char} {tokens : List Token}
    (h : tokenize text = .ok tokens) :
    Reads text tokens (tokenSpans text) ∧
      Text.spots text =
        ((List.range text.length).filter fun offset => !hidden (tokenSpans text) offset).map
          (fun offset => ⟨offset, depthBefore (tokenSpans text) offset, text.drop offset⟩) ∧
      ∀ pattern, pattern ≠ [] →
        (Text.findOutside? text pattern = none ↔ occurrences text pattern = ∅) ∧
        (∀ offset, Text.findOutside? text pattern = some offset ↔
          IsLeast (occurrences text pattern) offset) ∧
        ∀ byte, (Text.findOutside? text pattern).map (Text.byteOffset text) = some byte ↔
          IsLeast (Text.byteOffset text '' occurrences text pattern) byte := by
  have hline : tokensAt 0 text = .ok tokens := tokensAt_of_ok h
  have hlayout := tokensAt_eq_ok_iff.mp hline
  refine ⟨hlayout.reads [], hlayout.spots_eq, fun pattern hpattern =>
    ⟨hlayout.findOutside?_eq_none_iff hpattern, fun offset =>
      hlayout.findOutside?_eq_some_iff hpattern, fun byte => ?_⟩⟩
  rw [Option.map_eq_some_iff]
  constructor
  · rintro ⟨offset, hfound, rfl⟩
    exact isLeast_byteOffset hpattern ((hlayout.findOutside?_eq_some_iff hpattern).mp hfound)
  · intro hbyte
    obtain ⟨offset, hoffset, -⟩ := hbyte.1
    have hleast := isLeast_csInf (Set.nonempty_of_mem hoffset)
    exact ⟨_, (hlayout.findOutside?_eq_some_iff hpattern).mpr hleast,
      (isLeast_byteOffset hpattern hleast).unique hbyte⟩

/-- A name that stands inside a literal first and then in a group, where a place is one
character and three bytes. -/
theorem spots_agree_examples :
    let text := "(\"나\"+(나))".toList
    let tokens : List Token :=
      [.leftParen, .text "나", .operator .plus, .leftParen, .name "나", .rightParen, .rightParen]
    tokenize text = .ok tokens ∧ ['나'] ≠ [] ∧
      (tokenSpans text).map (fun span => (span.start, span.stop)) =
        [(0, 1), (1, 4), (4, 5), (5, 6), (6, 7), (7, 8), (8, 9)] ∧
      (Text.spots text).map (fun spot => (spot.offset, spot.depth)) =
        [(0, 0), (1, 1), (4, 1), (5, 1), (6, 2), (7, 2), (8, 1)] ∧
      depthBefore (tokenSpans text) 6 = 2 ∧ IsLeast (occurrences text ['나']) 6 ∧
        IsLeast (Text.byteOffset text '' occurrences text ['나']) 8 := by
  intro text tokens
  have htokens : tokenize text = .ok tokens := by decide +kernel
  have hne : ['나'] ≠ [] := List.cons_ne_nil _ _
  have hfound : Text.findOutside? text ['나'] = some 6 := by decide +kernel
  obtain ⟨-, hleast, hbytes⟩ := (spots_agree htokens).2.2 ['나'] hne
  refine ⟨htokens, hne, by decide +kernel, by decide +kernel, by decide +kernel,
    (hleast 6).mp hfound, (hbytes 8).mp ?_⟩
  rw [hfound]
  rfl

end KoreanScript
