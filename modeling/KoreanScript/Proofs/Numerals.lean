import KoreanScript.Proofs.Digits
import KoreanScript.Proofs.Lexing
import KoreanScript.Proofs.Nearest

/-!
# Numerals and the input they are

A line of input is told from a text by a reader that takes digits as long as there are
any, then a point and more digits, and then whatever is left as an exponent.  The grammar
of numerals says the same without a reader: an optional sign, digits with an optional
point of which at least one is there, and an optional exponent.  Each part of the grammar
carries its exact value, the value of the whole is the product of the mantissa and a power
of ten, and no part limits the number of its digits.

The reader accepts the numerals and nothing else (`readNumeral?_sound`,
`exists_readNumeral?`).  The decimal that it makes of a numeral may have the digits of the
fraction in its mantissa, but it has the value of the numeral, and so it is read as the
number that this value rounds to.
-/

set_option autoImplicit false

namespace KoreanScript

namespace Number

/-! ## The grammar of numerals -/

/-- A run of at least one decimal digit. -/
structure IsRun (text : List Char) : Prop where
  nonempty : text ≠ []
  digits : ∀ c ∈ text, c.isDigit = true

/-- A text with an optional sign in front; the flag is set for a minus. -/
inductive Signed : Bool → List Char → List Char → Prop where
  | absent (text : List Char) : Signed false text text
  | plus (text : List Char) : Signed false text ('+' :: text)
  | minus (text : List Char) : Signed true text ('-' :: text)

/-- Digits with an optional point, and what they count. -/
inductive Mantissa : ℚ → List Char → Prop where
  | whole {digits : List Char} (run : IsRun digits) : Mantissa (placeValue digits) digits
  | pointed {digits fraction : List Char} (run : IsRun digits)
      (more : ∀ c ∈ fraction, c.isDigit = true) :
      Mantissa (placeValue digits + placeValue fraction / 10 ^ fraction.length)
        (digits ++ '.' :: fraction)
  | fraction {fraction : List Char} (run : IsRun fraction) :
      Mantissa (placeValue fraction / 10 ^ fraction.length) ('.' :: fraction)

/-- An optional power of ten. -/
inductive Power : ℤ → List Char → Prop where
  | absent : Power 0 []
  | present {letter : Char} {negative : Bool} {digits text : List Char}
      (marker : letter = 'e' ∨ letter = 'E') (signed : Signed negative digits text)
      (run : IsRun digits) :
      Power (if negative then -placeValue digits else placeValue digits) (letter :: text)

/-- **A numeral** with its sign and its exact value without the sign. -/
inductive Numeral : Bool → ℚ → List Char → Prop where
  | mk {negative : Bool} {mantissa : ℚ} {power : ℤ} {front back text : List Char}
      (isMantissa : Mantissa mantissa front) (isPower : Power power back)
      (signed : Signed negative (front ++ back) text) :
      Numeral negative (mantissa * 10 ^ power) text

/-! ## Signs -/

theorem isDigits_iff_isRun {text : List Char} : isDigits text = true ↔ IsRun text :=
  isDigits_iff.trans ⟨fun h => ⟨h.1, h.2⟩, fun h => ⟨h.nonempty, h.digits⟩⟩

/-- A text that cannot be taken for a signed one. -/
def Unsigned (text : List Char) : Prop :=
  ∀ c ∈ text.head?, c ≠ '-' ∧ c ≠ '+'

theorem unsigned_of_digits {text : List Char} (h : ∀ c ∈ text, c.isDigit = true) :
    Unsigned text := by
  intro c hc
  have hdigit := h c (List.mem_of_mem_head? hc)
  constructor <;> rintro rfl <;> cases hdigit

theorem signed_splitSign (text : List Char) :
    Signed (splitSign text).1 (splitSign text).2 text := by
  unfold splitSign
  split
  · exact .minus _
  · exact .plus _
  · exact .absent _

theorem Signed.splitSign_eq {negative : Bool} {unsigned text : List Char}
    (h : Signed negative unsigned text) (hunsigned : Unsigned unsigned) :
    splitSign text = (negative, unsigned) := by
  cases h with
  | absent =>
    unfold splitSign
    split
    · exact absurd rfl (hunsigned '-' rfl).1
    · exact absurd rfl (hunsigned '+' rfl).2
    · rfl
  | plus => rfl
  | minus => rfl

/-! ## Powers of ten -/

/-- **The end of a numeral is read as the power of ten that it is.** -/
theorem exponentPart?_eq_some_iff {text : List Char} {power : ℤ} :
    exponentPart? text = some power ↔ Power power text := by
  constructor
  · intro h
    cases text with
    | nil =>
      cases h
      exact .absent
    | cons letter rest =>
      simp only [exponentPart?, Option.ite_none_right_eq_some, Bool.and_eq_true, Bool.or_eq_true,
        beq_iff_eq, isDigits_iff_isRun, Option.some.injEq, digitsValue_eq_placeValue] at h
      obtain ⟨⟨hletter, hrun⟩, rfl⟩ := h
      exact .present hletter (signed_splitSign rest) hrun
  · intro h
    cases h with
    | absent => rfl
    | present marker signed run =>
      have hsplit := signed.splitSign_eq (unsigned_of_digits run.digits)
      simp only [exponentPart?, hsplit, Option.ite_none_right_eq_some, Bool.and_eq_true,
        Bool.or_eq_true, beq_iff_eq, isDigits_iff_isRun, digitsValue_eq_placeValue]
      exact ⟨⟨marker, run⟩, trivial⟩

/-- The end of a numeral goes on neither with a digit nor with a point. -/
theorem Power.head {power : ℤ} {text : List Char} (h : Power power text) :
    ∀ c ∈ text.head?, c.isDigit = false ∧ c ≠ '.' := by
  cases h with
  | absent => nofun
  | present marker =>
    intro c hc
    obtain rfl := Option.some.inj hc
    rcases marker with rfl | rfl <;> decide

/-! ## Digits around a point -/

/-- The digits before and after the point of a mantissa. -/
structure Parts (whole fraction text : List Char) : Prop where
  before : ∀ c ∈ whole, c.isDigit = true
  after : ∀ c ∈ fraction, c.isDigit = true
  nonempty : ¬(whole = [] ∧ fraction = [])
  layout : text = whole ∧ fraction = [] ∨ text = whole ++ '.' :: fraction

/-- Digits around a point count as if there were no point, divided by a power of ten. -/
theorem placeValue_append_div (whole fraction : List Char) :
    (placeValue (whole ++ fraction) : ℚ) / 10 ^ fraction.length =
      placeValue whole + placeValue fraction / 10 ^ fraction.length := by
  rw [placeValue_append]
  push_cast
  field_simp

/-- A mantissa is the value of its digits. -/
theorem Mantissa.exists_parts {mantissa : ℚ} {text : List Char} (h : Mantissa mantissa text) :
    ∃ whole fraction, Parts whole fraction text ∧
      mantissa = placeValue (whole ++ fraction) / 10 ^ fraction.length := by
  cases h with
  | whole run =>
    refine ⟨text, [], ⟨run.digits, List.forall_mem_nil _, fun h => run.nonempty h.1,
      .inl ⟨rfl, rfl⟩⟩, ?_⟩
    rw [List.append_nil, List.length_nil, pow_zero, div_one]
  | @pointed digits fraction run more =>
    exact ⟨digits, fraction, ⟨run.digits, more, fun h => run.nonempty h.1, .inr rfl⟩,
      (placeValue_append_div digits fraction).symm⟩
  | @fraction fraction run =>
    exact ⟨[], fraction, ⟨List.forall_mem_nil _, run.digits, fun h => run.nonempty h.2, .inr rfl⟩,
      rfl⟩

/-- Digits around a point are a mantissa. -/
theorem Parts.mantissa {whole fraction text : List Char} (h : Parts whole fraction text) :
    Mantissa (placeValue (whole ++ fraction) / 10 ^ fraction.length) text := by
  obtain ⟨hbefore, hafter, hnonempty, ⟨rfl, rfl⟩ | rfl⟩ := h
  · rw [List.append_nil, List.length_nil, pow_zero, div_one]
    exact .whole ⟨fun h => hnonempty ⟨h, rfl⟩, hbefore⟩
  · obtain rfl | hwhole := eq_or_ne whole []
    · exact .fraction ⟨fun h => hnonempty ⟨rfl, h⟩, hafter⟩
    · rw [placeValue_append_div]
      exact .pointed ⟨hwhole, hbefore⟩ hafter

/-- The reader finds the digits of a mantissa. -/
theorem Parts.read {whole fraction front back : List Char} (h : Parts whole fraction front)
    (hback : ∀ c ∈ back.head?, c.isDigit = false ∧ c ≠ '.') :
    (front ++ back).takeWhile Char.isDigit = whole ∧
      splitFraction ((front ++ back).dropWhile Char.isDigit) = (fraction, back) := by
  have hdigit : ∀ c ∈ back.head?, c.isDigit = false := fun c hc => (hback c hc).1
  obtain ⟨hbefore, hafter, -, ⟨rfl, rfl⟩ | rfl⟩ := h
  · rw [takeWhile_append_of_head hbefore hdigit, dropWhile_append_of_head hbefore hdigit]
    refine ⟨rfl, ?_⟩
    unfold splitFraction
    split
    · exact absurd rfl (hback '.' rfl).2
    · rfl
  · have hpoint : ∀ c ∈ ('.' :: (fraction ++ back)).head?, c.isDigit = false := by
      intro c hc
      obtain rfl := Option.some.inj hc
      rfl
    rw [List.append_assoc, List.cons_append, takeWhile_append_of_head hbefore hpoint,
      dropWhile_append_of_head hbefore hpoint, splitFraction,
      takeWhile_append_of_head hafter hdigit, dropWhile_append_of_head hafter hdigit]
    exact ⟨rfl, rfl⟩

/-- What the reader finds, unless it is nothing, is a mantissa at the start of the text. -/
theorem exists_front {text : List Char} {fraction rest : List Char}
    (hsplit : splitFraction (text.dropWhile Char.isDigit) = (fraction, rest))
    (h : ¬(text.takeWhile Char.isDigit = [] ∧ fraction = [])) :
    ∃ front, Parts (text.takeWhile Char.isDigit) fraction front ∧ text = front ++ rest := by
  have hbefore : ∀ c ∈ text.takeWhile Char.isDigit, c.isDigit = true := fun c hc =>
    List.all_eq_true.mp List.all_takeWhile c hc
  have htext : text = text.takeWhile Char.isDigit ++ text.dropWhile Char.isDigit :=
    List.takeWhile_append_dropWhile.symm
  generalize text.takeWhile Char.isDigit = whole at *
  generalize text.dropWhile Char.isDigit = later at *
  subst htext
  unfold splitFraction at hsplit
  split at hsplit
  · next more =>
    cases hsplit
    refine ⟨whole ++ '.' :: more.takeWhile Char.isDigit, ⟨hbefore, ?_, h, .inr rfl⟩, ?_⟩
    · exact fun c hc => List.all_eq_true.mp List.all_takeWhile c hc
    · rw [List.append_assoc, List.cons_append, List.takeWhile_append_dropWhile]
  · cases hsplit
    exact ⟨whole, ⟨hbefore, List.forall_mem_nil _, h, .inl ⟨rfl, rfl⟩⟩, rfl⟩

/-- A mantissa has no sign. -/
theorem Parts.unsigned {whole fraction front : List Char} (h : Parts whole fraction front)
    (back : List Char) : Unsigned (front ++ back) := by
  have hhead : ∀ c ∈ (front ++ back).head?, c.isDigit = true ∨ c = '.' := by
    intro c hc
    obtain ⟨hbefore, -, hnonempty, hlayout⟩ := h
    cases whole with
    | nil =>
      obtain ⟨-, rfl⟩ | rfl := hlayout
      · exact absurd ⟨rfl, rfl⟩ hnonempty
      · exact .inr (Option.some.inj hc).symm
    | cons d others =>
      have hd : c = d := by
        obtain ⟨rfl, -⟩ | rfl := hlayout <;> exact (Option.some.inj hc).symm
      exact .inl (hd ▸ hbefore d List.mem_cons_self)
  intro c hc
  obtain hdigit | rfl := hhead c hc
  · constructor <;> rintro rfl <;> cases hdigit
  · decide

/-! ## Numerals -/

/-- The decimal of a mantissa and a power of ten has the value of both together. -/
theorem value_mk (digits : List Char) (power : ℤ) (places : Nat) :
    Decimal.value ⟨digitsValue digits, power - places⟩ =
      placeValue digits / 10 ^ places * 10 ^ power := by
  rw [Decimal.value, digitsValue_eq_placeValue, zpow_sub₀ (by norm_num), zpow_natCast]
  ring

/-- **What is read as a decimal is a numeral with its value.** -/
theorem readNumeral?_sound {text : List Char} {negative : Bool} {decimal : Decimal}
    (h : readNumeral? text = some (negative, decimal)) :
    Numeral negative decimal.value text := by
  obtain ⟨sign, unsigned, hsign⟩ : ∃ sign unsigned, splitSign text = (sign, unsigned) :=
    ⟨_, _, rfl⟩
  obtain ⟨fraction, rest, hfraction⟩ :
      ∃ fraction rest, splitFraction (unsigned.dropWhile Char.isDigit) = (fraction, rest) :=
    ⟨_, _, rfl⟩
  have hsigned := signed_splitSign text
  rw [hsign] at hsigned
  simp only [readNumeral?, hsign, hfraction, Option.ite_none_left_eq_some, Bool.and_eq_true,
    List.isEmpty_iff, Option.map_eq_some_iff, Prod.mk.injEq] at h
  obtain ⟨hnonempty, power, hpower, rfl, rfl⟩ := h
  obtain ⟨front, hparts, rfl⟩ := exists_front hfraction hnonempty
  rw [value_mk]
  exact .mk hparts.mantissa (exponentPart?_eq_some_iff.mp hpower) hsigned

/-- **Every numeral is read as a decimal with its value.** -/
theorem exists_readNumeral? {text : List Char} {negative : Bool} {exact : ℚ}
    (h : Numeral negative exact text) :
    ∃ decimal, readNumeral? text = some (negative, decimal) ∧ decimal.value = exact := by
  cases h with
  | @mk _ power _ back _ isMantissa isPower signed =>
    obtain ⟨whole, fraction, hparts, rfl⟩ := isMantissa.exists_parts
    obtain ⟨hwhole, hfraction⟩ := hparts.read isPower.head
    have hsign := signed.splitSign_eq (hparts.unsigned back)
    have hnonempty : ¬(whole.isEmpty && fraction.isEmpty) = true := by
      simpa using hparts.nonempty
    refine ⟨⟨digitsValue (whole ++ fraction), power - fraction.length⟩, ?_, value_mk _ _ _⟩
    simp only [readNumeral?, hsign, hwhole, hfraction, if_neg hnonempty,
      exponentPart?_eq_some_iff.mpr isPower, Option.map_some]

end Number

/-! ## Lines of input -/

namespace Value

open Number

/-- A line of input that is a numeral is the number that its value rounds to. -/
theorem ofInput_of_numeral {line : String} {negative : Bool} {exact : ℚ}
    (h : Numeral negative exact (Text.trim line.toList)) :
    ∃ value, ofInput line = .number value ∧ RoundsTo negative exact value := by
  obtain ⟨decimal, hread, rfl⟩ := exists_readNumeral? h
  refine ⟨decimal.toFloat negative, ?_, decimal.roundsTo_toFloat negative⟩
  simp only [ofInput, ofInput?, hread, Option.map_some]

/-- A line of input that is no numeral is a text. -/
theorem ofInput_of_not_numeral {line : String}
    (h : ¬∃ negative exact, Numeral negative exact (Text.trim line.toList)) :
    ofInput line = .text line := by
  have hread : readNumeral? (Text.trim line.toList) = none := by
    rw [Option.eq_none_iff_forall_ne_some]
    rintro ⟨negative, decimal⟩ hsome
    exact h ⟨negative, decimal.value, readNumeral?_sound hsome⟩
  simp only [ofInput, ofInput?, hread, Option.map_none]

/-- **A line of input is a number just if it is a numeral.**  White space at its ends is
left aside, and then the line is a numeral just if it reads as an optional sign, digits
with an optional point, and an optional power of ten.  The number has the sign of the
numeral and is the one that the exact value rounds to: the nearest, the even one of two,
and infinity from half a step beyond the greatest finite number on.  Any other line is a
text, with its white space. -/
theorem ofInput_numeral (line : String) :
    ((∃ value, ofInput line = .number value) ↔
        ∃ negative exact, Numeral negative exact (Text.trim line.toList)) ∧
      (∀ negative exact, Numeral negative exact (Text.trim line.toList) →
        ∃ value, ofInput line = .number value ∧
          (∀ other, RoundsTo negative exact other ↔ other = value) ∧
            (value.isInf = true ↔ (2 : ℚ) ^ 1024 - 2 ^ 970 ≤ exact)) ∧
        ((¬∃ negative exact, Numeral negative exact (Text.trim line.toList)) →
          ofInput line = .text line) := by
  refine ⟨⟨?_, ?_⟩, ?_, ofInput_of_not_numeral⟩
  · rintro ⟨value, hvalue⟩
    by_contra hnumeral
    cases hvalue.symm.trans (ofInput_of_not_numeral hnumeral)
  · rintro ⟨negative, exact, hnumeral⟩
    obtain ⟨value, hvalue, -⟩ := ofInput_of_numeral hnumeral
    exact ⟨value, hvalue⟩
  · intro negative exact hnumeral
    obtain ⟨value, hvalue, hrounds⟩ := ofInput_of_numeral hnumeral
    refine ⟨value, hvalue, fun other => ⟨fun hother => hother.unique hrounds, ?_⟩,
      hrounds.isInf_iff⟩
    rintro rfl
    exact hrounds

/-- A numeral with a sign, a point and an exponent, and one without any digit. -/
theorem ofInput_numeral_examples :
    Numeral true (1 / 20) "-.5E-1".toList ∧
      (∃ value, ofInput " -.5E-1\t" = .number value ∧
        ∀ other, RoundsTo true (1 / 20) other ↔ other = value) ∧
        ¬∃ negative exact, Numeral negative exact "+.e5".toList := by
  have hnumeral : Numeral true (1 / 20) "-.5E-1".toList := by
    have hrun (c : Char) (hc : c.isDigit = true) : IsRun [c] :=
      ⟨List.cons_ne_nil c [], List.forall_mem_singleton.mpr hc⟩
    have hfront : Mantissa _ ['.', '5'] := .fraction (hrun '5' rfl)
    have hback : Power _ ['E', '-', '1'] :=
      .present (.inr rfl) (.minus ['1']) (hrun '1' rfl)
    have hparts : Numeral true _ "-.5E-1".toList := .mk hfront hback (.minus _)
    have hvalue : (1 : ℚ) / 20 = (placeValue ['5'] : ℚ) / 10 ^ ['5'].length *
        10 ^ (if true then -(placeValue ['1'] : ℤ) else placeValue ['1']) := by
      have hfive : placeValue ['5'] = 5 := rfl
      have hone : placeValue ['1'] = 1 := rfl
      rw [hfive, hone]
      norm_num
    rwa [hvalue]
  obtain ⟨value, hvalue, hrounds, -⟩ := (ofInput_numeral " -.5E-1\t").2.1 true (1 / 20) hnumeral
  refine ⟨hnumeral, ⟨value, hvalue, hrounds⟩, fun h => ?_⟩
  obtain ⟨number, hnumber⟩ := (ofInput_numeral "+.e5").1.mpr h
  have htext : ofInput "+.e5" = .text "+.e5" := by decide
  cases hnumber.symm.trans htext

end Value

end KoreanScript
