import KoreanScript.Proofs.Binary64
import KoreanScript.Proofs.Rounding
import KoreanScript.Proofs.Runs

/-!
# Printed numbers read back

Numbers are printed in one of two layouts, and a line of input is a number if it is a
numeral.  What both layouts have in common is that they are digits, further digits
after a point unless there are none, and a power of ten that may be missing.  Such a
text is read digit by digit as one decimal, so all that is left to do for a layout is to
compare that decimal with the one it was made from.  They need not be equal, as the
zeros that fill up a whole number become part of the mantissa, but their values are.

With the digits of the shortest decimal, which reads back, every finite number reads
back.  Only the sign of a zero is lost, since it is not printed.
-/

set_option autoImplicit false

namespace KoreanScript

namespace Number

theorem isSpace_of_isDigit {c : Char} (h : c.isDigit = true) : Text.isSpace c = false := by
  have hbounds : 48 ≤ c.toNat ∧ c.toNat ≤ 57 := Char.isDigit_iff_toNat.mp h
  simp only [Text.isSpace, Bool.or_eq_false_iff, Bool.and_eq_false_imp, decide_eq_true_eq,
    decide_eq_false_iff_not, beq_eq_false_iff_ne]
  omega

/-! ## Runs of digits -/

theorem isDigits_iff {text : List Char} :
    isDigits text = true ↔ text ≠ [] ∧ ∀ c ∈ text, c.isDigit = true := by
  simp [isDigits]

theorem isDigits_toDigits (n : Nat) : isDigits (Nat.toDigits 10 n) = true :=
  isDigits_iff.mpr ⟨List.ne_nil_of_length_pos Nat.length_toDigits_pos,
    fun _ hc => Nat.isDigit_of_mem_toDigits (by decide) (by decide) hc⟩

/-- A number is the value of its digits. -/
theorem digitsValue_toDigits (n : Nat) : digitsValue (Nat.toDigits 10 n) = n :=
  Nat.ofDigitChars_ten_toDigits

theorem digitsValue_zeros_append (zeros : Nat) (digits : List Char) :
    digitsValue (List.replicate zeros '0' ++ digits) = digitsValue digits := by
  rw [digitsValue, Nat.ofDigitChars_append, Nat.ofDigitChars_replicate_zero, Nat.mul_zero,
    digitsValue]

theorem digitsValue_append_zeros (digits : List Char) (zeros : Nat) :
    digitsValue (digits ++ List.replicate zeros '0') = digitsValue digits * 10 ^ zeros := by
  rw [digitsValue, Nat.ofDigitChars_append, Nat.ofDigitChars_replicate_zero, Nat.mul_comm,
    digitsValue]

/-! ## Numerals and their parts -/

/-- The further digits of a numeral, after a point unless there are none. -/
def pointed : List Char → List Char
  | [] => []
  | fraction => '.' :: fraction

theorem pointed_of_ne_nil {fraction : List Char} (h : fraction ≠ []) :
    pointed fraction = '.' :: fraction := by
  obtain ⟨c, more, rfl⟩ := List.exists_cons_of_ne_nil h
  rfl

/-- The ways in which a numeral asks for a power of ten. -/
inductive Asks : List Char → Int → Prop where
  | nothing : Asks [] 0
  | plus (n : Nat) : Asks ('e' :: '+' :: Nat.toDigits 10 n) n
  | minus (n : Nat) : Asks ('e' :: '-' :: Nat.toDigits 10 n) (-n)

theorem asks_signedPower (power : Int) : Asks ('e' :: signedPower power) power := by
  cases power with
  | ofNat n => exact .plus n
  | negSucc n => exact .minus (n + 1)

section Parts

variable {whole fraction rest : List Char} {power : Int}

/-- What starts with a digit has no sign. -/
theorem splitSign_append (hwhole : isDigits whole = true) :
    splitSign (whole ++ rest) = (false, whole ++ rest) := by
  obtain ⟨hne, hdigits⟩ := isDigits_iff.mp hwhole
  obtain ⟨first, more, rfl⟩ := List.exists_cons_of_ne_nil hne
  have hfirst : first.isDigit = true := hdigits first List.mem_cons_self
  rw [List.cons_append, splitSign]
  · rintro later ⟨⟩
    cases hfirst
  · rintro later ⟨⟩
    cases hfirst

theorem exponentPart?_of_asks (h : Asks rest power) : exponentPart? rest = some power := by
  cases h with
  | nothing => rfl
  | plus n => simp [exponentPart?, splitSign, isDigits_toDigits, digitsValue_toDigits]
  | minus n => simp [exponentPart?, splitSign, isDigits_toDigits, digitsValue_toDigits]

/-- The further digits end where the power of ten is asked for. -/
theorem splitFraction_pointed (hfraction : ∀ c ∈ fraction, c.isDigit = true)
    (hrest : Asks rest power) : splitFraction (pointed fraction ++ rest) = (fraction, rest) := by
  have htake : (fraction ++ rest).takeWhile Char.isDigit = fraction := by
    rw [List.takeWhile_append_of_pos hfraction]
    cases hrest <;> simp
  have hdrop : (fraction ++ rest).dropWhile Char.isDigit = rest := by
    rw [List.dropWhile_append_of_pos hfraction]
    cases hrest <;> rfl
  cases fraction with
  | nil => cases hrest <;> rfl
  | cons c more => exact Prod.ext htake hdrop

/-- **A numeral is read part by part.** -/
theorem readNumeral?_of_parts (hwhole : isDigits whole = true)
    (hfraction : ∀ c ∈ fraction, c.isDigit = true) (hrest : Asks rest power) :
    readNumeral? (whole ++ (pointed fraction ++ rest)) =
      some (false, ⟨digitsValue (whole ++ fraction), power - fraction.length⟩) := by
  obtain ⟨hne, hdigits⟩ := isDigits_iff.mp hwhole
  have htake : (whole ++ (pointed fraction ++ rest)).takeWhile Char.isDigit = whole := by
    rw [List.takeWhile_append_of_pos hdigits]
    cases fraction <;> cases hrest <;> simp [pointed]
  have hdrop : (whole ++ (pointed fraction ++ rest)).dropWhile Char.isDigit =
      pointed fraction ++ rest := by
    rw [List.dropWhile_append_of_pos hdigits]
    cases fraction <;> cases hrest <;> rfl
  simp [readNumeral?, splitSign_append hwhole, htake, hdrop, splitFraction_pointed hfraction hrest,
    exponentPart?_of_asks hrest, hne]

theorem solid_of_isDigits (h : ∀ c ∈ whole, c.isDigit = true) :
    ∀ c ∈ whole, Text.isSpace c = false :=
  fun c hc => isSpace_of_isDigit (h c hc)

theorem solid_pointed (h : ∀ c ∈ fraction, c.isDigit = true) :
    ∀ c ∈ pointed fraction, Text.isSpace c = false := by
  cases fraction with
  | nil => simp [pointed]
  | cons c more => exact List.forall_mem_cons.mpr ⟨by decide, solid_of_isDigits h⟩

theorem solid_of_asks (h : Asks rest power) : ∀ c ∈ rest, Text.isSpace c = false := by
  have hdigits (n : Nat) := solid_of_isDigits (isDigits_iff.mp (isDigits_toDigits n)).2
  cases h with
  | nothing => exact List.forall_mem_nil _
  | plus n => exact List.forall_mem_cons.mpr ⟨rfl, List.forall_mem_cons.mpr ⟨rfl, hdigits n⟩⟩
  | minus n => exact List.forall_mem_cons.mpr ⟨rfl, List.forall_mem_cons.mpr ⟨rfl, hdigits n⟩⟩

theorem solid_of_parts (hwhole : isDigits whole = true)
    (hfraction : ∀ c ∈ fraction, c.isDigit = true) (hrest : Asks rest power) :
    ∀ c ∈ whole ++ (pointed fraction ++ rest), Text.isSpace c = false :=
  List.forall_mem_append.mpr ⟨solid_of_isDigits (isDigits_iff.mp hwhole).2,
    List.forall_mem_append.mpr ⟨solid_pointed hfraction, solid_of_asks hrest⟩⟩

end Parts

/-! ## Layouts -/

/-- A text stands for a decimal if it is solid, has no sign and is read as a decimal
which rounds to the same magnitude. -/
structure StandsFor (text : List Char) (decimal : Decimal) : Prop where
  solid : ∀ c ∈ text, Text.isSpace c = false
  unsigned : splitSign text = (false, text)
  reads : ∃ read, readNumeral? text = some (false, read) ∧ read.bits = decimal.bits

theorem standsFor_of_parts {whole fraction rest : List Char} {power : Int} {decimal : Decimal}
    (hwhole : isDigits whole = true) (hfraction : ∀ c ∈ fraction, c.isDigit = true)
    (hrest : Asks rest power)
    (hbits : Decimal.bits ⟨digitsValue (whole ++ fraction), power - fraction.length⟩ =
      decimal.bits) :
    StandsFor (whole ++ (pointed fraction ++ rest)) decimal where
  solid := solid_of_parts hwhole hfraction hrest
  unsigned := splitSign_append hwhole
  reads := ⟨_, readNumeral?_of_parts hwhole hfraction hrest, hbits⟩

/-- **The shapes of a positional layout.**  Zeros stand between the point and the digits, or
behind the digits, or the point divides them. -/
inductive Placed (digits : List Char) : Int → List Char → Prop where
  | zeros (zeros : Nat) :
      Placed digits (-zeros - 1) ('0' :: '.' :: List.replicate zeros '0' ++ digits)
  | filled (zeros : Nat) :
      Placed digits (digits.length + zeros - 1) (digits ++ List.replicate zeros '0')
  | divided {whole fraction : List Char} (split : whole ++ fraction = digits)
      (before : whole ≠ []) (after : fraction ≠ []) :
      Placed digits (whole.length - 1) (whole ++ '.' :: fraction)

theorem placed_positional {digits : List Char} (h : digits ≠ []) (exponent : Int) :
    Placed digits exponent (positional digits exponent) := by
  cases exponent with
  | negSucc zeros =>
    have hexponent : Int.negSucc zeros = -zeros - 1 := by omega
    have hplaced : Placed digits (-zeros - 1) (positional digits (.negSucc zeros)) := .zeros zeros
    rwa [← hexponent] at hplaced
  | ofNat exponent =>
    rw [positional]
    split
    · next hshort =>
      have hexponent : Int.ofNat exponent =
          digits.length + (exponent + 1 - digits.length : Nat) - 1 := by
        rw [Int.ofNat_eq_natCast]
        omega
      exact hexponent ▸ .filled _
    · next hlong =>
      have hexponent : Int.ofNat exponent = (digits.take (exponent + 1)).length - 1 := by
        rw [List.length_take, Int.ofNat_eq_natCast]
        omega
      have hplaced := Placed.divided (List.take_append_drop (exponent + 1) digits)
        (by simp [h]) (by simpa using hlong)
      rwa [← hexponent] at hplaced

theorem exponential_cons (first : Char) (others : List Char) (exponent : Int) :
    exponential (first :: others) exponent =
      [first] ++ (pointed others ++ 'e' :: signedPower exponent) := by
  cases others <;> rfl

section Layouts

variable {digits : List Char}

/-- Less than one: zeros stand between the point and the digits. -/
theorem standsFor_zeros (h : isDigits digits = true) (zeros : Nat) :
    StandsFor ('0' :: '.' :: List.replicate zeros '0' ++ digits)
      ⟨digitsValue digits, -zeros - digits.length⟩ := by
  obtain ⟨hne, hdigits⟩ := isDigits_iff.mp h
  have hlayout : '0' :: '.' :: List.replicate zeros '0' ++ digits =
      ['0'] ++ (pointed (List.replicate zeros '0' ++ digits) ++ []) := by
    rw [pointed_of_ne_nil (List.append_ne_nil_of_right_ne_nil _ hne), List.append_nil]
    rfl
  have hvalue : digitsValue (['0'] ++ (List.replicate zeros '0' ++ digits)) = digitsValue digits :=
    digitsValue_zeros_append (zeros + 1) digits
  have hexponent : (0 : Int) - (List.replicate zeros '0' ++ digits).length =
      -zeros - digits.length := by
    rw [List.length_append, List.length_replicate]
    omega
  rw [hlayout]
  refine standsFor_of_parts rfl ?_ .nothing ?_
  · exact List.forall_mem_append.mpr ⟨fun c hc => List.eq_of_mem_replicate hc ▸ rfl, hdigits⟩
  · rw [hvalue, hexponent]

/-- A whole number: zeros are appended to the digits. -/
theorem standsFor_filled (h : isDigits digits = true) (zeros : Nat) :
    StandsFor (digits ++ List.replicate zeros '0') ⟨digitsValue digits, zeros⟩ := by
  obtain ⟨hne, hdigits⟩ := isDigits_iff.mp h
  have hlayout : digits ++ List.replicate zeros '0' =
      digits ++ List.replicate zeros '0' ++ (pointed [] ++ []) := by
    rw [pointed, List.append_nil, List.append_nil]
  rw [hlayout]
  refine standsFor_of_parts (isDigits_iff.mpr ⟨?_, ?_⟩) (by simp) .nothing ?_
  · exact List.append_ne_nil_of_left_ne_nil hne _
  · exact List.forall_mem_append.mpr ⟨hdigits, fun c hc => List.eq_of_mem_replicate hc ▸ rfl⟩
  · rw [List.append_nil, digitsValue_append_zeros, Decimal.bits_mul_ten_pow]
    simp

/-- Otherwise the point divides the digits. -/
theorem standsFor_divided {whole fraction : List Char} (hwhole : isDigits whole = true)
    (hfraction : isDigits fraction = true) :
    StandsFor (whole ++ '.' :: fraction) ⟨digitsValue (whole ++ fraction), -fraction.length⟩ := by
  obtain ⟨hne, hdigits⟩ := isDigits_iff.mp hfraction
  have hlayout : whole ++ '.' :: fraction = whole ++ (pointed fraction ++ []) := by
    rw [pointed_of_ne_nil hne, List.append_nil]
  rw [hlayout]
  exact standsFor_of_parts hwhole hdigits .nothing (by rw [Int.zero_sub])

/-- **Digits in positional layout stand for what they count.** -/
theorem standsFor_positional (h : isDigits digits = true) (exponent : Int) :
    StandsFor (positional digits exponent)
      ⟨digitsValue digits, exponent + 1 - digits.length⟩ := by
  obtain ⟨hne, hdigits⟩ := isDigits_iff.mp h
  have hplaced := placed_positional hne exponent
  generalize positional digits exponent = text at hplaced
  cases hplaced with
  | zeros zeros =>
    rw [Int.sub_add_cancel]
    exact standsFor_zeros h zeros
  | filled zeros =>
    have hexponent : (digits.length + zeros - 1 : Int) + 1 - digits.length = zeros := by omega
    rw [hexponent]
    exact standsFor_filled h zeros
  | @divided whole fraction split before after =>
    obtain ⟨hwhole, hfraction⟩ := List.forall_mem_append.mp (split ▸ hdigits)
    have hexponent : (whole.length - 1 : Int) + 1 - digits.length = -fraction.length := by
      rw [← split, List.length_append]
      omega
    rw [hexponent, ← split]
    exact standsFor_divided (isDigits_iff.mpr ⟨before, hwhole⟩) (isDigits_iff.mpr ⟨after, hfraction⟩)

/-- **Digits in exponential layout stand for what they count.** -/
theorem standsFor_exponential (h : isDigits digits = true) (exponent : Int) :
    StandsFor (exponential digits exponent)
      ⟨digitsValue digits, exponent + 1 - digits.length⟩ := by
  obtain ⟨hne, hdigits⟩ := isDigits_iff.mp h
  obtain ⟨first, others, rfl⟩ := List.exists_cons_of_ne_nil hne
  obtain ⟨hfirst, hothers⟩ := List.forall_mem_cons.mp hdigits
  rw [exponential_cons]
  refine standsFor_of_parts (isDigits_iff.mpr ⟨by simp, by simpa using hfirst⟩) hothers
    (asks_signedPower exponent) ?_
  have hexponent : exponent - others.length = exponent + 1 - (first :: others).length := by
    rw [List.length_cons]
    omega
  rw [hexponent, List.singleton_append]

end Layouts

/-- **A magnitude is written as a text that stands for its shortest decimal.** -/
theorem standsFor_renderMagnitude (b : Nat) : StandsFor (renderMagnitude b) (shortest b) := by
  rw [renderMagnitude]
  obtain ⟨mantissa, exponent⟩ := shortest b
  have hdigits := isDigits_toDigits mantissa
  have hexponent : exponent + (Nat.toDigits 10 mantissa).length - 1 + 1 -
      (Nat.toDigits 10 mantissa).length = exponent := by
    omega
  have hpositional := standsFor_positional hdigits
    (exponent + (Nat.toDigits 10 mantissa).length - 1)
  have hexponential := standsFor_exponential hdigits
    (exponent + (Nat.toDigits 10 mantissa).length - 1)
  rw [digitsValue_toDigits, hexponent] at hpositional hexponential
  split
  · exact hpositional
  · exact hexponential

/-! ## Numbers -/

/-- A minus in front of a numeral without a sign. -/
theorem readNumeral?_minus {text : List Char} {decimal : Decimal}
    (hunsigned : splitSign text = (false, text)) (h : readNumeral? text = some (false, decimal)) :
    readNumeral? ('-' :: text) = some (true, decimal) := by
  have hminus : splitSign ('-' :: text) = (true, text) := rfl
  simp only [readNumeral?, hunsigned, hminus, Option.ite_none_left_eq_some,
    Option.map_eq_some_iff, Prod.mk.injEq, true_and] at h ⊢
  exact h

/-- A text that stands for a decimal is input for it, also with a minus in front. -/
theorem ofInput?_of_standsFor {text : List Char} {decimal : Decimal} (h : StandsFor text decimal)
    (negative : Bool) :
    ofInput? ((if negative then ['-'] else []) ++ text) = some (decimal.toFloat negative) := by
  obtain ⟨read, hread, hbits⟩ := h.reads
  have hsolid : ∀ c ∈ (if negative then ['-'] else []) ++ text, Text.isSpace c = false := by
    cases negative with
    | false => exact h.solid
    | true => exact List.forall_mem_cons.mpr ⟨by decide, h.solid⟩
  have hsigned : readNumeral? ((if negative then ['-'] else []) ++ text) = some (negative, read) := by
    cases negative with
    | false => exact hread
    | true => exact readNumeral?_minus h.unsigned hread
  simp only [ofInput?, Text.trim_of_solid hsolid, hsigned, Option.map_some, Decimal.toFloat, hbits]

/-- A number, with zero in place of negative zero. -/
def withoutNegativeZero (value : Float) : Float :=
  if value = -0.0 then 0.0 else value

theorem withoutNegativeZero_of_zero {value : Float} (h : magnitude value = 0) :
    withoutNegativeZero value = 0.0 := by
  have hvalue := ofMagnitude_magnitude value
  rw [h] at hvalue
  rw [← hvalue]
  cases isNegative value <;> decide

theorem withoutNegativeZero_of_nonzero {value : Float} (h : magnitude value ≠ 0) :
    withoutNegativeZero value = value := by
  apply if_neg
  rintro rfl
  exact h (by decide)

/-- A finite number is read as it is printed. -/
theorem ofInput?_of_finite {value : Float} (h : value.isFinite = true) :
    ofInput? (render value).toList = some (withoutNegativeZero value) := by
  have hfinite : magnitude value < infinityBits := isFinite_iff.mp h
  rw [render, if_neg (Nat.lt_asymm hfinite), if_neg (Nat.ne_of_lt hfinite)]
  split
  · next hzero =>
    rw [withoutNegativeZero_of_zero hzero]
    decide
  · next hnonzero =>
    rw [String.toList_ofList, ofInput?_of_standsFor (standsFor_renderMagnitude _), Decimal.toFloat,
      bits_shortest hfinite, ofMagnitude_magnitude, withoutNegativeZero_of_nonzero hnonzero]

/-- The names of the special values are no numerals. -/
theorem ofInput?_of_special {value : Float} (h : value.isFinite = false) :
    ofInput? (render value).toList = none := by
  have hspecial : ¬magnitude value < infinityBits := by
    rw [← isFinite_iff, h]
    exact Bool.false_ne_true
  rw [render]
  split
  · decide
  · rw [if_pos (by omega)]
    split <;> decide

/-- Zero and negative zero are printed alike. -/
theorem render_withoutNegativeZero (value : Float) :
    render (withoutNegativeZero value) = render value := by
  rw [withoutNegativeZero]
  split
  · next hzero =>
    rw [hzero]
    decide
  · rfl

/-- Numbers printed alike are the same but for the sign of a zero. -/
theorem render_eq_render_iff {first second : Float} (hfirst : first.isFinite = true)
    (hsecond : second.isFinite = true) :
    render first = render second ↔ withoutNegativeZero first = withoutNegativeZero second := by
  constructor
  · intro h
    have hread := ofInput?_of_finite hfirst
    rw [h, ofInput?_of_finite hsecond] at hread
    exact (Option.some.inj hread).symm
  · intro h
    rw [← render_withoutNegativeZero first, h, render_withoutNegativeZero]

/-- What becomes of a number whose printed form is a line of input. -/
theorem ofInput_render (value : Float) :
    Value.ofInput (render value) =
      if value.isFinite then .number (withoutNegativeZero value) else .text (render value) := by
  cases h : value.isFinite with
  | true =>
    rw [Value.ofInput, ofInput?_of_finite h]
    rfl
  | false =>
    rw [Value.ofInput, ofInput?_of_special h]
    rfl

/-- A machine on an input statement asks for a line and stores what it is read as. -/
theorem step_of_input {machine : Machine} {frame : Frame} {below : List Frame} {line : Nat}
    {found : Line} {name prompt : String} (hat : machine.At frame below line)
    (hline : machine.program[line]? = some found) (hinput : found.statement = .input name prompt) :
    machine.step = machine.perform frame below (.request prompt name (line + 1)) := by
  apply hat.step_of_ok
  rw [Program.action, hline]
  simp only [hinput, Program.actionOf, locate]

/-- **Every finite number reads back as it was printed**, zero without its sign, and so
finite numbers are printed alike only if they are the same up to the sign of a zero.
The names of the special values are no numbers.  An input statement that is given the
printed form of a number thus stores a finite number as it was, and otherwise the text. -/
theorem render_reads_back :
    (∀ value : Float, value.isFinite = true →
      ofInput? (render value).toList = some (withoutNegativeZero value)) ∧
    (∀ first second : Float, first.isFinite = true → second.isFinite = true →
      (render first = render second ↔
        withoutNegativeZero first = withoutNegativeZero second)) ∧
    (∀ value : Float, value.isNaN = true ∨ value.isInf = true →
      ofInput? (render value).toList = none) ∧
    (∀ (machine : Machine) (frame : Frame) (below : List Frame) (line : Nat) (found : Line)
      (name prompt : String), machine.At frame below line →
      machine.program[line]? = some found → found.statement = .input name prompt →
      ∃ resume, machine.step = .request prompt resume ∧ ∀ value : Float,
        (resume (Value.number value).render).store = machine.store.set name
          (if value.isFinite then .number (withoutNegativeZero value)
            else .text (render value))) := by
  refine ⟨fun _ => ofInput?_of_finite, fun _ _ => render_eq_render_iff, ?_, ?_⟩
  · intro value hspecial
    exact ofInput?_of_special (isFinite_eq_false_iff.mpr hspecial)
  · intro machine frame below line found name prompt hat hline hinput
    refine ⟨_, step_of_input hat hline hinput, fun value => ?_⟩
    rw [← ofInput_render]
    rfl

/-- A program that asks for a value. -/
def asking : String := "x = 입력()"

/-- A great number, the least positive one, negative zero and infinity. -/
theorem render_reads_back_examples :
    (ofInput? (render 1e21).toList = some 1e21 ∧
      ofInput? (render (.ofBits 1)).toList = some (.ofBits 1) ∧
      ofInput? (render (-0.0)).toList = some 0.0) ∧
    (render 1e21 ≠ render (.ofBits 1) ∧ render (-0.0) = render 0.0) ∧
    ofInput? (render (1.0 / 0.0)).toList = none ∧
    ∃ resume, (Machine.start asking).step = .request "" resume ∧
      (resume (Value.number 1e21).render).store = Store.empty.set "x" (.number 1e21) := by
  obtain ⟨hfinite, halike, hspecial, hinput⟩ := render_reads_back
  have hdiffer : (1e21 : Float) ≠ .ofBits 1 := by decide
  have hat : (Machine.start asking).At (.ofBlock ⟨0, 1⟩) [] 0 := ⟨rfl, rfl, rfl⟩
  obtain ⟨resume, hstep, hstore⟩ :=
    hinput _ _ _ _ (.ofText asking.toList) "x" "" hat rfl (by decide +kernel)
  refine ⟨⟨hfinite 1e21 (by decide), hfinite (.ofBits 1) (by decide), hfinite (-0.0) (by decide)⟩,
    ⟨?_, ?_⟩, hspecial (1.0 / 0.0) (by decide), resume, hstep, hstore 1e21⟩
  · exact fun h => hdiffer ((halike 1e21 (.ofBits 1) (by decide) (by decide)).mp h)
  · exact (halike (-0.0) 0.0 (by decide) (by decide)).mpr (by decide)

end Number

end KoreanScript
