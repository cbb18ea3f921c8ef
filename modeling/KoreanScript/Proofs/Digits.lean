import KoreanScript.Proofs.ReadBack

/-!
# What digits count

A run of digits is read from the left, the value so far times ten plus the next digit.
What it stands for is told by places: each digit counts as often as a power of ten says,
the last one once.  This is the only notion of value that statements about numerals
refer to.

Loop counts are the first of them.  Their value is exact up to the limit, and a text
whose value is not below the limit is no count at all, so nothing ever wraps around.
-/

set_option autoImplicit false

namespace KoreanScript.Number

/-! ## Places -/

/-- What a decimal digit counts. -/
def digit (c : Char) : Nat :=
  c.toNat - '0'.toNat

/-- What a run of decimal digits counts, each digit in its place. -/
def placeValue : List Char → Nat
  | [] => 0
  | c :: rest => digit c * 10 ^ rest.length + placeValue rest

/-- **Reading digits from the left gives what they count.** -/
theorem digitsValue_eq_placeValue (digits : List Char) :
    digitsValue digits = placeValue digits := by
  induction digits with
  | nil => rfl
  | cons c rest ih =>
    calc digitsValue (c :: rest)
      _ = Nat.ofDigitChars 10 rest (10 * 0 + digit c) := Nat.ofDigitChars_cons
      _ = 10 ^ rest.length * digit c + digitsValue rest := by
        rw [Nat.mul_zero, Nat.zero_add, Nat.ofDigitChars_eq_ofDigitChars_zero, digitsValue]
      _ = placeValue (c :: rest) := by rw [ih, Nat.mul_comm, placeValue]

theorem placeValue_append (whole fraction : List Char) :
    placeValue (whole ++ fraction) =
      placeValue whole * 10 ^ fraction.length + placeValue fraction := by
  induction whole with
  | nil => simp [placeValue]
  | cons c rest ih =>
    rw [List.cons_append, placeValue, ih, List.length_append, placeValue]
    ring

theorem digit_le {c : Char} (h : c.isDigit = true) : digit c ≤ 9 := by
  obtain ⟨-, hupper⟩ := Char.isDigit_iff_toNat.mp h
  exact Nat.sub_le_sub_right hupper _

/-- Digits count differently. -/
theorem digit_injective {c d : Char} (hc : c.isDigit = true) (hd : d.isDigit = true)
    (h : digit c = digit d) : c = d := by
  have hclower : '0'.toNat ≤ c.toNat := (Char.isDigit_iff_toNat.mp hc).1
  have hdlower : '0'.toNat ≤ d.toNat := (Char.isDigit_iff_toNat.mp hd).1
  rw [digit, digit] at h
  exact Char.toNat_inj.mp (by omega)

/-- So many digits count less than the power of ten. -/
theorem placeValue_lt {digits : List Char} (h : ∀ c ∈ digits, c.isDigit = true) :
    placeValue digits < 10 ^ digits.length := by
  induction digits with
  | nil => exact Nat.one_pos
  | cons c rest ih =>
    obtain ⟨hc, hrest⟩ := List.forall_mem_cons.mp h
    calc placeValue (c :: rest)
      _ < digit c * 10 ^ rest.length + 10 ^ rest.length := Nat.add_lt_add_left (ih hrest) _
      _ ≤ 9 * 10 ^ rest.length + 10 ^ rest.length :=
        Nat.add_le_add_right (Nat.mul_le_mul_right _ (digit_le hc)) _
      _ = 10 ^ (c :: rest).length := by
        rw [List.length_cons, Nat.pow_succ]
        omega

/-- A first digit other than zero counts a power of ten at least. -/
theorem le_placeValue_cons {c : Char} (h : c.isDigit = true) (hzero : c ≠ '0')
    (rest : List Char) : 10 ^ rest.length ≤ placeValue (c :: rest) := by
  have hpos : 1 ≤ digit c := by
    rw [Nat.one_le_iff_ne_zero]
    exact fun heq => hzero (digit_injective h rfl heq)
  exact (Nat.le_mul_of_pos_left _ hpos).trans (Nat.le_add_right _ _)

/-- The last digit is what is left of a division by ten. -/
theorem placeValue_concat_mod {c : Char} (h : c.isDigit = true) (digits : List Char) :
    placeValue (digits ++ [c]) % 10 = digit c := by
  have hvalue : placeValue (digits ++ [c]) = placeValue digits * 10 + digit c := by
    rw [placeValue_append]
    simp [placeValue]
  have := digit_le h
  omega

section Alike

variable {first second more others : List Char}

/-- What digits count tells what those up to a place count, and those behind it. -/
theorem placeValue_append_inj (hmore : ∀ c ∈ more, c.isDigit = true)
    (hothers : ∀ c ∈ others, c.isDigit = true) (hlength : more.length = others.length)
    (h : placeValue (first ++ more) = placeValue (second ++ others)) :
    placeValue first = placeValue second ∧ placeValue more = placeValue others := by
  have hless := placeValue_lt hmore
  have hless' := placeValue_lt hothers
  rw [hlength] at hless
  rw [placeValue_append, placeValue_append, hlength, Nat.mul_comm, Nat.mul_comm _ (10 ^ _)] at h
  have hquotient := congrArg (· / 10 ^ others.length) h
  simp only [Nat.mul_add_div (Nat.pow_pos Nat.succ_pos'), Nat.div_eq_of_lt hless,
    Nat.div_eq_of_lt hless', Nat.add_zero] at hquotient
  rw [hquotient] at h
  exact ⟨hquotient, Nat.add_left_cancel h⟩

/-- Runs of as many digits that count alike are one. -/
theorem eq_of_placeValue_eq (hfirst : ∀ c ∈ first, c.isDigit = true)
    (hsecond : ∀ c ∈ second, c.isDigit = true) (hlength : first.length = second.length)
    (h : placeValue first = placeValue second) : first = second := by
  induction first generalizing second with
  | nil => exact (List.eq_nil_of_length_eq_zero hlength.symm).symm
  | cons c rest ih =>
    cases second with
    | nil => cases hlength
    | cons d others =>
      obtain ⟨hc, hrest⟩ := List.forall_mem_cons.mp hfirst
      obtain ⟨hd, hothers⟩ := List.forall_mem_cons.mp hsecond
      have hlengths : rest.length = others.length := Nat.succ.inj hlength
      have hjoined : placeValue ([c] ++ rest) = placeValue ([d] ++ others) := h
      obtain ⟨hhead, htail⟩ := placeValue_append_inj hrest hothers hlengths hjoined
      have hone (e : Char) : placeValue [e] = digit e := by
        simp [placeValue]
      rw [hone, hone] at hhead
      rw [digit_injective hc hd hhead, ih hrest hothers hlengths htail]

end Alike

/-! ## Loop counts -/

/-- **A loop count is a run of digits that counts less than `2 ^ 64`**, and what it counts. -/
theorem count?_eq_some_iff {text : List Char} {n : Nat} :
    count? text = some n ↔
      text ≠ [] ∧ (∀ c ∈ text, c.isDigit = true) ∧ placeValue text = n ∧ n < 2 ^ 64 := by
  have hlimit : countLimit = 2 ^ 64 := rfl
  rw [count?, Option.ite_none_right_eq_some, Bool.and_eq_true, decide_eq_true_eq,
    isDigits_iff, digitsValue_eq_placeValue, hlimit, Option.some.injEq]
  constructor
  · rintro ⟨⟨⟨hne, hdigits⟩, hvalue⟩, rfl⟩
    exact ⟨hne, hdigits, rfl, hvalue⟩
  · rintro ⟨hne, hdigits, rfl, hvalue⟩
    exact ⟨⟨⟨hne, hdigits⟩, hvalue⟩, rfl⟩

/-- Leading zeros change nothing, the greatest count is read, and the next one is not. -/
example : count? "007".toList = some 7 ∧
    count? "18446744073709551615".toList = some (2 ^ 64 - 1) ∧
      count? "18446744073709551616".toList = none := by
  decide +kernel

end KoreanScript.Number
