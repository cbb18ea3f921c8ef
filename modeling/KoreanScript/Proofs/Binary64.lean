import Mathlib
import KoreanScript.Number.Shortest

/-!
# Binary64 numbers and their magnitudes

Numbers are rounded, read and printed through their patterns.  A number is given by
its sign and its magnitude, and the finite numbers are those whose magnitude is below
that of infinity, which is where the field of the exponent has a zero.

That a number is packed into the word it was unpacked from (`Float.ofBits_toBits`) comes
with the whole of Mathlib only, and none of its modules is enough here.
-/

set_option autoImplicit false

namespace KoreanScript.Number

open Float.Model (UnpackedFloat)
open Float.Model.UnpackedFloat (unpackExponent unpackMantissa)

/-! ## Numbers and their patterns -/

theorem isNegative_iff {value : Float} :
    isNegative value = true ↔ signBit ≤ value.toBits.toNat := by
  rw [isNegative, decide_eq_true_iff]

/-- **A number is the one with its sign and magnitude.** -/
theorem ofMagnitude_magnitude (value : Float) :
    ofMagnitude (isNegative value) (magnitude value) = value := by
  have hbound := value.toBits.toNat_lt
  have hbits : (if isNegative value then signBit + magnitude value else magnitude value) =
      value.toBits.toNat := by
    simp only [isNegative_iff, magnitude, signBit]
    split <;> omega
  rw [ofMagnitude, hbits, UInt64.ofNat_toNat, Float.ofBits_toBits]

/-! ## Kinds of numbers -/

/-- The exponent field of a number. -/
def exponentField (value : Float) : BitVec 11 :=
  @unpackExponent .binary64 value.toBits.toBitVec

/-- The field with the significand of a number, without the hidden bit. -/
def significandField (value : Float) : BitVec 52 :=
  @unpackMantissa .binary64 value.toBits.toBitVec

/-- A magnitude is made of its two fields. -/
theorem magnitude_eq (value : Float) :
    magnitude value =
      (exponentField value).toNat * hiddenBit + (significandField value).toNat := by
  have hexponent : (exponentField value).toNat = value.toBits.toNat / 2 ^ 52 % 2 ^ 11 := by
    simp [exponentField, unpackExponent, Nat.shiftRight_eq_div_pow]
  have hsignificand : (significandField value).toNat = value.toBits.toNat % 2 ^ 52 := by
    simp [significandField, unpackMantissa]
  have hbound := value.toBits.toNat_lt
  rw [hexponent, hsignificand, magnitude, signBit, hiddenBit]
  omega

/-- Finite numbers are those whose exponent field has a zero. -/
theorem isFinite_iff_exponentField {value : Float} :
    value.isFinite = true ↔ exponentField value ≠ -1#11 := by
  change (UnpackedFloat.unpack .binary64 value.toBits.toBitVec).isFinite = true ↔ _
  rw [UnpackedFloat.unpack]
  simp only
  split
  · next hones =>
    refine iff_of_false ?_ (not_not.mpr hones)
    split <;> exact Bool.false_ne_true
  · next hones =>
    refine iff_of_true ?_ hones
    split
    · split <;> rfl
    · rfl

/-- **Finite numbers have the magnitudes below infinity.** -/
theorem isFinite_iff {value : Float} : value.isFinite = true ↔ magnitude value < infinityBits := by
  have hexponent := (exponentField value).isLt
  have hsignificand := (significandField value).isLt
  rw [isFinite_iff_exponentField, ne_eq, ← BitVec.toNat_inj, magnitude_eq]
  change (exponentField value).toNat ≠ 2047 ↔ _
  rw [hiddenBit, infinityBits]
  omega

theorem isFinite_eq_false_iff {value : Float} :
    value.isFinite = false ↔ value.isNaN = true ∨ value.isInf = true := by
  change value.toModel.unpack.isFinite = false ↔
    value.toModel.unpack.isNaN = true ∨ value.toModel.unpack.isInf = true
  generalize value.toModel.unpack = unpacked
  cases unpacked <;>
    simp [UnpackedFloat.isFinite, UnpackedFloat.isNaN, UnpackedFloat.isInf]

end KoreanScript.Number
