import KoreanScript.Expression
import KoreanScript.Text.TopLevel

/-!
# Conditions

A condition is taken apart as text.  Parentheses that span all of it are removed;
otherwise it falls into alternatives at the word for *or*, one of which has to
hold, or into conjuncts at the word for *and*, all of which have to hold, and
otherwise it is one comparison.  Parts are evaluated from left to right and only
as far as needed, so an error in a later part does not surface.

The comparison of a part is the first of the six in a fixed order that occurs
outside text literals; comparisons of two characters come first, so that none of
them is taken for a shorter one.
-/

set_option autoImplicit false

namespace KoreanScript

/-! ## Comparisons -/

/-- The six comparisons. -/
inductive Comparator where
  | greaterEqual
  | lessEqual
  | equal
  | notEqual
  | greater
  | less
  deriving DecidableEq

/-- The order in which two values stand; not a number stands in none. -/
def Value.order? : Value → Value → Option Ordering
  | .number a, .number b =>
    if a < b then some .lt
    else if a == b then some .eq
    else if b < a then some .gt
    else none
  | .text a, .text b => some (compare a b)
  | _, _ => none

/-- A number and a text have no order. -/
def Cause.incomparable (left right : Value) : Cause :=
  .typeMismatch (left.typeName ++ "와(과) " ++ right.typeName ++ "은(는) 크기를 비교할 수 없어요")

namespace Comparator

/-- All comparisons, in the order in which they are looked for. -/
def all : List Comparator :=
  [.greaterEqual, .lessEqual, .equal, .notEqual, .greater, .less]

/-- A comparison as it is written. -/
def symbol : Comparator → List Char
  | .greaterEqual => ['>', '=']
  | .lessEqual => ['<', '=']
  | .equal => ['=', '=']
  | .notEqual => ['!', '=']
  | .greater => ['>']
  | .less => ['<']

/-- Whether a comparison holds of values that stand in a given order. -/
def holds : Comparator → Option Ordering → Bool
  | .greaterEqual, order => order == some .gt || order == some .eq
  | .lessEqual, order => order == some .lt || order == some .eq
  | .equal, order => order == some .eq
  | .notEqual, order => order != some .eq
  | .greater, order => order == some .gt
  | .less, order => order == some .lt

/-- Whether a comparison asks for more than equality. -/
def needsOrder : Comparator → Bool
  | .equal | .notEqual => false
  | _ => true

/-- The outcome of a comparison.  A number and a text are never equal, and neither
is greater. -/
def apply (comparator : Comparator) (left right : Value) : Except Cause Bool :=
  if comparator.needsOrder && left.typeName != right.typeName then
    .error (.incomparable left right)
  else .ok (comparator.holds (left.order? right))

/-- **A number and a text are not equal, and there is no order between them.** -/
theorem apply_of_typeName_ne {left right : Value} (h : left.typeName ≠ right.typeName)
    (comparator : Comparator) :
    comparator.apply left right =
      if comparator = .equal then .ok false
      else if comparator = .notEqual then .ok true
      else .error (.incomparable left right) := by
  have hnone : left.order? right = none := by
    cases left <;> cases right <;> first | rfl | exact absurd rfl h
  have htypes : (left.typeName != right.typeName) = true := bne_iff_ne.mpr h
  rw [apply, hnone, htypes]
  cases comparator <;> rfl

end Comparator

/-! ## Single comparisons -/

/-- The comparison that a condition is, with the texts on its two sides. -/
def splitComparison? (text : List Char) : Option (Comparator × List Char × List Char) :=
  Comparator.all.findSome? fun comparator =>
    (Text.findOutside? text comparator.symbol).map fun offset =>
      (comparator, text.take offset, text.drop (offset + comparator.symbol.length))

/-- The outcome of a condition that is a single comparison.  An unclosed literal
hides a comparison behind it, so it is reported first. -/
def compareSides (store : Store) (text : List Char) : Except Cause Bool :=
  match splitComparison? text with
  | some (comparator, left, right) => do
    let a ← evaluate store left
    let b ← evaluate store right
    comparator.apply a b
  | none => do
    let _ ← (tokenize text).mapError Cause.lexical
    .error .missingComparator

/-! ## Composed conditions -/

/-- The word between alternatives, with the blanks that belong to it. -/
def orKeyword : List Char := [' ', '또', '는', ' ']

/-- The word between conjuncts, with the blanks that belong to it. -/
def andKeyword : List Char := [' ', '그', '리', '고', ' ']

/-- A text without its first and its last character. -/
def withoutEnds (text : List Char) : List Char :=
  text.tail.dropLast

theorem length_withoutEnds_lt {text : List Char} (h : Text.isSpanned text = true) :
    (withoutEnds text).length < text.length := by
  cases text with
  | nil => simp [Text.isSpanned] at h
  | cons c rest =>
    simp only [withoutEnds, List.tail_cons, List.length_dropLast, List.length_cons]
    omega

/-- **The outcome of a condition.** -/
def evaluateCondition (store : Store) (condition : List Char) : Except Cause Bool :=
  let text := Text.trim condition
  let alternatives := Text.splitTopLevel text orKeyword
  let conjuncts := Text.splitTopLevel text andKeyword
  if _hspanned : Text.isSpanned text then evaluateCondition store (withoutEnds text)
  else if _hor : 1 < alternatives.length then
    alternatives.attach.anyM fun part => evaluateCondition store part.1
  else if _hand : 1 < conjuncts.length then
    conjuncts.attach.allM fun part => evaluateCondition store part.1
  else compareSides store text
termination_by condition.length
decreasing_by
  · exact Nat.lt_of_lt_of_le (length_withoutEnds_lt _hspanned) (Text.length_trim_le condition)
  · exact Nat.lt_of_lt_of_le
      (Text.length_lt_of_mem_splitTopLevel (by decide) _hor part.2) (Text.length_trim_le condition)
  · exact Nat.lt_of_lt_of_le
      (Text.length_lt_of_mem_splitTopLevel (by decide) _hand part.2) (Text.length_trim_le condition)

/-! ## The outcome without the bookkeeping of its recursion -/

theorem anyM_attach {m : Type → Type} [Monad m] {α : Type} (l : List α) (f : α → m Bool) :
    (l.attach.anyM fun part => f part.1) = l.anyM f := by
  conv => rhs; rw [← List.attach_map_subtype_val l]
  generalize l.attach = parts
  induction parts with
  | nil => rfl
  | cons part parts ih => simp only [List.map_cons, List.anyM_cons, ih]

theorem allM_attach {m : Type → Type} [Monad m] {α : Type} (l : List α) (f : α → m Bool) :
    (l.attach.allM fun part => f part.1) = l.allM f := by
  conv => rhs; rw [← List.attach_map_subtype_val l]
  generalize l.attach = parts
  induction parts with
  | nil => rfl
  | cons part parts ih => simp only [List.map_cons, List.allM_cons, ih]

/-- The four cases of a condition, in the order in which they are tried. -/
theorem evaluateCondition_eq (store : Store) (condition : List Char) :
    evaluateCondition store condition =
      let text := Text.trim condition
      let alternatives := Text.splitTopLevel text orKeyword
      let conjuncts := Text.splitTopLevel text andKeyword
      if Text.isSpanned text then evaluateCondition store (withoutEnds text)
      else if 1 < alternatives.length then alternatives.anyM (evaluateCondition store)
      else if 1 < conjuncts.length then conjuncts.allM (evaluateCondition store)
      else compareSides store text := by
  rw [evaluateCondition]
  simp only [anyM_attach, allM_attach, dite_eq_ite]

end KoreanScript
