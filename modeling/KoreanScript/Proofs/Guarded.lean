import KoreanScript.Proofs.Slices

/-!
# Conditions on raw text

A condition is taken apart before anybody knows whether it is well-formed.  Its text may
have parentheses without partners, literals without an end, keywords side by side and
characters of any number of bytes, or it may be empty; it is evaluated all the same.

The guarded evaluation looks at its text by offsets in bytes, and it breaks off without an
outcome if it asks for a slice that does not exist, or if it is about to evaluate a part
that does not take fewer bytes than the trimmed condition.  It never breaks off: it has the
outcome of the condition for every text, and an error is on the line of the condition.
-/

set_option autoImplicit false

namespace KoreanScript

/-! ## Parts of a condition -/

namespace Text

theorem trim_isInfix (text : List Char) : trim text <:+: text := by
  obtain ⟨front, back, -, -, htext⟩ := exists_surrounded text
  exact ⟨front, back, by rw [List.append_assoc, ← htext]⟩

/-- Trimming never makes a text take more bytes. -/
theorem byteLength_trim_le (text : List Char) : byteLength (trim text) ≤ byteLength text := by
  obtain ⟨front, back, -, -, htext⟩ := exists_surrounded text
  have hlength := congrArg byteLength htext
  rw [byteLength_append, byteLength_append] at hlength
  omega

/-- The parts of a text stand in it. -/
theorem isInfix_of_mem_splitTopLevel {text keyword part : List Char} (hkeyword : keyword ≠ [])
    (hpart : part ∈ splitTopLevel text keyword) : part <:+: text := by
  obtain ⟨segment, hsegment, rfl⟩ := List.mem_map.mp hpart
  obtain ⟨front, back, hpieces⟩ := List.append_of_mem hsegment
  obtain ⟨follow, htext, -, -⟩ :=
    (cutting_segmentsFrom hkeyword Scan.start text).place hpieces
  exact (trim_isInfix segment).trans
    ⟨led keyword front, follow, by rw [htext, List.append_assoc]⟩

/-- When a text falls into several parts, each of them takes fewer bytes than the text. -/
theorem byteLength_lt_of_mem_splitTopLevel {text keyword part : List Char}
    (hkeyword : keyword ≠ []) (hmany : 1 < (splitTopLevel text keyword).length)
    (hpart : part ∈ splitTopLevel text keyword) : byteLength part < byteLength text :=
  byteLength_lt_of_isInfix (isInfix_of_mem_splitTopLevel hkeyword hpart)
    (length_lt_of_mem_splitTopLevel hkeyword hmany hpart)

/-- Parentheses around a text are two characters, even where nothing is between them. -/
theorem eq_of_isSpanned {text : List Char} (h : isSpanned text = true) :
    text = '(' :: (withoutEnds text ++ [')']) := by
  obtain ⟨hopens, hcloses, -⟩ := isSpanned_iff.mp h
  obtain ⟨rest, rfl⟩ := List.head?_eq_some_iff.mp hopens
  rcases List.eq_nil_or_concat' rest with rfl | ⟨inner, last, rfl⟩
  · cases hcloses
  · rw [← List.cons_append, List.getLast?_concat] at hcloses
    obtain rfl := Option.some.inj hcloses
    rw [withoutEnds, List.tail_cons, List.dropLast_concat]

/-- One byte less at either end leaves what the parentheses enclose. -/
theorem slice?_withoutEnds {text : List Char} (h : isSpanned text = true) :
    slice? text 1 (byteLength text - 1) = some (withoutEnds text) ∧
      byteLength (withoutEnds text) < byteLength text := by
  have htext := eq_of_isSpanned h
  have hlength := congrArg byteLength htext
  rw [byteLength_cons, byteLength_append] at hlength
  change byteLength text = 1 + (byteLength (withoutEnds text) + 1) at hlength
  refine ⟨slice?_eq_some_iff.mpr ⟨['('], [')'], htext, rfl, ?_⟩, by omega⟩
  rw [byteLength_append]
  change 1 + byteLength (withoutEnds text) = _
  omega

end Text

/-! ## Guarded evaluation -/

/-- An evaluation that may have an outcome, a value or a fault, or break off without one. -/
abbrev Guarded (α : Type) :=
  ExceptT Fault Option α

/-- The outcome of a computation on a line. -/
def onLine {α : Type} (line : Nat) (result : Except Cause α) : Guarded α :=
  ExceptT.mk (some (locate line result))

/-- A part of a text that takes fewer bytes than the text; nothing if it does not. -/
def shorter? (text part : List Char) :
    Option { part // Text.byteLength part < Text.byteLength text } :=
  if h : Text.byteLength part < Text.byteLength text then some ⟨part, h⟩ else none

/-- The first of some comparisons that occurs in a text, with the slices before and behind
it; no outcome if one of them does not exist. -/
def comparisonAtBytes? (text : List Char) :
    List Comparator → Option (Option (Comparator × List Char × List Char))
  | [] => some none
  | comparator :: others => do
    match ← Text.findByte? text comparator.symbol (Text.bytePlaces text) with
    | some offset =>
      let left ← Text.slice? text 0 offset
      let right ← Text.slice? text (offset + Text.byteLength comparator.symbol)
        (Text.byteLength text)
      return some (comparator, left, right)
    | none => comparisonAtBytes? text others

/-- The guarded evaluation of a single comparison. -/
def guardedSides (store : Store) (line : Nat) (text : List Char) : Guarded Bool := do
  match ← comparisonAtBytes? text Comparator.all with
  | some (comparator, left, right) =>
    let a ← onLine line (evaluate store left)
    let b ← onLine line (evaluate store right)
    onLine line (comparator.apply a b)
  | none =>
    let _ ← onLine line ((tokenize text).mapError Cause.lexical)
    onLine line (.error .missingComparator)

/-- The guarded evaluation of a condition.  All that is taken of its text are slices, and it
calls itself only on parts that take fewer bytes than the trimmed text. -/
def guardedCondition (store : Store) (line : Nat) (condition : List Char) : Guarded Bool := do
  let text := Text.trim condition
  if Text.isSpanned text then
    let inner ← shorter? text (← Text.slice? text 1 (Text.byteLength text - 1))
    guardedCondition store line inner.1
  else
    let alternatives ← Text.splitAtBytes? text orKeyword
    if 1 < alternatives.length then
      alternatives.anyM fun part => do
        let part ← shorter? text part
        guardedCondition store line part.1
    else
      let conjuncts ← Text.splitAtBytes? text andKeyword
      if 1 < conjuncts.length then
        conjuncts.allM fun part => do
          let part ← shorter? text part
          guardedCondition store line part.1
      else guardedSides store line text
termination_by Text.byteLength condition
decreasing_by
  · exact Nat.lt_of_lt_of_le inner.2 (Text.byteLength_trim_le condition)
  · exact Nat.lt_of_lt_of_le part.2 (Text.byteLength_trim_le condition)
  · exact Nat.lt_of_lt_of_le part.2 (Text.byteLength_trim_le condition)

/-! ## The guards never hold anything up -/

/-- What exists does not break off. -/
theorem Guarded.some_bind {α β : Type} (value : α) (next : α → Guarded β) :
    (liftM (some value) : Guarded α) >>= next = next value := rfl

section OnLine

variable {α β : Type} (line : Nat)

theorem onLine_bind (first : Except Cause α) (next : α → Except Cause β) :
    onLine line (first >>= next) = onLine line first >>= fun value => onLine line (next value) := by
  cases first <;> rfl

theorem onLine_anyM (f : α → Except Cause Bool) (l : List α) :
    onLine line (l.anyM f) = l.anyM fun part => onLine line (f part) := by
  induction l with
  | nil => rfl
  | cons part l ih =>
    simp only [List.anyM_cons, onLine_bind]
    congr 1
    funext found
    cases found with
    | true => rfl
    | false => exact ih

theorem onLine_allM (f : α → Except Cause Bool) (l : List α) :
    onLine line (l.allM f) = l.allM fun part => onLine line (f part) := by
  induction l with
  | nil => rfl
  | cons part l ih =>
    simp only [List.allM_cons, onLine_bind]
    congr 1
    funext found
    cases found with
    | true => exact ih
    | false => rfl

end OnLine

theorem anyM_congr {m : Type → Type} [Monad m] {α : Type} {f g : α → m Bool} {l : List α}
    (h : ∀ part ∈ l, f part = g part) : l.anyM f = l.anyM g := by
  rw [← anyM_attach l f, ← anyM_attach l g]
  exact congrArg l.attach.anyM (funext fun part => h part.1 part.2)

theorem allM_congr {m : Type → Type} [Monad m] {α : Type} {f g : α → m Bool} {l : List α}
    (h : ∀ part ∈ l, f part = g part) : l.allM f = l.allM g := by
  rw [← allM_attach l f, ← allM_attach l g]
  exact congrArg l.attach.allM (funext fun part => h part.1 part.2)

/-- **The sides of a comparison are slices.** -/
theorem comparisonAtBytes?_eq (text : List Char) (comparators : List Comparator) :
    comparisonAtBytes? text comparators =
      some (comparators.findSome? fun comparator =>
        (Text.findOutside? text comparator.symbol).map fun offset =>
          (comparator, text.take offset, text.drop (offset + comparator.symbol.length))) := by
  induction comparators with
  | nil => rfl
  | cons comparator others ih =>
    rw [comparisonAtBytes?, Text.findByte?_eq, List.findSome?_cons]
    cases hfound : Text.findOutside? text comparator.symbol with
    | none => exact ih
    | some offset =>
      obtain ⟨before, rfl, rest, rfl, -, -, tail, rfl⟩ := Text.occursAfter_of_findOutside? hfound
      have hleft := Text.slice?_append [] before (comparator.symbol ++ tail)
      have hright := Text.slice?_back (before ++ comparator.symbol) tail
      rw [List.append_assoc, Text.byteLength_append] at hright
      rw [Text.byteLength_nil, Nat.zero_add, List.nil_append] at hleft
      simp only [Option.map_some, Option.bind_eq_bind, Option.bind_some, Text.byteOffset_append,
        hleft, hright, List.take_left, ← List.drop_drop, List.drop_left]
      rfl

theorem guardedSides_eq (store : Store) (line : Nat) (text : List Char) :
    guardedSides store line text = onLine line (compareSides store text) := by
  rw [guardedSides, comparisonAtBytes?_eq, compareSides, splitComparison?]
  cases Comparator.all.findSome? fun comparator =>
      (Text.findOutside? text comparator.symbol).map fun offset =>
        (comparator, text.take offset, text.drop (offset + comparator.symbol.length)) with
  | none => exact (onLine_bind line _ _).symm
  | some found =>
    simp only [onLine_bind]
    rfl

/-- **A guarded evaluation does what the evaluation does.** -/
theorem guardedCondition_eq (store : Store) (line : Nat) (condition : List Char) :
    guardedCondition store line condition = onLine line (evaluateCondition store condition) := by
  -- The evaluation calls itself on texts with fewer bytes, as the guards demand.
  have hor : orKeyword ≠ [] := by decide
  have hand : andKeyword ≠ [] := by decide
  induction hlength : Text.byteLength condition using Nat.strongRecOn generalizing condition with
  | ind length ih =>
    subst hlength
    have hpart (part : List Char)
        (h : Text.byteLength part < Text.byteLength (Text.trim condition)) :
        (do let part ← (shorter? (Text.trim condition) part : Guarded _)
            guardedCondition store line part.1) = onLine line (evaluateCondition store part) := by
      rw [shorter?, dif_pos h]
      exact ih _ (Nat.lt_of_lt_of_le h (Text.byteLength_trim_le condition)) part rfl
    have hparts (keyword : List Char) (hkeyword : keyword ≠ [])
        (hmany : 1 < (Text.splitTopLevel (Text.trim condition) keyword).length) :
        ∀ part ∈ Text.splitTopLevel (Text.trim condition) keyword,
          (do let part ← (shorter? (Text.trim condition) part : Guarded _)
              guardedCondition store line part.1) =
            onLine line (evaluateCondition store part) := fun part hmem =>
      hpart part (Text.byteLength_lt_of_mem_splitTopLevel hkeyword hmany hmem)
    rw [guardedCondition, evaluateCondition_eq]
    by_cases hspanned : Text.isSpanned (Text.trim condition) = true
    · obtain ⟨hslice, hshorter⟩ := Text.slice?_withoutEnds hspanned
      simp only [if_pos hspanned, hslice, Guarded.some_bind]
      exact hpart _ hshorter
    simp only [if_neg hspanned, Text.splitAtBytes?_eq hor, Text.splitAtBytes?_eq hand,
      Guarded.some_bind]
    by_cases halternatives : 1 < (Text.splitTopLevel (Text.trim condition) orKeyword).length
    · rw [if_pos halternatives, if_pos halternatives, onLine_anyM]
      exact anyM_congr (hparts orKeyword hor halternatives)
    rw [if_neg halternatives, if_neg halternatives]
    by_cases hconjuncts : 1 < (Text.splitTopLevel (Text.trim condition) andKeyword).length
    · rw [if_pos hconjuncts, if_pos hconjuncts, onLine_allM]
      exact allM_congr (hparts andKeyword hand hconjuncts)
    rw [if_neg hconjuncts, if_neg hconjuncts, guardedSides_eq]

/-- **A condition has an outcome, whatever its text.**  The guarded evaluation does not break
off: it asks for no slice that does not exist, and it calls itself only on parts that take
fewer bytes than the trimmed condition.  Its outcome is that of the condition, and an error
is on the given line. -/
theorem guardedCondition_run (store : Store) (line : Nat) (condition : List Char) :
    (guardedCondition store line condition).run = some (outcomeAt store line condition) ∧
      ∀ fault, outcomeAt store line condition = .error fault → fault.line = line := by
  constructor
  · rw [guardedCondition_eq]
    rfl
  · intro fault hfault
    exact (locate_eq_error_iff.mp hfault).1

/-- A text with parentheses around it the first of which stays open, nothing between two
keywords, and a literal without an end. -/
theorem guardedCondition_run_unclosed :
    let condition := "　((1 > 2) 또는  또는 \"나 < 2)".toList
    let fault : Fault := ⟨7, .missingComparator⟩
    Text.isSpanned (Text.trim condition) = true ∧
      (guardedCondition .empty 7 condition).run = some (.error fault) ∧ fault.line = 7 := by
  intro condition fault
  have houtcome : outcomeAt .empty 7 condition = .error fault := by decide +kernel
  obtain ⟨hrun, hline⟩ := guardedCondition_run .empty 7 condition
  exact ⟨by decide +kernel, by rw [hrun, houtcome], hline fault houtcome⟩

end KoreanScript
