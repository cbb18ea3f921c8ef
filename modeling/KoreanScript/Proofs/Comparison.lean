import KoreanScript.Proofs.Composition
import KoreanScript.Proofs.Lexing

/-!
# Readings of a comparison

A reading of a text as a comparison takes it apart into a left side, one of the six
symbols and a right side.  A reading succeeds when both sides have values.

No character of a symbol can stand outside quotes in an expression that has a value.
So, outside literals, a text with a reading that succeeds holds such characters only
in the symbol of that reading; and as the right side does not begin with an equals
sign, a longer symbol does not fit there.  Hence the search in fixed order, which
looks at neither side and passes over parentheses, finds this very reading, and no
other one succeeds.
-/

set_option autoImplicit false

namespace KoreanScript

/-! ## Readings -/

/-- A text taken apart at the symbol of a comparison. -/
structure Reading where
  left : List Char
  comparator : Comparator
  right : List Char

namespace Reading

/-- The text that is taken apart. -/
def text (reading : Reading) : List Char :=
  reading.left ++ reading.comparator.symbol ++ reading.right

/-- A reading whose sides have these values. -/
structure Yields (reading : Reading) (store : Store) (a b : Value) : Prop where
  left : evaluate store reading.left = .ok a
  right : evaluate store reading.right = .ok b

/-- A reading both of whose sides have values. -/
def Succeeds (reading : Reading) (store : Store) : Prop :=
  ∃ a b, reading.Yields store a b

end Reading

/-! ## Sides that have values -/

/-- A text whose quotes can be paired, with nothing outside them that cannot stand there. -/
structure IsLexical (text : List Char) : Prop where
  quotes : text.count '"' % 2 = 0
  outside : ∀ c ∈ Text.outside text, isLexical c = true

/-- An expression that has a value has tokens. -/
theorem isLexical_of_evaluate {store : Store} {text : List Char} {value : Value}
    (h : evaluate store text = .ok value) : IsLexical text := by
  obtain ⟨tokens, htokens, -⟩ := bind_eq_ok_iff.mp h
  cases verdict text with
  | stray _ eq =>
    rw [eq] at htokens
    cases htokens
  | unclosed _ _ eq =>
    rw [eq] at htokens
    cases htokens
  | laidOut offence quotes _ => exact ⟨quotes, offence?_eq_none_iff.mp offence⟩

namespace Comparator

/-- No character of a symbol can stand outside quotes in an expression. -/
theorem isLexical_symbol (comparator : Comparator) :
    ∀ c ∈ comparator.symbol, isLexical c = false := by
  have hall : comparator.symbol.all (!isLexical ·) = true := by
    cases comparator <;> decide
  simpa using hall

theorem quote_not_mem_symbol (comparator : Comparator) : '"' ∉ comparator.symbol := by
  cases comparator <;> decide

/-- Symbols are not empty. -/
theorem symbol_ne_nil (comparator : Comparator) : comparator.symbol ≠ [] := by
  cases comparator <;> exact List.cons_ne_nil _ _

/-- The comparisons that are looked for before another one do not begin its symbol. -/
theorem not_isPrefix_of_mem_before (comparator : Comparator) :
    ∀ other ∈ all.takeWhile (· ≠ comparator), ¬other.symbol <+: comparator.symbol := by
  cases comparator <;> decide

example : all.map (fun comparator => String.ofList comparator.symbol) =
    [">=", "<=", "==", "!=", ">", "<"] := by
  decide

theorem all_eq_append (comparator : Comparator) :
    all = all.takeWhile (· ≠ comparator) ++ comparator ::
      (all.dropWhile (· ≠ comparator)).tail := by
  cases comparator <;> rfl

/-- In front of a text without an equals sign at its beginning, only a symbol that begins
another one can be taken for it. -/
theorem symbol_isPrefix {comparator other : Comparator} {rest : List Char}
    (hrest : rest.head? ≠ some '=') (h : other.symbol <+: comparator.symbol ++ rest) :
    other.symbol <+: comparator.symbol := by
  cases rest with
  | nil => rwa [List.append_nil] at h
  | cons c rest =>
    have hc : c ≠ '=' := fun heq => hrest (congrArg some heq)
    revert h
    cases comparator <;> cases other <;> simp [symbol, Ne.symm hc]

/-- No symbol begins inside another one, unless an equals sign follows. -/
theorem eq_nil_of_symbol_eq_append {comparator other : Comparator} {front back rest : List Char}
    {c : Char} (hsymbol : comparator.symbol = front ++ c :: back)
    (hrest : rest.head? ≠ some '=') (h : other.symbol <+: c :: (back ++ rest)) : front = [] := by
  cases front with
  | nil => rfl
  | cons first others =>
    -- the second character of a symbol is its last one, and an equals sign
    have hsecond : c = '=' ∧ back = [] := by
      cases comparator <;> simp_all [symbol, List.singleton_eq_append_iff]
    obtain ⟨rfl, rfl⟩ := hsecond
    obtain ⟨tail, htail⟩ := h
    cases other <;> simp [symbol] at htail
    exact absurd (congrArg List.head? htail.symm) hrest

end Comparator

/-! ## The one place of a symbol -/

namespace Reading

variable {store : Store} {reading : Reading}

/-- A character of a joined text stands in the first part or in the second. -/
theorem mem_left_or_right {left right before after : List Char} {c : Char}
    (h : left ++ right = before ++ c :: after) :
    (∃ between, left = before ++ c :: between ∧ after = between ++ right) ∨
      ∃ between, before = left ++ between ∧ right = between ++ c :: after := by
  rcases List.append_eq_append_iff.mp h with ⟨between, hbefore, hright⟩ | ⟨shared, hleft, hshared⟩
  · exact .inr ⟨between, hbefore, hright⟩
  · cases shared with
    | nil => exact .inr ⟨[], by rw [hleft, List.append_nil, List.append_nil], hshared.symm⟩
    | cons d between =>
      obtain ⟨rfl, hafter⟩ := List.cons.inj hshared
      exact .inl ⟨between, hleft, hafter⟩

/-- The scan knows of no literal behind a text whose quotes are paired. -/
theorem inLiteral_after_append {front : List Char} (hfront : front.count '"' % 2 = 0)
    (back : List Char) :
    (Text.Scan.start.after (front ++ back)).inLiteral =
      (Text.Scan.start.after back).inLiteral := by
  rw [Text.Scan.inLiteral_after, Text.Scan.inLiteral_after, List.count_append]
  congr 3
  omega

theorem Succeeds.left (h : reading.Succeeds store) : IsLexical reading.left := by
  obtain ⟨a, b, hyields⟩ := h
  exact isLexical_of_evaluate hyields.left

theorem Succeeds.right (h : reading.Succeeds store) : IsLexical reading.right := by
  obtain ⟨a, b, hyields⟩ := h
  exact isLexical_of_evaluate hyields.right

/-- The right side does not begin with an equals sign. -/
theorem Succeeds.head?_right (h : reading.Succeeds store) : reading.right.head? ≠ some '=' := by
  intro hhead
  obtain ⟨rest, hrest⟩ := List.head?_eq_some_iff.mp hhead
  have hmem : '=' ∈ Text.outside reading.right :=
    hrest ▸ @Text.mem_outside [] rest '=' rfl (by decide)
  cases (h.right.outside _ hmem).symm.trans (by decide : isLexical '=' = false)

/-- Outside literals, a character that cannot stand in an expression is in the symbol. -/
theorem Succeeds.split_of_stray (h : reading.Succeeds store) {before rest : List Char} {c : Char}
    (htext : reading.text = before ++ c :: rest)
    (hliteral : (Text.Scan.start.after before).inLiteral = false)
    (hstray : isLexical c = false) (hquote : c ≠ '"') :
    ∃ front back, before = reading.left ++ front ∧
      reading.comparator.symbol = front ++ c :: back ∧ rest = back ++ reading.right := by
  have hnotLeft : c ∉ Text.outside reading.left := fun hmem =>
    Bool.false_ne_true (hstray.symm.trans (h.left.outside c hmem))
  have hnotRight : c ∉ Text.outside reading.right := fun hmem =>
    Bool.false_ne_true (hstray.symm.trans (h.right.outside c hmem))
  have hsymbolQuotes : reading.comparator.symbol.count '"' % 2 = 0 := by
    rw [List.count_eq_zero_of_not_mem reading.comparator.quote_not_mem_symbol]
  rw [text, List.append_assoc] at htext
  rcases mem_left_or_right htext with ⟨between, hleft, -⟩ | ⟨front, rfl, hfront⟩
  · exact absurd (hleft ▸ Text.mem_outside hliteral hquote) hnotLeft
  · rw [inLiteral_after_append h.left.quotes] at hliteral
    rcases mem_left_or_right hfront with ⟨back, hsymbol, hback⟩ | ⟨between, rfl, hright⟩
    · exact ⟨front, back, rfl, hsymbol, hback⟩
    · rw [inLiteral_after_append hsymbolQuotes] at hliteral
      exact absurd (hright ▸ Text.mem_outside hliteral hquote) hnotRight

/-- **A symbol that occurs outside literals occurs behind the left side**, and begins the
symbol that stands there. -/
theorem Succeeds.eq_left_of_occursAfter (h : reading.Succeeds store) {comparator : Comparator}
    {before : List Char} (hoccurs : Text.OccursAfter reading.text comparator.symbol before) :
    before = reading.left ∧ comparator.symbol <+: reading.comparator.symbol := by
  obtain ⟨rest, htext, -, hliteral, hstarts⟩ := hoccurs
  obtain ⟨c, others, hsymbol⟩ := List.exists_cons_of_ne_nil comparator.symbol_ne_nil
  have hc : c ∈ comparator.symbol := hsymbol ▸ List.mem_cons_self
  have hquote : c ≠ '"' := ne_of_mem_of_not_mem hc comparator.quote_not_mem_symbol
  obtain ⟨tail, rfl⟩ := hstarts
  rw [hsymbol, List.cons_append] at htext
  obtain ⟨front, back, rfl, hplace, hrest⟩ :=
    h.split_of_stray htext hliteral (comparator.isLexical_symbol c hc) hquote
  have hahead : comparator.symbol <+: c :: (back ++ reading.right) :=
    ⟨tail, by rw [← hrest, hsymbol, List.cons_append]⟩
  obtain rfl := Comparator.eq_nil_of_symbol_eq_append hplace h.head?_right hahead
  rw [List.nil_append] at hplace
  rw [← List.cons_append, ← hplace] at hahead
  exact ⟨List.append_nil _, Comparator.symbol_isPrefix h.head?_right hahead⟩

/-- The symbol of a reading occurs behind its left side. -/
theorem Succeeds.occursAfter_left (h : reading.Succeeds store) :
    Text.OccursAfter reading.text reading.comparator.symbol reading.left := by
  refine ⟨reading.comparator.symbol ++ reading.right, List.append_assoc _ _ _, ?_, ?_,
    List.prefix_append _ _⟩
  · exact fun hnil => reading.comparator.symbol_ne_nil (List.append_eq_nil_iff.mp hnil).1
  · rw [Text.Scan.inLiteral_after, h.left.quotes]
    rfl

/-! ## The search finds the reading -/

/-- **The search finds a reading that succeeds.** -/
theorem Succeeds.splitComparison?_eq (h : reading.Succeeds store) :
    splitComparison? reading.text = some (reading.comparator, reading.left, reading.right) := by
  have hfound : Text.findOutside? reading.text reading.comparator.symbol =
      some reading.left.length := by
    cases hoffset : Text.findOutside? reading.text reading.comparator.symbol with
    | none => exact absurd h.occursAfter_left (Text.findOutside?_eq_none_iff.mp hoffset _)
    | some offset =>
      obtain ⟨before, rfl, hoccurs⟩ := Text.occursAfter_of_findOutside? hoffset
      rw [(h.eq_left_of_occursAfter hoccurs).1]
  have hearlier : ∀ other ∈ Comparator.all.takeWhile (· ≠ reading.comparator),
      Text.findOutside? reading.text other.symbol = none := by
    intro other hother
    refine Text.findOutside?_eq_none_iff.mpr fun before hoccurs => ?_
    exact reading.comparator.not_isPrefix_of_mem_before other hother
      (h.eq_left_of_occursAfter hoccurs).2
  have hsides : reading.text.take reading.left.length = reading.left ∧
      reading.text.drop (reading.left.length + reading.comparator.symbol.length) =
        reading.right := by
    rw [text, ← List.length_append, List.drop_left, List.append_assoc, List.take_left]
    exact ⟨rfl, rfl⟩
  rw [splitComparison?, List.findSome?_eq_some_iff]
  refine ⟨_, reading.comparator, _, reading.comparator.all_eq_append, ?_, fun other hother => ?_⟩
  · rw [hfound, Option.map_some, hsides.1, hsides.2]
  · rw [hearlier other hother, Option.map_none]

end Reading

/-- What the search finds is a reading of the text. -/
theorem exists_reading_of_splitComparison? {text left right : List Char} {comparator : Comparator}
    (h : splitComparison? text = some (comparator, left, right)) :
    (⟨left, comparator, right⟩ : Reading).text = text := by
  obtain ⟨found, -, hfound⟩ := List.exists_of_findSome?_eq_some h
  obtain ⟨offset, hoffset, heq⟩ := Option.map_eq_some_iff.mp hfound
  cases heq
  obtain ⟨before, rfl, rest, rfl, -, -, tail, rfl⟩ := Text.occursAfter_of_findOutside? hoffset
  rw [Reading.text, List.take_left, ← List.drop_drop, List.drop_left, List.drop_left,
    List.append_assoc]

/-- The outcome of a comparison is that of its reading. -/
theorem compareSides_eq_ok_iff {store : Store} {text : List Char} {holds : Bool} :
    compareSides store text = .ok holds ↔
      ∃ (reading : Reading) (a b : Value), reading.text = text ∧ reading.Yields store a b ∧
        reading.comparator.apply a b = .ok holds := by
  constructor
  · intro h
    unfold compareSides at h
    split at h
    · next comparator left right hsplit =>
      obtain ⟨a, ha, h⟩ := bind_eq_ok_iff.mp h
      obtain ⟨b, hb, h⟩ := bind_eq_ok_iff.mp h
      exact ⟨⟨left, comparator, right⟩, a, b, exists_reading_of_splitComparison? hsplit,
        ⟨ha, hb⟩, h⟩
    · obtain ⟨tokens, -, h⟩ := bind_eq_ok_iff.mp h
      cases h
  · rintro ⟨reading, a, b, rfl, hyields, happly⟩
    have hsucceeds : reading.Succeeds store := ⟨a, b, hyields⟩
    rw [compareSides, hsucceeds.splitComparison?_eq]
    refine bind_eq_ok_iff.mpr ⟨a, hyields.left, ?_⟩
    exact bind_eq_ok_iff.mpr ⟨b, hyields.right, happly⟩

/-! ## Single comparisons -/

/-- A trimmed text without parentheses around it and without cuts is a single comparison. -/
theorem evaluateCondition_of_uncut (store : Store) {text : List Char}
    (htrim : Text.trim text = text) (hspanned : Text.isSpanned text = false)
    (hor : Text.Uncut orKeyword Text.Scan.start text)
    (hand : Text.Uncut andKeyword Text.Scan.start text) :
    evaluateCondition store text = compareSides store text := by
  have hone {keyword : List Char} (h : Text.Uncut keyword Text.Scan.start text) :
      ¬1 < (Text.splitTopLevel text keyword).length := by
    rw [Text.splitTopLevel, Text.segments, Text.segmentsFrom_of_uncut h, List.map_singleton]
    exact Nat.lt_irrefl 1
  rw [evaluateCondition_eq, htrim]
  simp only [hspanned, Bool.false_eq_true, if_false, if_neg (hone hor), if_neg (hone hand)]

/-- **A comparison has one reading, and it is found.**  A trimmed text that is not in
parentheses and has neither keyword at top level can be taken apart in at most one way
such that both sides have values, and its outcome is that of the comparison between
these two values.  If there is no such way, it has no outcome. -/
theorem outcomeAt_comparison (store : Store) (line : Nat) {text : List Char}
    (htrim : Text.trim text = text) (hspanned : Text.isSpanned text = false)
    (hor : Text.Uncut orKeyword Text.Scan.start text)
    (hand : Text.Uncut andKeyword Text.Scan.start text) :
    (∀ first second : Reading, first.text = text → second.text = text →
        first.Succeeds store → second.Succeeds store → first = second) ∧
      ∀ holds, outcomeAt store line text = .ok holds ↔
        ∃ (reading : Reading) (a b : Value), reading.text = text ∧
          evaluate store reading.left = .ok a ∧ evaluate store reading.right = .ok b ∧
            reading.comparator.apply a b = .ok holds := by
  constructor
  · rintro first second rfl htext hfirst hsecond
    have hsame := hfirst.splitComparison?_eq.symm.trans (htext ▸ hsecond.splitComparison?_eq)
    obtain ⟨left, comparator, right⟩ := first
    cases hsame
    rfl
  · intro holds
    rw [outcomeAt, evaluateCondition_of_uncut store htrim hspanned hor hand, locate_eq_ok_iff,
      compareSides_eq_ok_iff]
    constructor
    · rintro ⟨reading, a, b, htext, hyields, happly⟩
      exact ⟨reading, a, b, htext, hyields.left, hyields.right, happly⟩
    · rintro ⟨reading, a, b, htext, hleft, hright, happly⟩
      exact ⟨reading, a, b, htext, ⟨hleft, hright⟩, happly⟩

/-- Longer symbols in the literals of both sides, one of them in parentheses. -/
theorem outcomeAt_comparison_literal :
    let text := "(\">=\" + 1) > \"==\"".toList
    let reading : Reading := ⟨"(\">=\" + 1) ".toList, .greater, " \"==\"".toList⟩
    (Text.trim text = text ∧ Text.isSpanned text = false ∧
        Text.Uncut orKeyword Text.Scan.start text ∧ Text.Uncut andKeyword Text.Scan.start text) ∧
      (reading.text = text ∧ outcomeAt .empty 3 text = .ok true) ∧
        ∀ other : Reading, other.text = text → other.Succeeds .empty → other = reading := by
  intro text reading
  have htrim : Text.trim text = text := by decide
  have hspanned : Text.isSpanned text = false := by decide
  have hor : Text.Uncut orKeyword Text.Scan.start text :=
    Text.uncut_of_length_splitTopLevel (by decide) (by decide)
  have hand : Text.Uncut andKeyword Text.Scan.start text :=
    Text.uncut_of_length_splitTopLevel (by decide) (by decide)
  have hleft : evaluate .empty reading.left = .ok (.text ">=1") := by decide +kernel
  have hright : evaluate .empty reading.right = .ok (.text "==") := by decide +kernel
  obtain ⟨hunique, houtcome⟩ := outcomeAt_comparison .empty 3 htrim hspanned hor hand
  have htrue : outcomeAt .empty 3 text = .ok true :=
    (houtcome true).mpr ⟨reading, _, _, rfl, hleft, hright, by decide⟩
  exact ⟨⟨htrim, hspanned, hor, hand⟩, ⟨rfl, htrue⟩, fun other htext hother =>
    hunique other reading htext rfl hother ⟨_, _, hleft, hright⟩⟩

end KoreanScript
