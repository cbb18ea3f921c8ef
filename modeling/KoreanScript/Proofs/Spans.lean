import KoreanScript.Condition
import KoreanScript.Proofs.Scanning

/-!
# Parentheses around a whole text

The two ends of a text are a pair of parentheses when the last character closes the first:
it stands outside literals, and the depth comes back to zero there and nowhere before.

The test for parentheses around a whole text looks at the depth in front of each spot, so
it sees that nothing before the end closes the first parenthesis, but not whether the last
character does.  It accepts every pair, and besides the texts whose first parenthesis stays
open: those end in a parenthesis that closes a later one, or that belongs to a literal
without an end (`isPair_or_staysOpen`).  No closed text is of the second kind, so for
closed texts the test recognises pairs.
-/

set_option autoImplicit false

namespace KoreanScript.Text

/-! ## Depths of prefixes -/

/-- A character goes one level out at most. -/
theorem Scan.sub_one_le_depth_advance (scan : Scan) (c : Char) :
    scan.depth - 1 ≤ (scan.advance c).depth := by
  grind [advance]

theorem Scan.advance_of_inLiteral {scan : Scan} (hliteral : scan.inLiteral = true) {c : Char}
    (hquote : c ≠ '"') : scan.advance c = scan := by
  rw [advance, if_neg hquote, if_pos hliteral]

/-- A text that ends inside of a literal has the depth of what stands before that literal. -/
theorem exists_front_of_inLiteral {text : List Char}
    (hliteral : (Scan.start.after text).inLiteral = true) :
    ∃ front content, text = front ++ '"' :: content ∧
      (Scan.start.after front).inLiteral = false ∧
        (Scan.start.after front).depth = (Scan.start.after text).depth := by
  induction text using List.reverseRecOn with
  | nil => cases hliteral
  | append_singleton init c ih =>
    rw [Scan.after_append, Scan.after_cons, Scan.after_nil] at hliteral ⊢
    by_cases hquote : c = '"'
    · subst hquote
      have hclosed : (Scan.start.after init).inLiteral = false := by
        simpa [Scan.advance] using hliteral
      exact ⟨init, [], rfl, hclosed, rfl⟩
    · rw [Scan.inLiteral_advance_of_ne _ hquote] at hliteral
      obtain ⟨front, content, rfl, hfront, hdepth⟩ := ih hliteral
      rw [Scan.advance_of_inLiteral hliteral hquote]
      exact ⟨front, content ++ [c], by simp, hfront, hdepth⟩

/-! ## Pairs and texts that stay open -/

/-- A text whose last character is the partner of its first: the last one is a closing
parenthesis outside literals, and with it the depth is zero again for the first time. -/
structure IsPair (text : List Char) : Prop where
  opens : text.head? = some '('
  closes : text.getLast? = some ')'
  outside : (Scan.start.after text.dropLast).inLiteral = false
  returns : (Scan.start.after text).depth = 0
  first : ∀ before, before <+: text → before ≠ [] → before ≠ text →
    (Scan.start.after before).depth ≠ 0

/-- A text between parentheses the first of which is closed nowhere in it. -/
structure StaysOpen (text : List Char) : Prop where
  opens : text.head? = some '('
  closes : text.getLast? = some ')'
  deep : ∀ before, before <+: text → before ≠ [] → 0 < (Scan.start.after before).depth

variable {text : List Char}

theorem eq_start_of_singleton_prefix {c : Char} (hopens : text.head? = some '(')
    (hstarts : [c] <+: text) : c = '(' := by
  obtain ⟨rest, rfl⟩ := hstarts
  exact Option.some.inj hopens

/-- Inside of a pair the depth is positive, because it goes down by single steps. -/
theorem IsPair.depth_pos (h : IsPair text) {before : List Char} (hbefore : before <+: text)
    (hne : before ≠ []) (hproper : before ≠ text) : 0 < (Scan.start.after before).depth := by
  induction before using List.reverseRecOn with
  | nil => exact absurd rfl hne
  | append_singleton init c ih =>
    by_cases hinit : init = []
    · subst hinit
      obtain rfl : c = '(' := eq_start_of_singleton_prefix h.opens hbefore
      exact Int.one_pos
    · have hshorter : init <+: text := (List.prefix_append init [c]).trans hbefore
      have hinitProper : init ≠ text := by
        rintro rfl
        have hlength := hbefore.length_le
        rw [List.length_append, List.length_singleton] at hlength
        omega
      have hpos := ih hshorter hinit hinitProper
      have hnonzero := h.first (init ++ [c]) hbefore hne hproper
      have hstep := Scan.sub_one_le_depth_advance (Scan.start.after init) c
      rw [Scan.after_append, Scan.after_cons, Scan.after_nil] at hnonzero ⊢
      omega

/-- **A pair is accepted.** -/
theorem IsPair.isSpanned (h : IsPair text) : isSpanned text = true := by
  refine isSpanned_iff.mpr ⟨h.opens, h.closes, ?_⟩
  intro before rest hsplit hbefore hrest _
  refine h.depth_pos ⟨rest, hsplit.symm⟩ hbefore ?_
  rintro rfl
  exact hrest (List.append_right_eq_self.mp hsplit.symm)

/-- **A text that stays open is accepted.** -/
theorem StaysOpen.isSpanned (h : StaysOpen text) : isSpanned text = true := by
  refine isSpanned_iff.mpr ⟨h.opens, h.closes, ?_⟩
  intro before rest hsplit hbefore _ _
  exact h.deep before ⟨rest, hsplit.symm⟩ hbefore

/-- Where a text is accepted, the depth is positive in front of every later character, be it
inside a literal or not. -/
theorem depth_pos_of_isSpanned (h : isSpanned text = true) {before : List Char}
    (hbefore : before <+: text) (hne : before ≠ []) (hproper : before ≠ text) :
    0 < (Scan.start.after before).depth := by
  obtain ⟨hopens, -, hspots⟩ := isSpanned_iff.mp h
  obtain ⟨rest, rfl⟩ := hbefore
  have hrest : rest ≠ [] := by
    rintro rfl
    exact hproper (List.append_nil before).symm
  cases hliteral : (Scan.start.after before).inLiteral with
  | false => exact hspots before rest rfl hne hrest hliteral
  | true =>
    obtain ⟨front, content, rfl, hfront, hdepth⟩ := exists_front_of_inLiteral hliteral
    rw [← hdepth]
    refine hspots front ('"' :: content ++ rest) (by simp) ?_ (by simp) hfront
    -- a text that begins with a parenthesis does not begin with a literal
    rintro rfl
    cases hopens

/-- **Whatever is accepted is a pair or stays open.** -/
theorem isPair_or_staysOpen (h : isSpanned text = true) : IsPair text ∨ StaysOpen text := by
  obtain ⟨hopens, hcloses, -⟩ := isSpanned_iff.mp h
  have hdeep : ∀ before, before <+: text → before ≠ [] → before ≠ text →
      0 < (Scan.start.after before).depth := fun _ => depth_pos_of_isSpanned h
  by_cases hend : 0 < (Scan.start.after text).depth
  · refine .inr ⟨hopens, hcloses, ?_⟩
    intro before hbefore hne
    by_cases hproper : before = text
    · exact hproper ▸ hend
    · exact hdeep before hbefore hne hproper
  · obtain ⟨front, rfl⟩ := List.getLast?_eq_some_iff.mp hcloses
    have hfront : front ≠ [] := by
      rintro rfl
      cases hopens
    have hpos := hdeep front (List.prefix_append front [')']) hfront (by simp)
    rw [Scan.after_append, Scan.after_cons, Scan.after_nil] at hend
    -- inside of a literal the last parenthesis would leave the depth as it was
    have houtside : (Scan.start.after front).inLiteral = false := by
      by_contra hliteral
      rw [Bool.not_eq_false] at hliteral
      rw [Scan.advance_of_inLiteral hliteral (by decide)] at hend
      exact hend hpos
    have hstep := Scan.sub_one_le_depth_advance (Scan.start.after front) ')'
    refine .inl ⟨hopens, hcloses, ?_, ?_, ?_⟩
    · rwa [List.dropLast_concat]
    · rw [Scan.after_append, Scan.after_cons, Scan.after_nil]
      omega
    · intro before hbefore hne hproper
      exact Int.ne_of_gt (hdeep before hbefore hne hproper)

theorem StaysOpen.not_isPair (h : StaysOpen text) : ¬IsPair text := by
  intro hpair
  have hne : text ≠ [] := by
    rintro rfl
    cases h.opens
  exact Int.ne_of_gt (h.deep text (List.prefix_refl text) hne) hpair.returns

/-- No closed text stays open. -/
theorem StaysOpen.not_closed (h : StaysOpen text) : ¬Closed text := by
  intro hclosed
  have hne : text ≠ [] := by
    rintro rfl
    cases h.opens
  have hdeep := h.deep text (List.prefix_refl text) hne
  rw [closed_iff.mp hclosed] at hdeep
  exact absurd hdeep (by decide)

/-- **Parentheses around a whole text.**  The test accepts the pairs and the texts that stay
open, and nothing is both.  So it recognises pairs, except that it takes for pairs exactly
the texts that stay open; and none of these is closed. -/
theorem isSpanned_pair_or_open (text : List Char) :
    (isSpanned text = true ↔ IsPair text ∨ StaysOpen text) ∧
      ((isSpanned text = true ↔ IsPair text) ↔ ¬StaysOpen text) ∧
        (Closed text → (isSpanned text = true ↔ IsPair text)) := by
  have haccepts : isSpanned text = true ↔ IsPair text ∨ StaysOpen text :=
    ⟨isPair_or_staysOpen, fun h => h.elim IsPair.isSpanned StaysOpen.isSpanned⟩
  have hpairs : ¬StaysOpen text → (isSpanned text = true ↔ IsPair text) := by
    intro hopen
    rw [haccepts, or_iff_left hopen]
  refine ⟨haccepts, ⟨?_, hpairs⟩, ?_⟩
  · intro hiff hopen
    exact hopen.not_isPair (hiff.mp hopen.isSpanned)
  · intro hclosed
    exact hpairs fun hopen => hopen.not_closed hclosed

/-- A choice between two groups whose first parenthesis stays open is taken for one group, and
holds as a condition, although its parentheses do not match. -/
theorem exists_isSpanned_not_isPair :
    let condition := "((1 < 2) 또는 (1 < 2)".toList
    (isSpanned condition = true ∧ ¬IsPair condition) ∧
      evaluateCondition .empty condition = .ok true := by
  intro condition
  have hopen : (Scan.start.after condition).depth ≠ 0 := by decide
  have hholds : evaluateCondition .empty condition = .ok true := by decide +kernel
  exact ⟨⟨by decide, fun hpair => hopen hpair.returns⟩, hholds⟩

end KoreanScript.Text
