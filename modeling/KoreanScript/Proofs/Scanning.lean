import Mathlib.Data.List.Infix
import KoreanScript.Text.TopLevel

/-!
# The scan of a text

What the scan knows at a place depends on what stands before it only: the depth is
the number of opening minus the number of closing parentheses outside literals,
and a literal is open after an odd number of quotes.  A text is closed when it
leaves the scan as it found it.

The spots of a text are the places where no literal is open.  A text falls into
one segment just if a keyword occurs at none of its spots at depth zero, and
the segments of two texts joined by a keyword are those of the one and those
of the other, unless the join completes a keyword earlier.
-/

set_option autoImplicit false

namespace KoreanScript.Text

/-! ## The scan after a text -/

/-- The scan after all characters of a text. -/
def Scan.after (scan : Scan) (text : List Char) : Scan :=
  text.foldl Scan.advance scan

@[simp] theorem Scan.after_nil (scan : Scan) : scan.after [] = scan := rfl

@[simp] theorem Scan.after_cons (scan : Scan) (c : Char) (rest : List Char) :
    scan.after (c :: rest) = (scan.advance c).after rest := rfl

@[simp] theorem Scan.after_append (scan : Scan) (first second : List Char) :
    scan.after (first ++ second) = (scan.after first).after second :=
  List.foldl_append

/-- Whether a character is neither a quote nor a parenthesis. -/
def IsPlain (c : Char) : Prop :=
  c ≠ '"' ∧ c ≠ '(' ∧ c ≠ ')'

theorem Scan.advance_of_isPlain (scan : Scan) {c : Char} (h : IsPlain c) :
    scan.advance c = scan := by
  simp [advance, h.1, h.2.1, h.2.2]

/-- Characters that are neither quotes nor parentheses leave the scan as it is. -/
theorem Scan.after_of_isPlain (scan : Scan) {text : List Char} (h : ∀ c ∈ text, IsPlain c) :
    scan.after text = scan := by
  induction text with
  | nil => rfl
  | cons c rest ih =>
    rw [after_cons, advance_of_isPlain scan (h c List.mem_cons_self)]
    exact ih fun d hd => h d (List.mem_cons_of_mem c hd)

/-- A scan inside a literal goes on to its closing quote. -/
theorem Scan.after_of_inLiteral {scan : Scan} (hliteral : scan.inLiteral = true)
    {content : List Char} (h : '"' ∉ content) : scan.after content = scan := by
  induction content with
  | nil => rfl
  | cons c content ih =>
    obtain ⟨hc, hcontent⟩ := not_or.mp (mt List.mem_cons.mpr h)
    have hadvance : scan.advance c = scan := by
      rw [advance, if_neg (Ne.symm hc), if_pos hliteral]
    rw [after_cons, hadvance, ih hcontent]

/-! ## Characters outside literals -/

/-- The characters of a text outside its literals, without the quotes, where
`inLiteral` tells whether a literal is open before the text. -/
def outsideFrom (inLiteral : Bool) : List Char → List Char
  | [] => []
  | c :: rest =>
    if c = '"' then outsideFrom (!inLiteral) rest
    else if inLiteral then outsideFrom inLiteral rest
    else c :: outsideFrom inLiteral rest

/-- The characters of a text outside its literals. -/
def outside (text : List Char) : List Char :=
  outsideFrom false text

/-- A text with an even number of quotes and, outside literals, as many opening as
closing parentheses. -/
def Closed (text : List Char) : Prop :=
  text.count '"' % 2 = 0 ∧ (outside text).count '(' = (outside text).count ')'

instance (text : List Char) : Decidable (Closed text) :=
  inferInstanceAs (Decidable (_ ∧ _))

/-- No prefix of a text closes more parentheses than it opens, outside literals. -/
def NeverNegative (text : List Char) : Prop :=
  ∀ front, front <+: text → (outside front).count ')' ≤ (outside front).count '('

instance (text : List Char) : Decidable (NeverNegative text) :=
  decidable_of_iff (∀ front ∈ text.inits,
      (outside front).count ')' ≤ (outside front).count '(')
    (forall_congr' fun front => by rw [List.mem_inits])

theorem Scan.depth_after (scan : Scan) (text : List Char) :
    (scan.after text).depth = scan.depth + (outsideFrom scan.inLiteral text).count '(' -
      (outsideFrom scan.inLiteral text).count ')' := by
  induction text generalizing scan with
  | nil => simp [outsideFrom]
  | cons c rest ih =>
    rw [after_cons, ih]
    by_cases hquote : c = '"'
    · simp [advance, outsideFrom, hquote]
    by_cases hliteral : scan.inLiteral = true
    · simp [advance, outsideFrom, hquote, hliteral]
    by_cases hleft : c = '('
    · simp [advance, outsideFrom, hliteral, hleft]
      omega
    by_cases hright : c = ')'
    · simp [advance, outsideFrom, hliteral, hright]
      omega
    · simp [advance, outsideFrom, hquote, hliteral, hleft, hright]

/-- Only quotes open and close literals. -/
theorem Scan.inLiteral_advance_of_ne (scan : Scan) {c : Char} (hquote : c ≠ '"') :
    (scan.advance c).inLiteral = scan.inLiteral := by
  simp only [advance, hquote, if_false]
  repeat' split
  all_goals rfl

theorem Scan.inLiteral_after (scan : Scan) (text : List Char) :
    (scan.after text).inLiteral = (scan.inLiteral ^^ decide (text.count '"' % 2 = 1)) := by
  induction text generalizing scan with
  | nil => simp
  | cons c rest ih =>
    rw [after_cons, ih]
    by_cases hquote : c = '"'
    · rcases Nat.mod_two_eq_zero_or_one (rest.count '"') with heven | hodd
      · simp [advance, hquote, Nat.add_mod, heven]
      · simp [advance, hquote, Nat.add_mod, hodd]
    · rw [inLiteral_advance_of_ne scan hquote, List.count_cons_of_ne hquote]

/-- The characters outside the literals of two texts are those of the one and those of
the other, as the first has left the scan. -/
theorem outsideFrom_append (scan : Scan) (first second : List Char) :
    outsideFrom scan.inLiteral (first ++ second) =
      outsideFrom scan.inLiteral first ++ outsideFrom (scan.after first).inLiteral second := by
  induction first generalizing scan with
  | nil => rfl
  | cons c rest ih =>
    have hrest := ih (scan.advance c)
    by_cases hquote : c = '"'
    · simpa [outsideFrom, Scan.advance, hquote] using hrest
    · rw [Scan.inLiteral_advance_of_ne scan hquote] at hrest
      by_cases hliteral : scan.inLiteral = true
      · simpa [outsideFrom, hquote, hliteral] using hrest
      · simpa [outsideFrom, hquote, hliteral] using hrest

/-- A character where no literal is open is outside, unless it opens one. -/
theorem mem_outside {before rest : List Char} {c : Char}
    (hliteral : (Scan.start.after before).inLiteral = false) (hquote : c ≠ '"') :
    c ∈ outside (before ++ c :: rest) := by
  have hsplit := outsideFrom_append Scan.start before (c :: rest)
  rw [hliteral] at hsplit
  rw [outside]
  refine hsplit ▸ List.mem_append_right _ ?_
  simp [outsideFrom, hquote]

theorem Scan.atTop_iff {scan : Scan} :
    scan.atTop = true ↔ scan.inLiteral = false ∧ scan.depth = 0 := by
  simp [atTop]

/-- A keyword may cut where the scan is as it was at its start. -/
theorem Scan.atTop_iff_eq_start {scan : Scan} : scan.atTop = true ↔ scan = Scan.start := by
  obtain ⟨depth, inLiteral⟩ := scan
  simp [Scan.atTop, Scan.start, and_comm]

/-- A keyword may cut after a text just if that text is closed. -/
theorem atTop_after_iff {text : List Char} :
    (Scan.start.after text).atTop = true ↔ Closed text := by
  have hliteral : (Scan.start.after text).inLiteral = false ↔ text.count '"' % 2 = 0 := by
    rw [Scan.inLiteral_after]
    simp [Scan.start]
  have hdepth : (Scan.start.after text).depth = 0 ↔
      (outside text).count '(' = (outside text).count ')' := by
    rw [Scan.depth_after]
    simp only [Scan.start, outside]
    omega
  rw [Scan.atTop_iff, hliteral, hdepth, Closed]

/-- A text is closed just if the scan comes back to its start. -/
theorem closed_iff {text : List Char} : Closed text ↔ Scan.start.after text = Scan.start := by
  rw [← atTop_after_iff, Scan.atTop_iff_eq_start]

/-! ## Spots -/

theorem mem_spotsFrom_iff {scan : Scan} {offset : Nat} {text : List Char} {spot : Spot} :
    spot ∈ spotsFrom scan offset text ↔
      ∃ before, text = before ++ spot.rest ∧ spot.rest ≠ [] ∧
        scan.after before = ⟨spot.depth, false⟩ ∧ spot.offset = offset + before.length := by
  induction text generalizing scan offset with
  | nil =>
    constructor
    · intro h
      cases h
    · rintro ⟨before, hrest, hne, -, -⟩
      exact absurd (List.append_eq_nil_iff.mp hrest.symm).2 hne
  | cons c rest ih =>
    have hcons : spot ∈ spotsFrom scan offset (c :: rest) ↔
        (scan.inLiteral = false ∧ spot = ⟨offset, scan.depth, c :: rest⟩) ∨
          spot ∈ spotsFrom (scan.advance c) (offset + 1) rest := by
      by_cases hliteral : scan.inLiteral = true <;> simp [spotsFrom, hliteral]
    rw [hcons, ih]
    constructor
    · rintro (⟨hliteral, rfl⟩ | ⟨before, hrest, hne, hscan, hoffset⟩)
      · exact ⟨[], rfl, List.cons_ne_nil c rest, by rw [Scan.after_nil, ← hliteral], rfl⟩
      · refine ⟨c :: before, congrArg (c :: ·) hrest, hne, hscan, ?_⟩
        rw [hoffset, List.length_cons]
        omega
    · rintro ⟨before, hrest, hne, hscan, hoffset⟩
      cases before with
      | nil =>
        obtain ⟨spotOffset, depth, later⟩ := spot
        obtain rfl : c :: rest = later := hrest
        obtain rfl : scan = ⟨depth, false⟩ := hscan
        obtain rfl : spotOffset = offset := hoffset
        exact .inl ⟨rfl, rfl⟩
      | cons d before =>
        obtain ⟨rfl, hlater⟩ := List.cons.inj hrest
        refine .inr ⟨before, hlater, hne, hscan, ?_⟩
        rw [hoffset, List.length_cons]
        omega

/-- The spots of a text are the places where no literal is open. -/
theorem mem_spots_iff {text : List Char} {spot : Spot} :
    spot ∈ spots text ↔
      ∃ before, text = before ++ spot.rest ∧ spot.rest ≠ [] ∧
        Scan.start.after before = ⟨spot.depth, false⟩ ∧ spot.offset = before.length := by
  simp only [spots, mem_spotsFrom_iff, Nat.zero_add]

/-- The spots of a text, offset by offset. -/
theorem spotsFrom_eq (scan : Scan) (offset : Nat) (text : List Char) :
    spotsFrom scan offset text =
      ((List.range text.length).filter fun k => !(scan.after (text.take k)).inLiteral).map
        fun k => ⟨offset + k, (scan.after (text.take k)).depth, text.drop k⟩ := by
  induction text generalizing scan offset with
  | nil => rfl
  | cons c rest ih =>
    have hlater (k : Nat) : offset + 1 + k = offset + (k + 1) := by omega
    rw [spotsFrom, ih, List.length_cons, List.range_succ_eq_map, List.filter_cons, List.filter_map,
      List.take_zero, Scan.after_nil]
    cases scan.inLiteral <;> simp [Function.comp_def, hlater]

/-- A pattern occurs in a text after some characters that leave no literal open. -/
def OccursAfter (text pattern before : List Char) : Prop :=
  ∃ rest, text = before ++ rest ∧ rest ≠ [] ∧ (Scan.start.after before).inLiteral = false ∧
    pattern <+: rest

/-- A spot at which a pattern is looked for is a place where it occurs. -/
theorem exists_spot_iff {text pattern : List Char} {offset : Nat} :
    (∃ spot ∈ spots text, spot.offset = offset ∧ pattern.isPrefixOf spot.rest = true) ↔
      ∃ before, before.length = offset ∧ OccursAfter text pattern before := by
  simp only [mem_spots_iff, List.isPrefixOf_iff_prefix]
  constructor
  · rintro ⟨spot, ⟨before, hsplit, hrest, hscan, hlength⟩, rfl, hstarts⟩
    exact ⟨before, hlength.symm, spot.rest, hsplit, hrest, by rw [hscan], hstarts⟩
  · rintro ⟨before, rfl, rest, hsplit, hrest, hliteral, hstarts⟩
    exact ⟨⟨before.length, (Scan.start.after before).depth, rest⟩,
      ⟨before, hsplit, hrest, by rw [← hliteral], rfl⟩, rfl, hstarts⟩

/-- A pattern that is found occurs where it is found. -/
theorem occursAfter_of_findOutside? {text pattern : List Char} {offset : Nat}
    (h : findOutside? text pattern = some offset) :
    ∃ before, before.length = offset ∧ OccursAfter text pattern before := by
  obtain ⟨spot, hspot, hoffset⟩ := Option.map_eq_some_iff.mp h
  have hstarts : pattern.isPrefixOf spot.rest = true := by simpa using List.find?_some hspot
  exact exists_spot_iff.mp ⟨spot, List.mem_of_find?_eq_some hspot, hoffset, hstarts⟩

/-- A pattern is not found just if it occurs nowhere. -/
theorem findOutside?_eq_none_iff {text pattern : List Char} :
    findOutside? text pattern = none ↔ ∀ before, ¬OccursAfter text pattern before := by
  rw [findOutside?, Option.map_eq_none_iff, List.find?_eq_none]
  constructor
  · intro h before hoccurs
    obtain ⟨spot, hspot, -, hstarts⟩ := exists_spot_iff.mpr ⟨before, rfl, hoccurs⟩
    exact h spot hspot hstarts
  · intro h spot hspot hstarts
    obtain ⟨before, -, hoccurs⟩ := exists_spot_iff.mp ⟨spot, hspot, rfl, hstarts⟩
    exact h before hoccurs

/-- A text is spanned by one pair of parentheses just if it starts and ends with them
and no parenthesis before the last closes the first. -/
theorem isSpanned_iff {text : List Char} :
    isSpanned text = true ↔ text.head? = some '(' ∧ text.getLast? = some ')' ∧
      ∀ before rest, text = before ++ rest → before ≠ [] → rest ≠ [] →
        (Scan.start.after before).inLiteral = false → 0 < (Scan.start.after before).depth := by
  simp only [isSpanned, Bool.and_eq_true, beq_iff_eq, List.all_eq_true, Bool.or_eq_true,
    decide_eq_true_eq, mem_spots_iff, and_assoc]
  refine and_congr_right fun _ => and_congr_right fun _ => ?_
  constructor
  · intro h before rest hsplit hbefore hrest hliteral
    have hspot := h ⟨before.length, (Scan.start.after before).depth, rest⟩
      ⟨before, hsplit, hrest, by rw [← hliteral], rfl⟩
    rcases hspot with hzero | hdepth
    · exact absurd (List.eq_nil_of_length_eq_zero hzero) hbefore
    · exact hdepth
  · rintro h spot ⟨before, hsplit, hrest, hscan, hoffset⟩
    by_cases hbefore : before = []
    · exact .inl (by rw [hoffset, hbefore, List.length_nil])
    · have hdepth := h before spot.rest hsplit hbefore hrest (by rw [hscan])
      rw [hscan] at hdepth
      exact .inr hdepth

/-! ## Segments -/

section Segments

variable {keyword : List Char}

theorem segmentsFrom_of_cut (hkeyword : keyword ≠ []) {scan : Scan} {c : Char} {rest : List Char}
    (htop : scan.atTop = true) (hstart : keyword <+: c :: rest) :
    segmentsFrom keyword scan 0 (c :: rest) =
      [] :: segmentsFrom keyword (scan.advance c) (keyword.length - 1) rest := by
  cases keyword with
  | nil => exact absurd rfl hkeyword
  | cons k others =>
    have hcut : (scan.atTop && (k :: others).isPrefixOf (c :: rest)) = true := by
      rw [htop, List.isPrefixOf_iff_prefix.mpr hstart]
      rfl
    simp [segmentsFrom, hcut]

theorem segmentsFrom_of_not_cut {scan : Scan} {c : Char} {rest : List Char}
    (h : scan.atTop = true → ¬keyword <+: c :: rest) :
    segmentsFrom keyword scan 0 (c :: rest) =
      consHead c (segmentsFrom keyword (scan.advance c) 0 rest) := by
  have hcut : (scan.atTop && keyword.isPrefixOf (c :: rest)) = false := by
    rw [Bool.and_eq_false_imp]
    intro htop
    rw [Bool.eq_false_iff, ne_eq, List.isPrefixOf_iff_prefix]
    exact h htop
  simp [segmentsFrom, hcut]

/-- A text in which a scan comes to no cut. -/
def Uncut (keyword : List Char) (scan : Scan) (text : List Char) : Prop :=
  ∀ before rest, text = before ++ rest → rest ≠ [] → (scan.after before).atTop = true →
    ¬keyword <+: rest

theorem uncut_nil (keyword : List Char) (scan : Scan) : Uncut keyword scan [] :=
  fun _ _ h hrest => absurd (List.append_eq_nil_iff.mp h.symm).2 hrest

theorem uncut_cons_iff {keyword : List Char} {scan : Scan} {c : Char} {rest : List Char} :
    Uncut keyword scan (c :: rest) ↔
      (scan.atTop = true → ¬keyword <+: c :: rest) ∧ Uncut keyword (scan.advance c) rest := by
  constructor
  · intro h
    exact ⟨fun htop => h [] (c :: rest) rfl (List.cons_ne_nil c rest) htop,
      fun before later hsplit => h (c :: before) later (congrArg (c :: ·) hsplit)⟩
  · rintro ⟨hhere, hlater⟩ before later hsplit hne htop
    cases before with
    | nil =>
      obtain rfl : c :: rest = later := hsplit
      exact hhere htop
    | cons d before =>
      obtain ⟨rfl, hsplitRest⟩ := List.cons.inj hsplit
      exact hlater before later hsplitRest hne htop

theorem length_consHead {c : Char} {texts : List (List Char)} (h : texts ≠ []) :
    (consHead c texts).length = texts.length := by
  cases texts with
  | nil => exact absurd rfl h
  | cons first others => rfl

/-- An uncut text is its only segment. -/
theorem segmentsFrom_of_uncut {scan : Scan} {text : List Char} (h : Uncut keyword scan text) :
    segmentsFrom keyword scan 0 text = [text] := by
  induction text generalizing scan with
  | nil => rfl
  | cons c rest ih =>
    obtain ⟨hhere, hlater⟩ := uncut_cons_iff.mp h
    rw [segmentsFrom_of_not_cut hhere, ih hlater, consHead]

/-- A text with one segment is uncut. -/
theorem uncut_of_length_segmentsFrom (hkeyword : keyword ≠ []) {scan : Scan} {text : List Char}
    (h : (segmentsFrom keyword scan 0 text).length = 1) : Uncut keyword scan text := by
  induction text generalizing scan with
  | nil => exact uncut_nil keyword scan
  | cons c rest ih =>
    by_cases hcut : scan.atTop = true ∧ keyword <+: c :: rest
    · rw [segmentsFrom_of_cut hkeyword hcut.1 hcut.2, List.length_cons] at h
      have hpos := List.length_pos_iff.mpr
        (segmentsFrom_ne_nil keyword (scan.advance c) (keyword.length - 1) rest)
      omega
    · have hhere := not_and.mp hcut
      rw [segmentsFrom_of_not_cut hhere, length_consHead (segmentsFrom_ne_nil _ _ _ _)] at h
      exact uncut_cons_iff.mpr ⟨hhere, ih h⟩

/-! ## Texts joined by a keyword -/

/-- A join at which no occurrence of the keyword that starts in the first text reaches
into the second. -/
def JoinsApart (keyword first second : List Char) : Prop :=
  ∀ part, part <:+ first → part ≠ [] → keyword <+: part ++ second → keyword <+: part

theorem JoinsApart.of_cons {c : Char} {first second : List Char}
    (h : JoinsApart keyword (c :: first) second) : JoinsApart keyword first second :=
  fun part hpart => h part (hpart.trans (List.suffix_cons c first))

/-- At such a join the first text has the keyword in front where it had it alone. -/
theorem JoinsApart.isPrefix_iff {c : Char} {first second : List Char}
    (h : JoinsApart keyword (c :: first) second) :
    keyword <+: c :: (first ++ second) ↔ keyword <+: c :: first :=
  ⟨h (c :: first) (List.suffix_refl _) (List.cons_ne_nil c first),
    fun hstart => hstart.trans (List.prefix_append (c :: first) second)⟩

/-- Two texts without cuts have none together, if they join apart. -/
theorem Uncut.append {scan : Scan} {first second : List Char} (hfirst : Uncut keyword scan first)
    (hjoin : JoinsApart keyword first second) (hsecond : Uncut keyword (scan.after first) second) :
    Uncut keyword scan (first ++ second) := by
  induction first generalizing scan with
  | nil => exact hsecond
  | cons c rest ih =>
    obtain ⟨hhere, hlater⟩ := uncut_cons_iff.mp hfirst
    refine uncut_cons_iff.mpr ⟨fun htop hstart => ?_, ih hlater hjoin.of_cons hsecond⟩
    exact hhere htop (hjoin.isPrefix_iff.mp hstart)

theorem segmentsFrom_skip (scan : Scan) (skipped text : List Char) :
    segmentsFrom keyword scan skipped.length (skipped ++ text) =
      segmentsFrom keyword (scan.after skipped) 0 text := by
  induction skipped generalizing scan with
  | nil => rfl
  | cons c rest ih => exact ih (scan.advance c)

/-- A text that starts with the keyword, where that may cut, is cut right there. -/
theorem segmentsFrom_keyword_append (hkeyword : keyword ≠ []) {scan : Scan}
    (htop : scan.atTop = true) (rest : List Char) :
    segmentsFrom keyword scan 0 (keyword ++ rest) =
      [] :: segmentsFrom keyword (scan.after keyword) 0 rest := by
  obtain ⟨k, others, rfl⟩ := List.exists_cons_of_ne_nil hkeyword
  have hstart : k :: others <+: k :: (others ++ rest) := List.prefix_append (k :: others) rest
  rw [List.cons_append, segmentsFrom_of_cut hkeyword htop hstart, List.length_cons,
    Nat.add_sub_cancel, segmentsFrom_skip, Scan.after_cons]

theorem consHead_append {c : Char} {texts others : List (List Char)} (h : texts ≠ []) :
    consHead c (texts ++ others) = consHead c texts ++ others := by
  cases texts with
  | nil => exact absurd rfl h
  | cons first rest => rfl

/-- **The segments of two texts joined by the keyword** are those of the first and
those of the second. -/
theorem segmentsFrom_append (hkeyword : keyword ≠ []) (hplain : ∀ c ∈ keyword, IsPlain c)
    {scan : Scan} {skip : Nat} {first second : List Char} (hskip : skip ≤ first.length)
    (htop : (scan.after first).atTop = true)
    (hjoin : JoinsApart keyword first (keyword ++ second)) :
    segmentsFrom keyword scan skip (first ++ (keyword ++ second)) =
      segmentsFrom keyword scan skip first ++
        segmentsFrom keyword (scan.after first) 0 second := by
  induction first generalizing scan skip with
  | nil =>
    obtain rfl : skip = 0 := Nat.le_zero.mp hskip
    rw [Scan.after_nil] at htop ⊢
    rw [List.nil_append, segmentsFrom_keyword_append hkeyword htop,
      Scan.after_of_isPlain scan hplain]
    rfl
  | cons c rest ih =>
    cases skip with
    | succ skip => exact ih (Nat.le_of_succ_le_succ hskip) htop hjoin.of_cons
    | zero =>
      rw [List.cons_append]
      by_cases hcut : scan.atTop = true ∧ keyword <+: c :: rest
      · have hroom : keyword.length - 1 ≤ rest.length := by
          have := hcut.2.length_le
          simp only [List.length_cons] at this
          omega
        rw [segmentsFrom_of_cut hkeyword hcut.1 hcut.2,
          segmentsFrom_of_cut hkeyword hcut.1 (hjoin.isPrefix_iff.mpr hcut.2),
          ih hroom htop hjoin.of_cons]
        rfl
      · have hhere := not_and.mp hcut
        rw [segmentsFrom_of_not_cut hhere,
          segmentsFrom_of_not_cut fun htop hstart => hhere htop (hjoin.isPrefix_iff.mp hstart),
          ih (Nat.zero_le _) htop hjoin.of_cons, consHead_append (segmentsFrom_ne_nil _ _ _ _)]
        rfl

end Segments

end KoreanScript.Text
