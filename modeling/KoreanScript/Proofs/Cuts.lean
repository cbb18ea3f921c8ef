import KoreanScript.Proofs.Composition

/-!
# Cuts of a text

A text is cut at the occurrences of a keyword outside literals and parentheses, from
left to right, where an occurrence that begins inside the keyword of the last cut does
not count.  The relation `Cutting` says so without a scanner's bookkeeping: each segment
but the last ends where the keyword begins for the first time, and the last one has no
such place.

From the relation follows what a splitter should do.  The segments and the keywords
between them are the whole text, every cut is made where a keyword may cut, and no
segment has a place left at which it should have been cut.  A keyword without quotes and
parentheses leaves the scan as it was, so then every segment is scanned as if it stood
alone, and cutting it again changes nothing.
-/

set_option autoImplicit false

namespace KoreanScript.Text

/-! ## Places for a cut -/

/-- A text in which a scan comes to no cut, when some other text follows it. -/
def UncutBefore (keyword : List Char) (scan : Scan) (text follow : List Char) : Prop :=
  ∀ before more, text = before ++ more → more ≠ [] → (scan.after before).atTop = true →
    ¬keyword <+: more ++ follow

section UncutBefore

variable {keyword text follow : List Char} {scan : Scan}

theorem uncutBefore_nil : UncutBefore keyword scan [] follow :=
  fun _ _ h hmore => absurd (List.append_eq_nil_iff.mp h.symm).2 hmore

theorem UncutBefore.cons {c : Char} (hhere : scan.atTop = true → ¬keyword <+: c :: text ++ follow)
    (h : UncutBefore keyword (scan.advance c) text follow) :
    UncutBefore keyword scan (c :: text) follow := by
  intro before more hsplit hmore htop
  cases before with
  | nil =>
    obtain rfl : c :: text = more := hsplit
    exact hhere htop
  | cons d before =>
    obtain ⟨rfl, hrest⟩ := List.cons.inj hsplit
    exact h before more hrest hmore htop

/-- What has no cut in front of another text has none alone. -/
theorem UncutBefore.uncut (h : UncutBefore keyword scan text follow) :
    Uncut keyword scan text :=
  fun before more hsplit hmore htop hstarts =>
    h before more hsplit hmore htop (hstarts.trans (List.prefix_append more follow))

end UncutBefore

/-! ## Cuttings -/

/-- The segments of a text, for a scan that has come to where it begins. -/
inductive Cutting (keyword : List Char) : Scan → List Char → List (List Char) → Prop where
  /-- No further cut. -/
  | last {scan : Scan} {text : List Char} (uncut : UncutBefore keyword scan text []) :
      Cutting keyword scan text [text]
  /-- A segment up to the first cut, the keyword, and the segments of the rest. -/
  | cut {scan : Scan} {segment rest : List Char} {later : List (List Char)}
      (uncut : UncutBefore keyword scan segment (keyword ++ rest))
      (top : (scan.after segment).atTop = true)
      (tail : Cutting keyword (scan.after (segment ++ keyword)) rest later) :
      Cutting keyword scan (segment ++ (keyword ++ rest)) (segment :: later)

namespace Cutting

variable {keyword text : List Char} {scan : Scan} {pieces : List (List Char)}

/-- A character at which there is no cut belongs to the first segment. -/
theorem cons {c : Char} (hhere : scan.atTop = true → ¬keyword <+: c :: text)
    (h : Cutting keyword (scan.advance c) text pieces) :
    Cutting keyword scan (c :: text) (consHead c pieces) := by
  cases h with
  | last uncut => exact .last (uncut.cons (by rwa [List.append_nil]))
  | cut uncut top tail => exact .cut (uncut.cons hhere) top tail

end Cutting

/-- **The segments of a text are a cutting of it.** -/
theorem cutting_segmentsFrom {keyword : List Char} (hkeyword : keyword ≠ []) (scan : Scan)
    (text : List Char) : Cutting keyword scan text (segmentsFrom keyword scan 0 text) := by
  -- The rest after a cut is shorter than the text, by more than one character perhaps.
  induction hlength : text.length using Nat.strongRecOn generalizing scan text with
  | ind length ih =>
    subst hlength
    cases text with
    | nil => exact .last uncutBefore_nil
    | cons c text =>
      by_cases hcut : scan.atTop = true ∧ keyword <+: c :: text
      · obtain ⟨htop, rest, hrest⟩ := hcut
        have hshorter : rest.length < (c :: text).length := by
          rw [← hrest, List.length_append]
          exact Nat.lt_add_of_pos_left (List.length_pos_iff.mpr hkeyword)
        rw [← hrest, segmentsFrom_keyword_append hkeyword htop]
        have hbefore : UncutBefore keyword scan [] (keyword ++ rest) := uncutBefore_nil
        exact .cut hbefore htop (ih _ hshorter _ rest rfl)
      · have hhere := not_and.mp hcut
        rw [segmentsFrom_of_not_cut hhere]
        exact .cons hhere (ih _ (Nat.lt_succ_self _) _ text rfl)

/-! ## What a cutting keeps -/

/-- What stands in front of a segment: the segments before it, each with the keyword
after it. -/
def led (keyword : List Char) (front : List (List Char)) : List Char :=
  front.flatMap (· ++ keyword)

theorem led_cons (keyword segment : List Char) (front : List (List Char)) :
    led keyword (segment :: front) = segment ++ (keyword ++ led keyword front) := by
  rw [led, List.flatMap_cons, List.append_assoc]
  rfl

namespace Cutting

variable {keyword text : List Char} {scan : Scan} {pieces : List (List Char)}

theorem ne_nil (h : Cutting keyword scan text pieces) : pieces ≠ [] := by
  cases h <;> exact List.cons_ne_nil _ _

/-- **Nothing is lost**: the segments joined by the keyword are the text. -/
theorem intercalate_eq (h : Cutting keyword scan text pieces) :
    keyword.intercalate pieces = text := by
  induction h with
  | last => exact List.intercalate_singleton
  | cut _ _ tail ih =>
    obtain ⟨next, others, rfl⟩ := List.exists_cons_of_ne_nil tail.ne_nil
    rw [List.intercalate_cons_cons, ih, List.append_assoc]

/-- **A segment in its text**: it ends at a cut unless it is the last, and there is no
place for a cut in it. -/
theorem place (h : Cutting keyword scan text pieces) {segment : List Char}
    {front back : List (List Char)} (hpieces : pieces = front ++ segment :: back) :
    ∃ follow, text = led keyword front ++ (segment ++ follow) ∧
      (back ≠ [] → (scan.after (led keyword front ++ segment)).atTop = true) ∧
      UncutBefore keyword (scan.after (led keyword front)) segment follow := by
  induction h generalizing front with
  | @last scan text uncut =>
    obtain ⟨rfl, rfl, rfl⟩ : front = [] ∧ text = segment ∧ back = [] := by
      cases front with
      | nil => simpa [eq_comm] using hpieces
      | cons => simp at hpieces
    exact ⟨[], by simp [led], fun hback => absurd rfl hback, uncut⟩
  | @cut scan first rest later uncut top tail ih =>
    cases front with
    | nil =>
      obtain ⟨rfl, rfl⟩ := List.cons.inj hpieces
      exact ⟨keyword ++ rest, rfl, fun _ => top, uncut⟩
    | cons _ front =>
      obtain ⟨rfl, hlater⟩ := List.cons.inj hpieces
      obtain ⟨follow, hrest, htop, huncut⟩ := ih hlater
      have hscan (more : List Char) : scan.after (led keyword (first :: front) ++ more) =
          (scan.after (first ++ keyword)).after (led keyword front ++ more) := by
        simp only [led_cons, Scan.after_append]
      refine ⟨follow, by rw [hrest, led_cons, List.append_assoc, List.append_assoc], ?_, ?_⟩
      · rwa [hscan]
      · have hfront := hscan []
        rw [List.append_nil, List.append_nil] at hfront
        rwa [hfront]

/-- **Every segment stands alone** when the keyword leaves the scan as it is. -/
theorem uncut_of_mem (hplain : ∀ c ∈ keyword, IsPlain c) (h : Cutting keyword scan text pieces)
    (hscan : scan = Scan.start) : ∀ segment ∈ pieces, Uncut keyword Scan.start segment := by
  induction h with
  | last uncut =>
    subst hscan
    exact List.forall_mem_singleton.mpr uncut.uncut
  | cut uncut top _ ih =>
    subst hscan
    refine List.forall_mem_cons.mpr ⟨uncut.uncut, ih ?_⟩
    rw [Scan.after_append, Scan.after_of_isPlain _ hplain]
    exact Scan.atTop_iff_eq_start.mp top

end Cutting

/-! ## Trimmed segments -/

theorem isPlain_of_isSpace {c : Char} (h : isSpace c = true) : IsPlain c := by
  refine ⟨?_, ?_, ?_⟩ <;> rintro rfl <;> cases h

/-- Trimming makes no place for a cut. -/
theorem Uncut.trim {keyword text : List Char} {scan : Scan} (h : Uncut keyword scan text) :
    Uncut keyword scan (trim text) := by
  obtain ⟨front, back, hfront, -, htext⟩ := exists_surrounded text
  intro before more hsplit hmore htop hstarts
  have hscan : scan.after (front ++ before) = scan.after before := by
    rw [Scan.after_append, Scan.after_of_isPlain scan fun c hc => isPlain_of_isSpace (hfront c hc)]
  refine h (front ++ before) (more ++ back) ?_ (List.append_ne_nil_of_left_ne_nil hmore back)
    (hscan ▸ htop) (hstarts.trans (List.prefix_append more back))
  rw [htext, hsplit]
  simp only [List.append_assoc]

/-! ## Splitting -/

/-- **Splitting cuts where it should, and nowhere else.**  The segments of a text joined by
the keyword are the text, and the parts are the trimmed segments.  The text up to the end
of a segment that is not the last is closed, and where the text up to some place inside a
segment is closed, the text does not go on with the keyword.  A keyword without quotes and
parentheses occurs in no segment after a closed front of it, and splitting a part again
gives that part alone. -/
theorem splitTopLevel_cuts {keyword : List Char} (hkeyword : keyword ≠ []) (text : List Char) :
    keyword.intercalate (segments text keyword) = text ∧
      (segments text keyword).map trim = splitTopLevel text keyword ∧
      (∀ front segment back, segments text keyword = front ++ segment :: back →
        (back ≠ [] → Closed (led keyword front ++ segment)) ∧
          ∀ before more, segment = before ++ more → more ≠ [] →
            Closed (led keyword front ++ before) →
              ¬keyword <+: text.drop (led keyword front ++ before).length) ∧
      ((∀ c ∈ keyword, IsPlain c) →
        (∀ segment ∈ segments text keyword, ∀ before more, segment = before ++ more →
          Closed before → ¬keyword <+: more) ∧
        ∀ part ∈ splitTopLevel text keyword, splitTopLevel part keyword = [part]) := by
  have hcutting := cutting_segmentsFrom hkeyword Scan.start text
  refine ⟨hcutting.intercalate_eq, rfl, ?_, ?_⟩
  · intro front segment back hpieces
    obtain ⟨follow, htext, htop, huncut⟩ := hcutting.place hpieces
    refine ⟨fun hback => atTop_after_iff.mp (htop hback), ?_⟩
    rintro before more rfl hmore hclosed
    have hdrop : text.drop (led keyword front ++ before).length = more ++ follow := by
      rw [htext, List.append_assoc, ← List.append_assoc, List.drop_left]
    rw [hdrop]
    exact huncut before more rfl hmore (Scan.after_append _ _ _ ▸ atTop_after_iff.mpr hclosed)
  · intro hplain
    have huncut := hcutting.uncut_of_mem hplain rfl
    constructor
    · rintro segment hsegment before more rfl hclosed hstarts
      have hmore : more ≠ [] := fun hnil => hkeyword (List.prefix_nil.mp (hnil ▸ hstarts))
      exact huncut _ hsegment before more rfl hmore (atTop_after_iff.mpr hclosed) hstarts
    · intro part hpart
      obtain ⟨segment, hsegment, rfl⟩ := List.mem_map.mp hpart
      rw [splitTopLevel, segments, segmentsFrom_of_uncut (huncut segment hsegment).trim,
        List.map_singleton, trim_trim]

/-- Keywords next to each other, inside a literal and inside parentheses. -/
theorem splitTopLevel_cuts_or :
    let text := "가 또는  또는 (나 또는 다) 또는 \" 또는 \"".toList
    orKeyword ≠ [] ∧ (∀ c ∈ orKeyword, IsPlain c) ∧
      segments text orKeyword = ["가".toList, [], "(나 또는 다)".toList, "\" 또는 \"".toList] ∧
      orKeyword.intercalate (segments text orKeyword) = text ∧
      Closed (led orKeyword ["가".toList, []] ++ "(나 또는 다)".toList) ∧
      splitTopLevel "(나 또는 다)".toList orKeyword = ["(나 또는 다)".toList] := by
  intro text
  have hne : orKeyword ≠ [] := by decide
  have hsegments : segments text orKeyword =
      ["가".toList, [], "(나 또는 다)".toList, "\" 또는 \"".toList] := by decide +kernel
  obtain ⟨hjoin, -, hplaces, hstable⟩ := splitTopLevel_cuts hne text
  refine ⟨hne, isPlain_orKeyword, hsegments, hjoin, ?_, ?_⟩
  · exact (hplaces ["가".toList, []] _ ["\" 또는 \"".toList] hsegments).1 (by decide)
  · exact (hstable isPlain_orKeyword).2 _ (by decide +kernel)

end KoreanScript.Text
