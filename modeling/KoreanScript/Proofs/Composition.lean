import KoreanScript.Condition
import KoreanScript.Proofs.Scanning

/-!
# Composition of conditions

Conditions are taken apart as text, so what a condition means depends on where it
is cut.  For a closed text and an arbitrary one, joined by the word for *or* or the
word for *and*, the cuts are those of the two texts and the one at the join; and
then the composed condition is evaluated as a short-circuit operator evaluates
its operands.  A group in parentheses means what it encloses.

A word at the join is read as the joining one unless a bare keyword at the end of
the first text or at the beginning of the second shares a blank with it.
-/

set_option autoImplicit false

namespace KoreanScript

/-! ## Trimmed texts -/

namespace Text

/-- A text that is not empty and has no white space at its ends. -/
structure Trimmed (text : List Char) : Prop where
  ne_nil : text ≠ []
  head : text.head?.any isSpace = false
  last : text.getLast?.any isSpace = false

instance (text : List Char) : Decidable (Trimmed text) :=
  decidable_of_iff
    (text ≠ [] ∧ text.head?.any isSpace = false ∧ text.getLast?.any isSpace = false)
    ⟨fun ⟨hne, hhead, hlast⟩ => ⟨hne, hhead, hlast⟩, fun ⟨hne, hhead, hlast⟩ => ⟨hne, hhead, hlast⟩⟩

theorem dropWhile_isSpace {text : List Char} (h : text.head?.any isSpace = false) :
    text.dropWhile isSpace = text := by
  cases text with
  | nil => rfl
  | cons c rest =>
    have hc : isSpace c = false := h
    rw [List.dropWhile_cons_of_neg (by simp [hc])]

theorem Trimmed.trim_eq {text : List Char} (h : Trimmed text) : trim text = text := by
  have hlast : text.reverse.head?.any isSpace = false := by
    rw [List.head?_reverse]
    exact h.last
  rw [trim, trimEnd, trimStart, dropWhile_isSpace h.head, dropWhile_isSpace hlast,
    List.reverse_reverse]

/-- A text that trimming leaves as it is has no white space at its ends. -/
theorem Trimmed.of_trim_eq {text : List Char} (h : trim text = text) (hne : text ≠ []) :
    Trimmed text := by
  have hshort {front inner back : List Char} (hfront : ∀ c ∈ front, isSpace c = true)
      (hback : ∀ c ∈ back, isSpace c = true) (htext : text = front ++ (inner ++ back)) :
      front.length + back.length = 0 := by
    have hlength := length_trim_le inner
    rw [← trim_surrounded hfront inner hback, ← htext, h, htext] at hlength
    simp only [List.length_append] at hlength
    omega
  refine ⟨hne, ?_, ?_⟩
  · obtain ⟨first, rest, htext⟩ := List.exists_cons_of_ne_nil hne
    rw [htext, List.head?_cons, Option.any_some]
    by_contra hspace
    rw [Bool.not_eq_false] at hspace
    have hzero := @hshort [first] rest [] (List.forall_mem_singleton.mpr hspace)
      (List.forall_mem_nil _) (by rw [htext, List.append_nil, List.singleton_append])
    cases hzero
  · have htext := (List.dropLast_concat_getLast hne).symm
    rw [List.getLast?_eq_some_getLast hne, Option.any_some]
    by_contra hspace
    rw [Bool.not_eq_false] at hspace
    have hzero := @hshort [] text.dropLast [text.getLast hne] (List.forall_mem_nil _)
      (List.forall_mem_singleton.mpr hspace) htext
    cases hzero

/-- Trimmed texts around anything are a trimmed text. -/
theorem Trimmed.append {first second : List Char} (hfirst : Trimmed first)
    (hsecond : Trimmed second) (between : List Char) : Trimmed (first ++ (between ++ second)) where
  ne_nil := by simp [hfirst.ne_nil]
  head := by
    obtain ⟨c, rest, rfl⟩ := List.exists_cons_of_ne_nil hfirst.ne_nil
    exact hfirst.head
  last := by
    have hlast := List.getLast?_eq_some_getLast hsecond.ne_nil
    rw [List.getLast?_append, List.getLast?_append, hlast, Option.some_or, Option.some_or, ← hlast]
    exact hsecond.last

end Text

/-! ## Where keywords cut -/

/-- The bare word for *or*. -/
def orWord : List Char := ['또', '는']

/-- The bare word for *and*. -/
def andWord : List Char := ['그', '리', '고']

/-- A word with the blanks that belong to it as a keyword. -/
def keywordOf (word : List Char) : List Char :=
  ' ' :: word ++ [' ']

/-- A keyword shares with what follows a text at most its last blank, and then the
text ends in the bare word. -/
theorem joinsApart_keywordOf (word : List Char) {first rest : List Char} (hword : ' ' ∉ word)
    (hlast : ¬ (' ' :: word <:+ first)) : Text.JoinsApart (keywordOf word) first (' ' :: rest) := by
  rintro part hpart hne ⟨tail, htail⟩
  rcases List.append_eq_append_iff.mp htail with ⟨shared, hpart', -⟩ | ⟨shared, hkeyword, hrest⟩
  · exact ⟨shared, hpart'.symm⟩
  · cases shared with
    | nil =>
      rw [List.append_nil] at hkeyword
      exact ⟨[], by rw [List.append_nil, hkeyword]⟩
    | cons blank others =>
      obtain rfl := (List.cons.inj hrest).1
      obtain ⟨_, part, rfl⟩ := List.exists_cons_of_ne_nil hne
      obtain ⟨rfl, hsplit⟩ := List.cons.inj hkeyword
      have hsplit : word ++ [' '] = part ++ ' ' :: others := hsplit
      -- the shared blank is not inside the word, so it is the one after it
      have hpartWord : part = word := by
        rcases List.append_eq_append_iff.mp hsplit with ⟨more, hmore, hnil⟩ | ⟨more, hmore, hothers⟩
        · obtain rfl : more = [] := by
            have hlength := congrArg List.length hnil
            simp only [List.length_append, List.length_cons, List.length_nil] at hlength
            exact List.eq_nil_of_length_eq_zero (by omega)
          rw [hmore, List.append_nil]
        · cases more with
          | nil => rw [hmore, List.append_nil]
          | cons blank more =>
            obtain rfl := (List.cons.inj hothers).1
            exact absurd (by simp [hmore]) hword
      exact absurd (hpartWord ▸ hpart) hlast

theorem isPlain_orKeyword : ∀ c ∈ orKeyword, Text.IsPlain c := by
  simp [orKeyword, Text.IsPlain]

theorem isPlain_andKeyword : ∀ c ∈ andKeyword, Text.IsPlain c := by
  simp [andKeyword, Text.IsPlain]

/-! ## Splitting at the join -/

namespace Text

/-- An uncut text is its only part. -/
theorem splitTopLevel_of_uncut {text keyword : List Char} (htext : Trimmed text)
    (h : Uncut keyword Scan.start text) : splitTopLevel text keyword = [text] := by
  rw [splitTopLevel, segments, segmentsFrom_of_uncut h, List.map_singleton, htext.trim_eq]

/-- A text with no more than one part is uncut. -/
theorem uncut_of_length_splitTopLevel {text keyword : List Char} (hkeyword : keyword ≠ [])
    (h : ¬1 < (splitTopLevel text keyword).length) : Uncut keyword Scan.start text := by
  rw [splitTopLevel, List.length_map] at h
  have hpos := List.length_pos_iff.mpr (segmentsFrom_ne_nil keyword Scan.start 0 text)
  exact uncut_of_length_segmentsFrom hkeyword (by rw [segments] at h; omega)

/-- Parentheses around all of a text leave no place for a cut. -/
theorem uncut_of_isSpanned {text : List Char} (h : isSpanned text = true) (word : List Char) :
    Uncut (keywordOf word) Scan.start text := by
  obtain ⟨hhead, -, hdepth⟩ := isSpanned_iff.mp h
  rintro before rest rfl hne htop ⟨tail, rfl⟩
  obtain ⟨hliteral, hzero⟩ := Scan.atTop_iff.mp htop
  cases before with
  | nil => cases hhead
  | cons c before =>
    have hpos := hdepth (c :: before) _ rfl (List.cons_ne_nil c before) hne hliteral
    omega

/-- A text of several parts is not spanned. -/
theorem not_isSpanned_of_many {text : List Char} (htext : Trimmed text) (word : List Char)
    (hmany : 1 < (splitTopLevel text (keywordOf word)).length) : ¬isSpanned text = true := by
  intro h
  rw [splitTopLevel_of_uncut htext (uncut_of_isSpanned h word)] at hmany
  exact absurd hmany (by simp)

/-- The parts of a closed text and any other, joined by a keyword. -/
theorem splitTopLevel_append {keyword first second : List Char} (hkeyword : keyword ≠ [])
    (hplain : ∀ c ∈ keyword, IsPlain c) (hclosed : Closed first)
    (hjoin : JoinsApart keyword first (keyword ++ second)) :
    splitTopLevel (first ++ (keyword ++ second)) keyword =
      splitTopLevel first keyword ++ splitTopLevel second keyword := by
  have hscan := closed_iff.mp hclosed
  have hsegments := segmentsFrom_append hkeyword hplain (Nat.zero_le _) (by rw [hscan]; rfl) hjoin
  rw [hscan] at hsegments
  rw [splitTopLevel, segments, hsegments, List.map_append]
  rfl

end Text

/-! ## Short circuits -/

section ShortCircuit

variable {ε α : Type} (f : α → Except ε Bool)

theorem anyM_singleton (x : α) : [x].anyM f = f x := by
  rw [List.anyM_cons]
  cases f x with
  | ok found => cases found <;> rfl
  | error e => rfl

theorem allM_singleton (x : α) : [x].allM f = f x := by
  rw [List.allM_cons]
  cases f x with
  | ok found => cases found <;> rfl
  | error e => rfl

theorem anyM_append (first second : List α) :
    (first ++ second).anyM f =
      (do if ← first.anyM f then return true else second.anyM f) := by
  induction first with
  | nil => simp
  | cons x rest ih =>
    rw [List.cons_append, List.anyM_cons, List.anyM_cons, ih]
    cases f x with
    | ok found => cases found <;> rfl
    | error e => rfl

theorem allM_append (first second : List α) :
    (first ++ second).allM f =
      (do if ← first.allM f then second.allM f else return false) := by
  induction first with
  | nil => simp
  | cons x rest ih =>
    rw [List.cons_append, List.allM_cons, List.allM_cons, ih]
    cases f x with
    | ok found => cases found <;> rfl
    | error e => rfl

end ShortCircuit

/-! ## Composed conditions -/

section Composed

variable (store : Store)

/-- The alternatives of a condition amount to it, be there one or several. -/
theorem anyM_alternatives {text : List Char} (htext : Text.Trimmed text) :
    (Text.splitTopLevel text orKeyword).anyM (evaluateCondition store) =
      evaluateCondition store text := by
  by_cases hmany : 1 < (Text.splitTopLevel text orKeyword).length
  · have hspanned := Text.not_isSpanned_of_many htext orWord hmany
    rw [evaluateCondition_eq, htext.trim_eq]
    simp only [if_neg hspanned, if_pos hmany]
  · have huncut := Text.uncut_of_length_splitTopLevel (by decide) hmany
    rw [Text.splitTopLevel_of_uncut htext huncut, anyM_singleton]

/-- The conjuncts of a condition without alternatives amount to it. -/
theorem allM_conjuncts {text : List Char} (htext : Text.Trimmed text)
    (hor : Text.Uncut orKeyword Text.Scan.start text) :
    (Text.splitTopLevel text andKeyword).allM (evaluateCondition store) =
      evaluateCondition store text := by
  by_cases hmany : 1 < (Text.splitTopLevel text andKeyword).length
  · have hspanned := Text.not_isSpanned_of_many htext andWord hmany
    have hone : ¬1 < (Text.splitTopLevel text orKeyword).length := by
      rw [Text.splitTopLevel_of_uncut htext hor]
      simp
    rw [evaluateCondition_eq, htext.trim_eq]
    simp only [if_neg hspanned, if_neg hone, if_pos hmany]
  · have huncut := Text.uncut_of_length_splitTopLevel (by decide) hmany
    rw [Text.splitTopLevel_of_uncut htext huncut, allM_singleton]

/-- Whether a text ends in the bare word of a keyword, which a blank would complete. -/
def EndsInKeyword (text : List Char) : Prop :=
  ' ' :: orWord <:+ text ∨ ' ' :: andWord <:+ text

/-- Whether a text begins with the bare word of a keyword, which a blank would complete. -/
def BeginsWithKeyword (text : List Char) : Prop :=
  orWord ++ [' '] <+: text ∨ andWord ++ [' '] <+: text

instance (text : List Char) : Decidable (EndsInKeyword text) :=
  inferInstanceAs (Decidable (_ ∨ _))

instance (text : List Char) : Decidable (BeginsWithKeyword text) :=
  inferInstanceAs (Decidable (_ ∨ _))

theorem joinsApart_orKeyword {a : List Char} (hends : ¬EndsInKeyword a) (rest : List Char) :
    Text.JoinsApart orKeyword a (' ' :: rest) :=
  joinsApart_keywordOf orWord (by decide) fun h => hends (.inl h)

theorem joinsApart_andKeyword {a : List Char} (hends : ¬EndsInKeyword a) (rest : List Char) :
    Text.JoinsApart andKeyword a (' ' :: rest) :=
  joinsApart_keywordOf andWord (by decide) fun h => hends (.inr h)

/-- The word for *and* and what follows it hold no alternative between them. -/
theorem andKeyword_joinsApart {b : List Char} (hbegins : ¬BeginsWithKeyword b) :
    Text.JoinsApart orKeyword andKeyword b := by
  intro part hpart hne hstart
  have hpart : part = andKeyword ∨ part = ['그', '리', '고', ' '] ∨ part = ['리', '고', ' '] ∨
      part = ['고', ' '] ∨ part = [' '] ∨ part = [] := by
    simpa only [andKeyword, List.suffix_cons_iff, List.suffix_nil] using hpart
  -- only the last blank starts the other keyword, and that is completed by its bare word
  rcases hpart with rfl | rfl | rfl | rfl | rfl | rfl
  · simp [andKeyword, orKeyword] at hstart
  · simp [orKeyword] at hstart
  · simp [orKeyword] at hstart
  · simp [orKeyword] at hstart
  · exact absurd (.inl ((List.prefix_cons_inj _).mp hstart)) hbegins
  · exact absurd rfl hne

/-- A condition with alternatives at its join: the second is evaluated only if the
first does not hold. -/
theorem evaluateCondition_or {a b : List Char} (ha : Text.Trimmed a) (hb : Text.Trimmed b)
    (hclosed : Text.Closed a) (hends : ¬EndsInKeyword a) :
    evaluateCondition store (a ++ (orKeyword ++ b)) =
      (do if ← evaluateCondition store a then return true else evaluateCondition store b) := by
  rw [← anyM_alternatives store (ha.append hb orKeyword),
    Text.splitTopLevel_append (by decide) isPlain_orKeyword hclosed (joinsApart_orKeyword hends _),
    anyM_append, anyM_alternatives store ha, anyM_alternatives store hb]

/-- A condition with conjuncts at its join: the second is evaluated only if the
first holds. -/
theorem evaluateCondition_and {a b : List Char} (ha : Text.Trimmed a) (hb : Text.Trimmed b)
    (hclosed : Text.Closed a) (hends : ¬EndsInKeyword a) (hbegins : ¬BeginsWithKeyword b)
    (haor : (Text.splitTopLevel a orKeyword).length = 1)
    (hbor : (Text.splitTopLevel b orKeyword).length = 1) :
    evaluateCondition store (a ++ (andKeyword ++ b)) =
      (do if ← evaluateCondition store a then evaluateCondition store b else return false) := by
  have hauncut : Text.Uncut orKeyword Text.Scan.start a :=
    Text.uncut_of_length_splitTopLevel (by decide) (by omega)
  have hbuncut : Text.Uncut orKeyword Text.Scan.start b :=
    Text.uncut_of_length_splitTopLevel (by decide) (by omega)
  have hand : Text.Uncut orKeyword Text.Scan.start andKeyword :=
    Text.uncut_of_length_segmentsFrom (by decide) (by decide)
  have hrest : Text.Uncut orKeyword Text.Scan.start (andKeyword ++ b) :=
    hand.append (andKeyword_joinsApart hbegins) (by
      rw [Text.Scan.after_of_isPlain _ isPlain_andKeyword]
      exact hbuncut)
  have hor : Text.Uncut orKeyword Text.Scan.start (a ++ (andKeyword ++ b)) :=
    hauncut.append (joinsApart_orKeyword hends _) (by
      rw [Text.closed_iff.mp hclosed]
      exact hrest)
  rw [← allM_conjuncts store (ha.append hb andKeyword) hor,
    Text.splitTopLevel_append (by decide) isPlain_andKeyword hclosed
      (joinsApart_andKeyword hends _),
    allM_append, allM_conjuncts store ha hauncut, allM_conjuncts store hb hbuncut]

/-- A text in parentheses of its own. -/
def grouped (text : List Char) : List Char :=
  '(' :: text ++ [')']

/-- A group is spanned by its own parentheses. -/
theorem isSpanned_grouped {c : List Char} (h : Text.NeverNegative c) :
    Text.isSpanned (grouped c) = true := by
  rw [Text.isSpanned_iff]
  refine ⟨rfl, List.getLast?_concat, fun before rest hsplit hbefore hrest _ => ?_⟩
  obtain ⟨d, front, rfl⟩ := List.exists_cons_of_ne_nil hbefore
  obtain ⟨rfl, hfront⟩ := List.cons.inj hsplit
  have hstart : front <+: c := by
    rcases List.prefix_concat_iff.mp ⟨rest, hfront.symm⟩ with hwhole | hstart
    · rw [hwhole] at hfront
      exact absurd (List.append_right_eq_self.mp hfront.symm) hrest
    · exact hstart
  have hcount := h front hstart
  rw [Text.Scan.after_cons, Text.Scan.depth_after]
  change 0 < (1 : Int) + (Text.outside front).count '(' - (Text.outside front).count ')'
  omega

/-- A group means what it encloses. -/
theorem evaluateCondition_grouped {c : List Char} (h : Text.NeverNegative c) :
    evaluateCondition store (grouped c) = evaluateCondition store c := by
  have htrimmed : Text.Trimmed (grouped c) := {
    ne_nil := List.cons_ne_nil _ _
    head := by
      show Text.isSpace '(' = false
      decide
    last := by
      rw [grouped, List.getLast?_concat]
      decide }
  rw [evaluateCondition_eq, htrimmed.trim_eq]
  simp only [isSpanned_grouped h, if_true]
  simp [withoutEnds, grouped]

/-- The outcome of a condition on a line. -/
def outcomeAt (line : Nat) (condition : List Char) : Except Fault Bool :=
  locate line (evaluateCondition store condition)

/-- **Conditions compose by short circuit.**  Conditions `a` and `b`, the first of
them closed, may be joined by either keyword, as long as no bare keyword stands at
the join and, for the word *and*, neither has alternatives of its own; and any
condition may be grouped whose parentheses open before they close. -/
theorem evaluateCondition_composed (line : Nat) :
    (∀ a b, Text.Trimmed a → Text.Trimmed b → Text.Closed a → ¬EndsInKeyword a →
      ¬BeginsWithKeyword b →
        (outcomeAt store line (a ++ orKeyword ++ b) =
          match outcomeAt store line a with
          | .error fault => .error fault
          | .ok true => .ok true
          | .ok false => outcomeAt store line b) ∧
        ((Text.splitTopLevel a orKeyword).length = 1 →
          (Text.splitTopLevel b orKeyword).length = 1 →
            outcomeAt store line (a ++ andKeyword ++ b) =
              match outcomeAt store line a with
              | .error fault => .error fault
              | .ok true => outcomeAt store line b
              | .ok false => .ok false)) ∧
    ∀ c, Text.NeverNegative c → outcomeAt store line (grouped c) = outcomeAt store line c := by
  refine ⟨fun a b ha hb hclosed hends hbegins => ⟨?_, fun haor hbor => ?_⟩, fun c h => ?_⟩
  · have hjoined := evaluateCondition_or store ha hb hclosed hends
    rw [← List.append_assoc] at hjoined
    simp only [outcomeAt, hjoined]
    cases evaluateCondition store a with
    | error cause => rfl
    | ok holds => cases holds <;> rfl
  · have hjoined := evaluateCondition_and store ha hb hclosed hends hbegins haor hbor
    rw [← List.append_assoc] at hjoined
    simp only [outcomeAt, hjoined]
    cases evaluateCondition store a with
    | error cause => rfl
    | ok holds => cases holds <;> rfl
  · rw [outcomeAt, outcomeAt, evaluateCondition_grouped store h]

end Composed

/-- A false condition joined with one that lacks a parenthesis, and a group. -/
theorem evaluateCondition_composed_unclosed :
    let a := "1 > 2".toList
    let b := "(없음 > 0".toList
    let c := "(1 < 2)".toList
    (Text.Trimmed a ∧ Text.Trimmed b ∧ Text.Closed a ∧ ¬EndsInKeyword a ∧ ¬BeginsWithKeyword b) ∧
      outcomeAt .empty 1 (a ++ orKeyword ++ b) = outcomeAt .empty 1 b ∧
      outcomeAt .empty 1 (a ++ andKeyword ++ b) = .ok false ∧
      Text.NeverNegative c ∧ outcomeAt .empty 1 (grouped c) = outcomeAt .empty 1 c := by
  intro a b c
  have hoperands : Text.Trimmed a ∧ Text.Trimmed b ∧ Text.Closed a ∧ ¬EndsInKeyword a ∧
      ¬BeginsWithKeyword b := by decide
  obtain ⟨ha, hb, hclosed, hends, hbegins⟩ := hoperands
  obtain ⟨hjoined, hgrouped⟩ := evaluateCondition_composed .empty 1
  obtain ⟨hor, hand⟩ := hjoined a b ha hb hclosed hends hbegins
  have hfalse : outcomeAt .empty 1 a = .ok false := by decide +kernel
  have hc : Text.NeverNegative c := by decide
  rw [hfalse] at hor hand
  exact ⟨⟨ha, hb, hclosed, hends, hbegins⟩, hor, hand (by decide) (by decide), hc, hgrouped c hc⟩

end KoreanScript
