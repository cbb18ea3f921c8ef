import KoreanScript.Text.Blank
import KoreanScript.Text.Lines

/-!
# Positions outside text literals

Conditions are taken apart before they are read as expressions.  A single scan
from left to right knows two things at each character: whether a text literal is
open, and how many parentheses stand open outside literals.  The characters seen
while no literal is open are the *spots* of a text; the quote that opens a
literal is a spot, its content and its closing quote are not.

Three questions are answered on that scan: where a pattern first occurs at a
spot, how a text falls into segments at a keyword that stands at depth zero, and
whether one pair of parentheses spans the whole text.  The depth of a spot is the
one before its own character counts.
-/

set_option autoImplicit false

namespace KoreanScript.Text

/-! ## The scan -/

/-- How far a scan has come: the parentheses left open and whether a literal is open.  The
depth is counted without a bound.  It is not further from zero than characters have been
scanned (`natAbs_depth_le`), so a counter of 32 bits has the same value at every place of a
text of fewer than `2 ^ 31` characters. -/
structure Scan where
  depth : Int
  inLiteral : Bool
  deriving DecidableEq

/-- The scan before the first character. -/
def Scan.start : Scan := ⟨0, false⟩

/-- The scan after one more character.  Parentheses inside a literal do not count. -/
def Scan.advance (scan : Scan) (c : Char) : Scan :=
  if c = '"' then { scan with inLiteral := !scan.inLiteral }
  else if scan.inLiteral then scan
  else if c = '(' then { scan with depth := scan.depth + 1 }
  else if c = ')' then { scan with depth := scan.depth - 1 }
  else scan

/-- Whether a keyword may cut here: outside literals and outside parentheses. -/
def Scan.atTop (scan : Scan) : Bool :=
  !scan.inLiteral && scan.depth == 0

/-! ## Spots -/

/-- A position outside text literals: its offset in characters, the depth of
parentheses there, and the text from it on. -/
structure Spot where
  offset : Nat
  depth : Int
  rest : List Char
  deriving DecidableEq

/-- The spots of the remaining text, for a scan that has come to `offset`. -/
def spotsFrom (scan : Scan) (offset : Nat) : List Char → List Spot
  | [] => []
  | c :: rest =>
    let later := spotsFrom (scan.advance c) (offset + 1) rest
    if scan.inLiteral then later else ⟨offset, scan.depth, c :: rest⟩ :: later

/-- Every position of a text that lies outside its literals, from left to right. -/
def spots (text : List Char) : List Spot :=
  spotsFrom Scan.start 0 text

/-- A character changes the depth by one at most. -/
theorem Scan.natAbs_depth_advance_le (scan : Scan) (c : Char) :
    (scan.advance c).depth.natAbs ≤ scan.depth.natAbs + 1 := by
  unfold advance
  split
  · exact Nat.le_succ _
  split
  · exact Nat.le_succ _
  split
  · exact Int.natAbs_add_le scan.depth 1
  split
  · exact Int.natAbs_sub_le scan.depth 1
  · exact Nat.le_succ _

theorem natAbs_depth_le_of_spotsFrom {scan : Scan} {offset : Nat}
    (h : scan.depth.natAbs ≤ offset) (text : List Char) :
    ∀ spot ∈ spotsFrom scan offset text, spot.depth.natAbs ≤ spot.offset := by
  induction text generalizing scan offset with
  | nil => exact fun _ hspot => nomatch hspot
  | cons c rest ih =>
    have hlater := ih (Nat.le_trans (scan.natAbs_depth_advance_le c) (Nat.succ_le_succ h))
    rw [spotsFrom]
    split
    · exact hlater
    · exact List.forall_mem_cons.mpr ⟨h, hlater⟩

/-- **A spot is no deeper than it is far from the start of the text.** -/
theorem natAbs_depth_le (text : List Char) :
    ∀ spot ∈ spots text, spot.depth.natAbs ≤ spot.offset :=
  natAbs_depth_le_of_spotsFrom (Nat.le_refl 0) text

/-- The offset, in characters, of the first spot at which `pattern` occurs. -/
def findOutside? (text pattern : List Char) : Option Nat :=
  ((spots text).find? fun spot => pattern.isPrefixOf spot.rest).map Spot.offset

/-- How many bytes the first `count` characters of a text take in UTF-8. -/
def byteOffset (text : List Char) (count : Nat) : Nat :=
  (String.ofList (text.take count)).utf8ByteSize

/-- Whether the first and the last character of a text are one pair of
parentheses that spans all of it. -/
def isSpanned (text : List Char) : Bool :=
  text.head? == some '(' && text.getLast? == some ')' &&
    (spots text).all fun spot => spot.offset == 0 || 0 < spot.depth

/-! ## Segments -/

/-- Cuts the remaining text at the occurrences of `keyword` outside literals and
parentheses.  `skip` characters still belong to the keyword of the last cut. -/
def segmentsFrom (keyword : List Char) (scan : Scan) : Nat → List Char → List (List Char)
  | _, [] => [[]]
  | skip + 1, c :: rest => segmentsFrom keyword (scan.advance c) skip rest
  | 0, c :: rest =>
    if scan.atTop && keyword.isPrefixOf (c :: rest) then
      match keyword with
      | [] => [] :: consHead c (segmentsFrom keyword (scan.advance c) 0 rest)
      | _ :: others => [] :: segmentsFrom keyword (scan.advance c) others.length rest
    else consHead c (segmentsFrom keyword (scan.advance c) 0 rest)

/-- The pieces of a text between the occurrences of `keyword` that stand outside
literals and parentheses. -/
def segments (text keyword : List Char) : List (List Char) :=
  segmentsFrom keyword Scan.start 0 text

/-- The segments of a text, each trimmed. -/
def splitTopLevel (text keyword : List Char) : List (List Char) :=
  (segments text keyword).map trim

theorem segmentsFrom_ne_nil (keyword : List Char) (scan : Scan) (skip : Nat)
    (text : List Char) : segmentsFrom keyword scan skip text ≠ [] := by
  fun_induction segmentsFrom keyword scan skip text <;> simp_all

theorem length_consHead_le {c : Char} {texts : List (List Char)} {bound : Nat}
    (htexts : texts ≠ []) (h : ∀ t ∈ texts, t.length + texts.length ≤ bound) :
    ∀ t ∈ consHead c texts, t.length + (consHead c texts).length ≤ bound + 1 := by
  cases texts with
  | nil => exact absurd rfl htexts
  | cons first others =>
    intro t ht
    have hfirst := h first List.mem_cons_self
    rcases List.mem_cons.mp ht with rfl | ht
    · simp only [consHead, List.length_cons] at *
      omega
    · have := h t (List.mem_cons_of_mem _ ht)
      simp only [consHead, List.length_cons] at *
      omega

/-- **Every cut costs a character**: a segment and the number of cuts together fit
into the text. -/
theorem length_segment_le {keyword : List Char} (hkeyword : keyword ≠ []) (scan : Scan)
    (skip : Nat) (text : List Char) :
    ∀ segment ∈ segmentsFrom keyword scan skip text,
      segment.length + (segmentsFrom keyword scan skip text).length ≤ text.length + 1 := by
  fun_induction segmentsFrom keyword scan skip text with
  | case1 => simp
  | case2 scan skip c rest ih =>
    intro segment hmem
    have := ih segment hmem
    simp only [List.length_cons]
    omega
  | case3 => exact absurd ‹_› hkeyword
  | case4 scan c rest _ _ others hcut ih =>
    subst hcut
    intro segment hmem
    rcases List.mem_cons.mp hmem with rfl | hmem
    · obtain ⟨first, hfirst⟩ := List.exists_mem_of_ne_nil _
        (segmentsFrom_ne_nil _ (scan.advance c) others.length rest)
      have := ih first hfirst
      simp only [List.length_cons, List.length_nil]
      omega
    · have := ih segment hmem
      simp only [List.length_cons]
      omega
  | case5 scan c rest _ ih =>
    exact length_consHead_le (segmentsFrom_ne_nil _ _ _ _) ih

theorem subset_of_mem_consHead {c : Char} {text : List Char} {texts : List (List Char)}
    (h : ∀ t ∈ texts, t ⊆ text) : ∀ t ∈ consHead c texts, t ⊆ c :: text := by
  cases texts with
  | nil => exact List.forall_mem_singleton.mpr (List.cons_subset_cons c (List.nil_subset text))
  | cons first others =>
    obtain ⟨hfirst, hothers⟩ := List.forall_mem_cons.mp h
    exact List.forall_mem_cons.mpr ⟨List.cons_subset_cons c hfirst,
      fun t ht => List.subset_cons_of_subset c (hothers t ht)⟩

/-- Segments have only characters of the text. -/
theorem segment_subset (keyword : List Char) (scan : Scan) (skip : Nat) (text : List Char) :
    ∀ segment ∈ segmentsFrom keyword scan skip text, segment ⊆ text := by
  fun_induction segmentsFrom keyword scan skip text with
  | case1 => simp
  | case2 scan skip c rest ih =>
    exact fun segment hmem => List.subset_cons_of_subset c (ih segment hmem)
  | case3 scan c rest _ hempty ih =>
    subst hempty
    exact List.forall_mem_cons.mpr ⟨List.nil_subset _, subset_of_mem_consHead ih⟩
  | case4 scan c rest _ _ others hcut ih =>
    subst hcut
    exact List.forall_mem_cons.mpr ⟨List.nil_subset _,
      fun segment hmem => List.subset_cons_of_subset c (ih segment hmem)⟩
  | case5 scan c rest _ ih => exact subset_of_mem_consHead ih

theorem subset_of_mem_splitTopLevel {text keyword part : List Char}
    (hpart : part ∈ splitTopLevel text keyword) : part ⊆ text := by
  obtain ⟨segment, hsegment, rfl⟩ := List.mem_map.mp hpart
  exact fun c hc => segment_subset keyword Scan.start 0 text segment hsegment (trim_subset _ hc)

/-- When a text falls into several parts, each of them is shorter than the text. -/
theorem length_lt_of_mem_splitTopLevel {text keyword part : List Char}
    (hkeyword : keyword ≠ []) (hmany : 1 < (splitTopLevel text keyword).length)
    (hpart : part ∈ splitTopLevel text keyword) : part.length < text.length := by
  obtain ⟨segment, hsegment, rfl⟩ := List.mem_map.mp hpart
  have hroom := length_segment_le hkeyword Scan.start 0 text segment hsegment
  have hcount : (splitTopLevel text keyword).length
      = (segmentsFrom keyword Scan.start 0 text).length := List.length_map _
  have := length_trim_le segment
  omega

end KoreanScript.Text
