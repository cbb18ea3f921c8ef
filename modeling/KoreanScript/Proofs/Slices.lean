import KoreanScript.Proofs.Cuts

/-!
# Slices of a text

A text is stored as its bytes in UTF-8, and a place in it is an offset in bytes.  The slice
between two offsets exists when they are in order and each is the beginning of a character
or the end of the text; any other slice does not (`isSome_slice?_iff`).

The searches and cuts of a condition are done on such offsets, and every step of them may
ask for a slice.  Here they are written out that way: a search or a cut that asks for a
slice which does not exist has no outcome.  It turns out that on every text, be it
well-formed or not, they have one, and that it is the one found on characters.
-/

set_option autoImplicit false

namespace KoreanScript.Text

/-! ## Lengths in bytes -/

/-- How many bytes a text takes in UTF-8. -/
def byteLength (text : List Char) : Nat :=
  (String.ofList text).utf8ByteSize

@[simp] theorem byteLength_nil : byteLength [] = 0 := rfl

@[simp] theorem byteLength_append (first second : List Char) :
    byteLength (first ++ second) = byteLength first + byteLength second := by
  rw [byteLength, String.ofList_append, String.utf8ByteSize_append]
  rfl

theorem byteLength_singleton (c : Char) : byteLength [c] = c.utf8Size := by
  rw [byteLength, ← String.singleton_eq_ofList, String.utf8ByteSize_singleton]

@[simp] theorem byteLength_cons (c : Char) (text : List Char) :
    byteLength (c :: text) = c.utf8Size + byteLength text := by
  rw [← List.singleton_append, byteLength_append, byteLength_singleton]

theorem byteLength_pos {text : List Char} (h : text ≠ []) : 0 < byteLength text := by
  obtain ⟨c, rest, rfl⟩ := List.exists_cons_of_ne_nil h
  rw [byteLength_cons]
  exact Nat.add_pos_left (Char.utf8Size_pos c) _

theorem byteOffset_append (front back : List Char) :
    byteOffset (front ++ back) front.length = byteLength front := by
  rw [byteOffset, List.take_left]
  rfl

/-- Part of a text takes fewer bytes than the text if it has fewer characters. -/
theorem byteLength_lt_of_isInfix {part text : List Char} (h : part <:+: text)
    (hshorter : part.length < text.length) : byteLength part < byteLength text := by
  obtain ⟨front, back, rfl⟩ := h
  simp only [List.length_append] at hshorter
  simp only [byteLength_append]
  rcases eq_or_ne front [] with rfl | hfront
  · have hback : back ≠ [] := by
      rintro rfl
      simp at hshorter
    have := byteLength_pos hback
    omega
  · have := byteLength_pos hfront
    omega

/-! ## Slices -/

/-- A text taken apart at an offset, unless that lies inside of a character or beyond the
end. -/
def splitAtByte? : Nat → List Char → Option (List Char × List Char)
  | 0, text => some ([], text)
  | _ + 1, [] => none
  | offset + 1, c :: rest =>
    if c.utf8Size ≤ offset + 1 then
      (splitAtByte? (offset + 1 - c.utf8Size) rest).map fun (front, back) => (c :: front, back)
    else none

theorem splitAtByte?_eq_some_iff {text front back : List Char} {offset : Nat} :
    splitAtByte? offset text = some (front, back) ↔
      text = front ++ back ∧ byteLength front = offset := by
  fun_induction splitAtByte? offset text generalizing front back with
  | case1 text =>
    constructor
    · intro h
      cases h
      exact ⟨rfl, rfl⟩
    · rintro ⟨rfl, hzero⟩
      obtain rfl : front = [] := by
        by_contra hne
        exact (byteLength_pos hne).ne' hzero
      rfl
  | case2 offset =>
    refine ⟨nofun, fun ⟨htext, hlength⟩ => ?_⟩
    rw [(List.append_eq_nil_iff.mp htext.symm).1] at hlength
    cases hlength
  | case3 offset c rest hfits ih =>
    simp only [Option.map_eq_some_iff, Prod.exists, ih, Prod.mk.injEq]
    constructor
    · rintro ⟨front, _, ⟨rfl, hlength⟩, rfl, rfl⟩
      refine ⟨rfl, ?_⟩
      rw [byteLength_cons]
      omega
    · rintro ⟨htext, hlength⟩
      cases front with
      | nil => cases hlength
      | cons d front =>
        obtain ⟨rfl, rfl⟩ := List.cons.inj htext
        rw [byteLength_cons] at hlength
        exact ⟨front, back, ⟨rfl, by omega⟩, rfl, rfl⟩
  | case4 offset c rest hlong =>
    refine ⟨nofun, fun ⟨htext, hlength⟩ => ?_⟩
    cases front with
    | nil => cases hlength
    | cons d front =>
      obtain ⟨rfl, rfl⟩ := List.cons.inj htext
      rw [byteLength_cons] at hlength
      omega

/-- The part of a text between two offsets, if there is such a slice. -/
def slice? (text : List Char) (start stop : Nat) : Option (List Char) := do
  let (before, _) ← splitAtByte? stop text
  let (_, part) ← splitAtByte? start before
  return part

/-- A slice has its offsets at its ends. -/
theorem slice?_eq_some_iff {text part : List Char} {start stop : Nat} :
    slice? text start stop = some part ↔
      ∃ front back, text = front ++ (part ++ back) ∧ byteLength front = start ∧
        byteLength (front ++ part) = stop := by
  constructor
  · intro h
    obtain ⟨⟨before, back⟩, hbefore, h⟩ := Option.bind_eq_some_iff.mp h
    obtain ⟨⟨front, _⟩, hfront, hpart⟩ := Option.bind_eq_some_iff.mp h
    cases hpart
    obtain ⟨rfl, hstop⟩ := splitAtByte?_eq_some_iff.mp hbefore
    obtain ⟨rfl, hstart⟩ := splitAtByte?_eq_some_iff.mp hfront
    exact ⟨front, back, List.append_assoc _ _ _, hstart, hstop⟩
  · rintro ⟨front, back, rfl, hstart, hstop⟩
    refine Option.bind_eq_some_iff.mpr ⟨(front ++ part, back), ?_, ?_⟩
    · exact splitAtByte?_eq_some_iff.mpr ⟨(List.append_assoc _ _ _).symm, hstop⟩
    · exact Option.bind_eq_some_iff.mpr
        ⟨(front, part), splitAtByte?_eq_some_iff.mpr ⟨rfl, hstart⟩, rfl⟩

theorem take_append_drop_take (text : List Char) {i j : Nat} (h : i ≤ j) :
    text.take i ++ (text.take j).drop i = text.take j := by
  have htake : (text.take j).take i = text.take i := by
    rw [List.take_take, Nat.min_eq_left h]
  rw [← htake, List.take_append_drop]

/-- **When there is a slice**: the offsets are in order, and each is the beginning of a
character or the end of the text. -/
theorem isSome_slice?_iff {text : List Char} {start stop : Nat} :
    (slice? text start stop).isSome = true ↔
      start ≤ stop ∧ String.Pos.Raw.IsValid (String.ofList text) ⟨start⟩ ∧
        String.Pos.Raw.IsValid (String.ofList text) ⟨stop⟩ := by
  simp only [Option.isSome_iff_exists, slice?_eq_some_iff, String.Pos.Raw.isValid_ofList]
  constructor
  · rintro ⟨part, front, back, rfl, rfl, rfl⟩
    refine ⟨?_, ⟨front.length, ?_⟩, ⟨(front ++ part).length, ?_⟩⟩
    · rw [byteLength_append]
      exact Nat.le_add_right _ _
    · rw [List.take_left]
      rfl
    · rw [← List.append_assoc, List.take_left]
      rfl
  · rintro ⟨hle, ⟨i, hi⟩, ⟨j, hj⟩⟩
    have hstart : byteLength (text.take i) = start := hi.symm
    have hstop : byteLength (text.take j) = stop := hj.symm
    rcases Nat.le_total i j with hij | hji
    · have hsplit := take_append_drop_take text hij
      refine ⟨(text.take j).drop i, text.take i, text.drop j, ?_, hstart, ?_⟩
      · rw [← List.append_assoc, hsplit, List.take_append_drop]
      · rw [hsplit, hstop]
    · -- the later place has the smaller offset, so both offsets are one
      have hlength := congrArg byteLength (take_append_drop_take text hji)
      rw [byteLength_append] at hlength
      refine ⟨[], text.take i, text.drop i, ?_, hstart, ?_⟩
      · rw [List.nil_append, List.take_append_drop]
      · rw [List.append_nil]
        omega

/-- The slice of a text between two of its parts. -/
theorem slice?_append (front part back : List Char) :
    slice? (front ++ (part ++ back)) (byteLength front) (byteLength front + byteLength part) =
      some part :=
  slice?_eq_some_iff.mpr ⟨front, back, rfl, rfl, byteLength_append _ _⟩

/-- The slice of a text from some place on. -/
theorem slice?_back (front back : List Char) :
    slice? (front ++ back) (byteLength front) (byteLength (front ++ back)) = some back :=
  slice?_eq_some_iff.mpr ⟨front, [], by rw [List.append_nil], rfl, rfl⟩

/-! ## Places outside literals -/

/-- The offsets of the characters outside literals, each with the depth of parentheses
there, for a scan that has come to `offset`. -/
def bytePlacesFrom (scan : Scan) (offset : Nat) : List Char → List (Nat × Int)
  | [] => []
  | c :: rest =>
    let later := bytePlacesFrom (scan.advance c) (offset + c.utf8Size) rest
    if scan.inLiteral then later else (offset, scan.depth) :: later

/-- The places of a text outside its literals, from left to right. -/
def bytePlaces (text : List Char) : List (Nat × Int) :=
  bytePlacesFrom Scan.start 0 text

theorem bytePlacesFrom_append (scan : Scan) (offset : Nat) (first second : List Char) :
    bytePlacesFrom scan offset (first ++ second) =
      bytePlacesFrom scan offset first ++
        bytePlacesFrom (scan.after first) (offset + byteLength first) second := by
  induction first generalizing scan offset with
  | nil => rfl
  | cons c first ih =>
    simp only [List.cons_append, bytePlacesFrom, ih, Scan.after_cons, byteLength_cons,
      Nat.add_assoc]
    split
    · rfl
    · rfl

/-- A place has a character on it, and the offset and the depth of what is before it. -/
theorem exists_of_mem_bytePlacesFrom {scan : Scan} {offset : Nat} {text : List Char}
    {place : Nat × Int} (h : place ∈ bytePlacesFrom scan offset text) :
    ∃ before rest, text = before ++ rest ∧ rest ≠ [] ∧ scan.after before = ⟨place.2, false⟩ ∧
      place.1 = offset + byteLength before := by
  induction text generalizing scan offset with
  | nil => cases h
  | cons c rest ih =>
    have hlater : place ∈ bytePlacesFrom (scan.advance c) (offset + c.utf8Size) rest →
        ∃ before later, c :: rest = before ++ later ∧ later ≠ [] ∧
          scan.after before = ⟨place.2, false⟩ ∧ place.1 = offset + byteLength before := by
      intro h
      obtain ⟨before, later, rfl, hne, hscan, hplace⟩ := ih h
      refine ⟨c :: before, later, rfl, hne, hscan, ?_⟩
      rw [hplace, byteLength_cons, Nat.add_assoc]
    rw [bytePlacesFrom] at h
    split at h
    · exact hlater h
    · next hliteral =>
      rcases List.mem_cons.mp h with rfl | h
      · refine ⟨[], c :: rest, rfl, List.cons_ne_nil c rest, ?_, rfl⟩
        rw [Scan.after_nil, ← Bool.eq_false_iff.mpr hliteral]
      · exact hlater h

/-- The places are the spots of the scan, with offsets in bytes. -/
theorem bytePlacesFrom_eq (scan : Scan) (front text : List Char) :
    bytePlacesFrom scan (byteLength front) text =
      (spotsFrom scan front.length text).map fun spot =>
        (byteOffset (front ++ text) spot.offset, spot.depth) := by
  induction text generalizing scan front with
  | nil => rfl
  | cons c rest ih =>
    have hrest := ih (scan.advance c) (front ++ [c])
    rw [byteLength_append, byteLength_singleton, List.length_append, List.length_singleton,
      List.append_assoc, List.singleton_append] at hrest
    simp only [bytePlacesFrom, spotsFrom, hrest]
    split
    · rfl
    · rw [List.map_cons, byteOffset_append]

/-! ## Searches -/

/-- The first of some places at which `pattern` occurs; no outcome if a place to look at
begins no slice. -/
def findByte? (text pattern : List Char) : List (Nat × Int) → Option (Option Nat)
  | [] => some none
  | (offset, _) :: later => do
    let rest ← slice? text offset (byteLength text)
    if pattern.isPrefixOf rest then return some offset else findByte? text pattern later

/-- **A search has an outcome on every text**, the one found on characters. -/
theorem findByte?_eq (text pattern : List Char) :
    findByte? text pattern (bytePlaces text) =
      some ((findOutside? text pattern).map (byteOffset text)) := by
  have hplaces : bytePlaces text =
      (spots text).map fun spot => (byteOffset text spot.offset, spot.depth) :=
    bytePlacesFrom_eq Scan.start [] text
  have hslices : ∀ spot ∈ spots text,
      slice? text (byteOffset text spot.offset) (byteLength text) = some spot.rest := by
    intro spot hspot
    obtain ⟨before, htext, -, -, hoffset⟩ := mem_spots_iff.mp hspot
    rw [hoffset, htext, byteOffset_append]
    exact slice?_back before spot.rest
  rw [hplaces, findOutside?, Option.map_map]
  clear hplaces
  generalize spots text = found at *
  induction found with
  | nil => rfl
  | cons spot later ih =>
    obtain ⟨hslice, hlater⟩ := List.forall_mem_cons.mp hslices
    simp only [List.map_cons, findByte?, hslice, Option.bind_eq_bind, Option.bind_some,
      List.find?_cons]
    cases pattern.isPrefixOf spot.rest with
    | true => rfl
    | false => exact ih hlater

/-! ## Cuts -/

/-- The parts of a text from `start` on, cut at those of some places at which `keyword`
occurs outside parentheses; no outcome if a slice is asked for that does not exist. -/
def cutAtBytes? (text keyword : List Char) (start : Nat) :
    List (Nat × Int) → Option (List (List Char))
  | [] => do
    let last ← slice? text start (byteLength text)
    return [trim last]
  | (offset, depth) :: later => do
    if offset < start ∨ depth ≠ 0 then cutAtBytes? text keyword start later
    else
      let rest ← slice? text offset (byteLength text)
      if keyword.isPrefixOf rest then
        let part ← slice? text start offset
        let others ← cutAtBytes? text keyword (offset + byteLength keyword) later
        return trim part :: others
      else cutAtBytes? text keyword start later

/-- The parts of a text between the occurrences of `keyword`. -/
def splitAtBytes? (text keyword : List Char) : Option (List (List Char)) :=
  cutAtBytes? text keyword 0 (bytePlaces text)

section Cuts

variable {text keyword : List Char} {start : Nat}

/-- A place at which a text that has been cut at `start` is not cut again. -/
def Passed (text keyword : List Char) (start : Nat) (place : Nat × Int) : Prop :=
  (place.1 < start ∨ place.2 ≠ 0) ∨
    ∃ rest, slice? text place.1 (byteLength text) = some rest ∧ ¬keyword <+: rest

theorem cutAtBytes?_append {passed : List (Nat × Int)}
    (h : ∀ place ∈ passed, Passed text keyword start place) (later : List (Nat × Int)) :
    cutAtBytes? text keyword start (passed ++ later) = cutAtBytes? text keyword start later := by
  induction passed with
  | nil => rfl
  | cons place passed ih =>
    obtain ⟨hplace, hpassed⟩ := List.forall_mem_cons.mp h
    rw [List.cons_append, cutAtBytes?]
    rcases hplace with hskip | ⟨rest, hslice, hstarts⟩
    · rw [if_pos hskip]
      exact ih hpassed
    · split
      · exact ih hpassed
      · rw [hslice, Option.bind_eq_bind, Option.bind_some,
          if_neg (mt List.isPrefixOf_iff_prefix.mp hstarts)]
        exact ih hpassed

/-- The places in front of the end of the last keyword are passed. -/
theorem passed_of_lt {scan : Scan} {offset : Nat} {part : List Char}
    (hstart : offset + byteLength part ≤ start) :
    ∀ place ∈ bytePlacesFrom scan offset part, Passed text keyword start place := by
  intro place hplace
  obtain ⟨before, rest, rfl, hrest, -, hoffset⟩ := exists_of_mem_bytePlacesFrom hplace
  have hpos := byteLength_pos hrest
  rw [byteLength_append] at hstart
  exact .inl (.inl (by omega))

/-- The places of a part without a cut are passed. -/
theorem passed_of_uncutBefore {scan : Scan} {front part follow : List Char}
    (huncut : UncutBefore keyword scan part follow) :
    ∀ place ∈ bytePlacesFrom scan (byteLength front) part,
      Passed (front ++ (part ++ follow)) keyword start place := by
  intro place hplace
  obtain ⟨before, rest, rfl, hrest, hscan, hoffset⟩ := exists_of_mem_bytePlacesFrom hplace
  by_cases hdepth : place.2 = 0
  · refine .inr ⟨rest ++ follow, ?_, huncut before rest rfl hrest ?_⟩
    · rw [hoffset, ← byteLength_append, List.append_assoc, ← List.append_assoc]
      exact slice?_back _ _
    · exact Scan.atTop_iff.mpr ⟨by rw [hscan], by rw [hscan, hdepth]⟩
  · exact .inl (.inr hdepth)

/-- The cut at a keyword that stands at its place. -/
theorem cutAtBytes?_keyword (hkeyword : keyword ≠ []) {scan : Scan} (htop : scan.atTop = true)
    (front segment rest : List Char) (later : List (Nat × Int)) :
    cutAtBytes? (front ++ (segment ++ (keyword ++ rest))) keyword (byteLength front)
        (bytePlacesFrom scan (byteLength (front ++ segment)) keyword ++ later) =
      (cutAtBytes? (front ++ (segment ++ (keyword ++ rest))) keyword
        (byteLength (front ++ (segment ++ keyword))) later).map (trim segment :: ·) := by
  obtain ⟨hliteral, hdepth⟩ := Scan.atTop_iff.mp htop
  obtain ⟨c, others, hcons⟩ := List.exists_cons_of_ne_nil hkeyword
  have hplaces : bytePlacesFrom scan (byteLength (front ++ segment)) keyword =
      (byteLength (front ++ segment), 0) ::
        bytePlacesFrom (scan.advance c) (byteLength (front ++ segment) + c.utf8Size) others := by
    rw [hcons, bytePlacesFrom, hliteral, hdepth]
    rfl
  have hhere : slice? (front ++ (segment ++ (keyword ++ rest))) (byteLength (front ++ segment))
      (byteLength (front ++ (segment ++ (keyword ++ rest)))) = some (keyword ++ rest) := by
    rw [← List.append_assoc]
    exact slice?_back _ _
  have hpart : slice? (front ++ (segment ++ (keyword ++ rest))) (byteLength front)
      (byteLength (front ++ segment)) = some segment := by
    rw [byteLength_append]
    exact slice?_append _ _ _
  have hstop : byteLength (front ++ segment) + byteLength keyword =
      byteLength (front ++ (segment ++ keyword)) := by
    rw [← byteLength_append, List.append_assoc]
  have hpassed : ∀ place ∈
      bytePlacesFrom (scan.advance c) (byteLength (front ++ segment) + c.utf8Size) others,
      Passed (front ++ (segment ++ (keyword ++ rest))) keyword
        (byteLength (front ++ (segment ++ keyword))) place := by
    refine passed_of_lt ?_
    rw [← hstop, hcons, byteLength_cons, Nat.add_assoc]
  have hbefore : ¬(byteLength (front ++ segment) < byteLength front ∨ (0 : Int) ≠ 0) := by
    rw [byteLength_append]
    omega
  rw [hplaces, List.cons_append, cutAtBytes?, if_neg hbefore, hhere, Option.bind_eq_bind,
    Option.bind_some, if_pos (List.isPrefixOf_iff_prefix.mpr (List.prefix_append _ _)), hpart,
    hstop, cutAtBytes?_append hpassed]
  cases cutAtBytes? (front ++ (segment ++ (keyword ++ rest))) keyword
    (byteLength (front ++ (segment ++ keyword))) later <;> rfl

/-- Cutting at offsets follows the cutting of the characters. -/
theorem Cutting.cutAtBytes?_eq (hkeyword : keyword ≠ []) {scan : Scan} {rest : List Char}
    {pieces : List (List Char)} (h : Cutting keyword scan rest pieces) (front : List Char) :
    cutAtBytes? (front ++ rest) keyword (byteLength front)
      (bytePlacesFrom scan (byteLength front) rest) = some (pieces.map trim) := by
  induction h generalizing front with
  | @last scan rest uncut =>
    have hpassed := @passed_of_uncutBefore keyword (byteLength front) _ front _ [] uncut
    rw [List.append_nil] at hpassed
    have hcut := cutAtBytes?_append hpassed []
    rw [List.append_nil] at hcut
    rw [hcut, cutAtBytes?, slice?_back]
    rfl
  | @cut scan segment rest later uncut top tail ih =>
    have htail := ih (front ++ (segment ++ keyword))
    have htext : front ++ (segment ++ keyword) ++ rest =
        front ++ (segment ++ (keyword ++ rest)) := by
      simp only [List.append_assoc]
    have hoffset : byteLength (front ++ segment) + byteLength keyword =
        byteLength (front ++ (segment ++ keyword)) := by
      rw [← byteLength_append, List.append_assoc]
    rw [htext] at htail
    rw [bytePlacesFrom_append, cutAtBytes?_append (passed_of_uncutBefore uncut),
      bytePlacesFrom_append, ← byteLength_append, cutAtBytes?_keyword hkeyword top, hoffset,
      ← Scan.after_append, htail]
    rfl

/-- **A cut has an outcome on every text**, the one found on characters. -/
theorem splitAtBytes?_eq (hkeyword : keyword ≠ []) (text : List Char) :
    splitAtBytes? text keyword = some (splitTopLevel text keyword) :=
  (cutting_segmentsFrom hkeyword Scan.start text).cutAtBytes?_eq hkeyword []

end Cuts

end KoreanScript.Text
