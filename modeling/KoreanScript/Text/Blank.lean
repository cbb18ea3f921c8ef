/-!
# White space, trimming and comments

Source text is scanned as a list of characters.  A character is white space when
it has the Unicode White_Space property; trimming removes such characters from
the two ends of a text and nothing from its inside.  A comment starts at the
first `#` of a line, wherever that stands, and runs to the end of the line.
-/

set_option autoImplicit false

namespace KoreanScript.Text

/-! ## The White_Space property -/

/-- Whether a character has the Unicode White_Space property. -/
def isSpace (c : Char) : Bool :=
  let n := c.toNat
  (0x9 ≤ n && n ≤ 0xD) || n == 0x20 || n == 0x85 || n == 0xA0 || n == 0x1680 ||
    (0x2000 ≤ n && n ≤ 0x200A) || n == 0x2028 || n == 0x2029 || n == 0x202F ||
    n == 0x205F || n == 0x3000

/-! ## Trimming -/

/-- A text without its leading white space. -/
def trimStart (text : List Char) : List Char :=
  text.dropWhile isSpace

/-- A text without its trailing white space. -/
def trimEnd (text : List Char) : List Char :=
  (text.reverse.dropWhile isSpace).reverse

/-- A text without white space at either end. -/
def trim (text : List Char) : List Char :=
  trimEnd (trimStart text)

theorem length_trimStart_le (text : List Char) : (trimStart text).length ≤ text.length :=
  (List.dropWhile_sublist isSpace).length_le

theorem length_trimEnd_le (text : List Char) : (trimEnd text).length ≤ text.length := by
  have h : (text.reverse.dropWhile isSpace).length ≤ text.reverse.length :=
    (List.dropWhile_sublist isSpace).length_le
  simpa [trimEnd] using h

/-- Trimming never makes a text longer. -/
theorem length_trim_le (text : List Char) : (trim text).length ≤ text.length :=
  Nat.le_trans (length_trimEnd_le _) (length_trimStart_le _)

theorem trimEnd_subset (text : List Char) : trimEnd text ⊆ text := fun _ hc =>
  List.mem_reverse.mp ((List.dropWhile_sublist isSpace).mem (List.mem_reverse.mp hc))

/-- Trimming leaves only characters of the text. -/
theorem trim_subset (text : List Char) : trim text ⊆ text := fun _ hc =>
  (List.dropWhile_sublist isSpace).mem (trimEnd_subset _ hc)

/-! ## White space around a text -/

section Surrounded

variable {front back : List Char}

theorem trimStart_append (h : ∀ c ∈ front, isSpace c = true) (text : List Char) :
    trimStart (front ++ text) = trimStart text :=
  List.dropWhile_append_of_pos h

theorem trimEnd_append (text : List Char) (h : ∀ c ∈ back, isSpace c = true) :
    trimEnd (text ++ back) = trimEnd text := by
  have hreverse : ∀ c ∈ back.reverse, isSpace c = true := by simpa using h
  rw [trimEnd, List.reverse_append, List.dropWhile_append_of_pos hreverse]
  rfl

theorem trimEnd_of_spaces (h : ∀ c ∈ back, isSpace c = true) : trimEnd back = [] :=
  trimEnd_append [] h

/-- White space around a text is trimmed with that of the text itself. -/
theorem trim_surrounded (hfront : ∀ c ∈ front, isSpace c = true) (text : List Char)
    (hback : ∀ c ∈ back, isSpace c = true) : trim (front ++ (text ++ back)) = trim text := by
  rw [trim, trim, trimStart_append hfront, trimStart, trimStart, List.dropWhile_append]
  split
  · next hempty =>
    have hall : ∀ c ∈ back.dropWhile isSpace, isSpace c = true := fun c hc =>
      hback c ((List.dropWhile_sublist isSpace).mem hc)
    rw [List.isEmpty_iff.mp hempty, trimEnd_of_spaces hall]
    rfl
  · exact trimEnd_append _ hback

theorem trimStart_of_solid {solid : List Char} (h : ∀ c ∈ solid, isSpace c = false) :
    trimStart solid = solid := by
  cases solid with
  | nil => rfl
  | cons c others =>
    have hc : isSpace c = false := h c List.mem_cons_self
    exact List.dropWhile_cons_of_neg (by simp [hc])

/-- The end of a text is trimmed only up to its last character that is no white space. -/
theorem trimEnd_append_of_solid {solid : List Char} (h : ∀ c ∈ solid, isSpace c = false)
    (rest : List Char) : trimEnd (solid ++ rest) = solid ++ trimEnd rest := by
  have hsolid : solid.reverse.dropWhile isSpace = solid.reverse :=
    trimStart_of_solid fun c hc => h c (List.mem_reverse.mp hc)
  rw [trimEnd, trimEnd, List.reverse_append, List.dropWhile_append]
  split
  · next hempty => rw [hsolid, List.isEmpty_iff.mp hempty, List.reverse_reverse,
      List.reverse_nil, List.append_nil]
  · rw [List.reverse_append, List.reverse_reverse]

/-- A text without white space is trimmed already. -/
theorem trim_of_solid {text : List Char} (h : ∀ c ∈ text, isSpace c = false) :
    trim text = text := by
  have hend := trimEnd_append_of_solid h []
  rw [List.append_nil] at hend
  rw [trim, trimStart_of_solid h, hend]
  exact List.append_nil text

theorem isSpace_of_mem_takeWhile {text : List Char} {c : Char}
    (h : c ∈ text.takeWhile isSpace) : isSpace c = true :=
  List.all_eq_true.mp List.all_takeWhile c h

/-- A text is what trimming leaves of it, with white space around. -/
theorem exists_surrounded (text : List Char) :
    ∃ front back, (∀ c ∈ front, isSpace c = true) ∧ (∀ c ∈ back, isSpace c = true) ∧
      text = front ++ (trim text ++ back) := by
  refine ⟨text.takeWhile isSpace, ((trimStart text).reverse.takeWhile isSpace).reverse,
    fun c hc => isSpace_of_mem_takeWhile hc,
    fun c hc => isSpace_of_mem_takeWhile (List.mem_reverse.mp hc), ?_⟩
  have hend : trim text ++ ((trimStart text).reverse.takeWhile isSpace).reverse =
      trimStart text := by
    rw [trim, trimEnd, ← List.reverse_append, List.takeWhile_append_dropWhile,
      List.reverse_reverse]
  rw [hend, trimStart, List.takeWhile_append_dropWhile]

/-- Trimming once is enough. -/
theorem trim_trim (text : List Char) : trim (trim text) = trim text := by
  obtain ⟨front, back, hfront, hback, htext⟩ := exists_surrounded text
  calc trim (trim text)
    _ = trim (front ++ (trim text ++ back)) := (trim_surrounded hfront _ hback).symm
    _ = trim text := by rw [← htext]

end Surrounded

/-! ## Comments -/

/-- The code of a line: what stands before its comment, trimmed. -/
def stripComment (line : List Char) : List Char :=
  trim (line.takeWhile (· != '#'))

theorem stripComment_subset (line : List Char) : stripComment line ⊆ line :=
  fun _ hc => (List.takeWhile_sublist _).mem (trim_subset _ hc)

end KoreanScript.Text
