/-!
# Lines of a text

A line ends at a line feed, and a carriage return right before that line feed
belongs to the line's end.  What follows the last line feed is a line of its own
unless it is empty, so a text that ends with a line feed has no empty last line,
and a carriage return at the very end of a text stays part of its line.
-/

set_option autoImplicit false

namespace KoreanScript.Text

/-- Puts a character in front of the first of a list of texts, or starts a list with it. -/
def consHead (c : Char) : List (List Char) → List (List Char)
  | [] => [[c]]
  | first :: others => (c :: first) :: others

@[simp] theorem consHead_ne_nil (c : Char) (texts : List (List Char)) :
    consHead c texts ≠ [] := by
  cases texts <;> simp [consHead]

/-- The lines of a text, without their ends. -/
def lines : List Char → List (List Char)
  | [] => []
  | '\n' :: rest => [] :: lines rest
  | '\r' :: '\n' :: rest => [] :: lines rest
  | c :: rest => consHead c (lines rest)

/-! ## Line feeds -/

theorem not_mem_of_mem_consHead {c d : Char} {texts : List (List Char)} (hne : d ≠ c)
    (h : ∀ text ∈ texts, d ∉ text) : ∀ text ∈ consHead c texts, d ∉ text := by
  cases texts with
  | nil => simpa [consHead] using hne
  | cons first others =>
    obtain ⟨hfirst, hothers⟩ := List.forall_mem_cons.mp h
    refine List.forall_mem_cons.mpr ⟨?_, hothers⟩
    exact fun hmem => (List.mem_cons.mp hmem).elim hne hfirst

/-- No line contains a line feed. -/
theorem newline_not_mem_of_mem_lines {text : List Char} : ∀ line ∈ lines text, '\n' ∉ line := by
  fun_induction lines text with
  | case1 => exact List.forall_mem_nil _
  | case2 rest ih => exact List.forall_mem_cons.mpr ⟨List.not_mem_nil, ih⟩
  | case3 rest ih => exact List.forall_mem_cons.mpr ⟨List.not_mem_nil, ih⟩
  | case4 c rest hfeed _ ih => exact not_mem_of_mem_consHead (fun h => hfeed h.symm) ih

/-- A text without a line feed is the first line in front of a line's end.  The end is the
longer one, since before a mere line feed a carriage return at the end of the text would
be taken for a part of it. -/
theorem lines_append {line : List Char} (h : '\n' ∉ line) (rest : List Char) :
    lines (line ++ '\r' :: '\n' :: rest) = line :: lines rest := by
  induction line with
  | nil => rfl
  | cons c line ih =>
    obtain ⟨hc, hline⟩ := not_or.mp (mt List.mem_cons.mpr h)
    have hreturn : ∀ later, c = '\r' → line ++ '\r' :: '\n' :: rest = '\n' :: later → False := by
      intro later _ heq
      cases line with
      | nil => cases heq
      | cons d line => exact hline ((List.cons.inj heq).1 ▸ List.mem_cons_self)
    rw [List.cons_append, lines.eq_4 c _ (fun hfeed => hc hfeed.symm) hreturn, ih hline]
    rfl

/-- A text without a line feed is its only line. -/
theorem lines_eq_singleton {text : List Char} (hne : text ≠ []) (h : '\n' ∉ text) :
    lines text = [text] := by
  induction text with
  | nil => exact absurd rfl hne
  | cons c rest ih =>
    obtain ⟨hc, hrest⟩ := not_or.mp (mt List.mem_cons.mpr h)
    have hreturn : ∀ later, c = '\r' → rest = '\n' :: later → False := by
      rintro later - rfl
      exact hrest List.mem_cons_self
    rw [lines.eq_4 c rest (fun hfeed => hc hfeed.symm) hreturn]
    cases rest with
    | nil => rfl
    | cons d others =>
      rw [ih (List.cons_ne_nil d others) hrest]
      rfl

/-- Texts without line feeds are the lines of some text. -/
theorem exists_lines_eq {texts : List (List Char)} (h : ∀ text ∈ texts, '\n' ∉ text) :
    ∃ text, lines text = texts := by
  induction texts with
  | nil => exact ⟨[], rfl⟩
  | cons first others ih =>
    obtain ⟨hfirst, hothers⟩ := List.forall_mem_cons.mp h
    obtain ⟨rest, hrest⟩ := ih hothers
    exact ⟨first ++ '\r' :: '\n' :: rest, by rw [lines_append hfirst, hrest]⟩

end KoreanScript.Text
