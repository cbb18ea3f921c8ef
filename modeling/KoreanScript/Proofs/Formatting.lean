import Mathlib.Data.List.Forall2
import Mathlib.Data.List.TakeWhile
import KoreanScript.Proofs.Anchoring

/-!
# What a run reads of a line

Three readers look at a line in three ways.  Its statement is told by its code, that is
by what is left without the comment and trimmed; the end of a block is found by the
braces of the whole line, comment included; and whether it goes on with the second
block of a conditional is told by its beginning, with only the white space in front of
it removed.  The last two could disagree with the first.  They do not: the keyword has
neither white space nor a comment sign in it, so a line begins with it just if its code
does (`startsElse_stripComment`).

Hence two sources run alike if their lines agree on their code and on which braces they
contain.  Indentation, white space at the end of a line and the words of a comment
without braces belong to neither.
-/

set_option autoImplicit false

namespace KoreanScript

/-! ## The keyword of a second block -/

/-- A line starts a second block if the keyword stands behind white space at most. -/
theorem startsElse_iff {line : List Char} :
    startsElse line = true ↔
      ∃ front rest, (∀ c ∈ front, Text.isSpace c = true) ∧
        line = front ++ (elseKeyword ++ rest) := by
  constructor
  · intro h
    obtain ⟨rest, hrest⟩ := List.isPrefixOf_iff_prefix.mp h
    refine ⟨line.takeWhile Text.isSpace, rest, fun c hc => Text.isSpace_of_mem_takeWhile hc, ?_⟩
    rw [hrest, Text.trimStart, List.takeWhile_append_dropWhile]
  · rintro ⟨front, rest, hfront, rfl⟩
    rw [startsElse, Text.trimStart_append hfront]
    exact List.isPrefixOf_iff_prefix.mpr (List.prefix_append elseKeyword rest)

/-- The code of a line that starts a second block. -/
theorem stripComment_elseKeyword {front : List Char} (h : ∀ c ∈ front, Text.isSpace c = true)
    (rest : List Char) :
    Text.stripComment (front ++ (elseKeyword ++ rest)) =
      elseKeyword ++ Text.trimEnd (rest.takeWhile (· != '#')) := by
  have hfront : ∀ c ∈ front, (c != '#') = true := by
    intro c hc
    rw [bne_iff_ne]
    rintro rfl
    cases h _ hc
  have hcode : (front ++ (elseKeyword ++ rest)).takeWhile (· != '#') =
      front ++ (elseKeyword ++ rest.takeWhile (· != '#')) := by
    rw [List.takeWhile_append_of_pos hfront]
    rfl
  have hsolid : ∀ c ∈ elseKeyword, Text.isSpace c = false := by
    simp only [elseKeyword, List.forall_mem_cons]
    exact ⟨rfl, rfl, rfl, List.forall_mem_nil _⟩
  rw [Text.stripComment, hcode, Text.trim, Text.trimStart_append h]
  exact Text.trimEnd_append_of_solid hsolid _

/-- **Whether a line starts a second block is told by its code.** -/
theorem startsElse_stripComment (line : List Char) :
    startsElse (Text.stripComment line) = startsElse line := by
  rw [Bool.eq_iff_iff]
  constructor
  · intro h
    obtain ⟨inner, rest, hinner, hcode⟩ := startsElse_iff.mp h
    obtain ⟨front, back, hfront, -, hline⟩ :=
      Text.exists_surrounded (line.takeWhile (· != '#'))
    refine startsElse_iff.mpr
      ⟨front ++ inner, rest ++ back ++ line.dropWhile (· != '#'), ?_, ?_⟩
    · exact List.forall_mem_append.mpr ⟨hfront, hinner⟩
    · calc line
        _ = line.takeWhile (· != '#') ++ line.dropWhile (· != '#') :=
          List.takeWhile_append_dropWhile.symm
        _ = front ++ (Text.stripComment line ++ back) ++ line.dropWhile (· != '#') :=
          congrArg (· ++ _) hline
        _ = _ := by simp only [hcode, List.append_assoc]
  · intro h
    obtain ⟨front, rest, hfront, rfl⟩ := startsElse_iff.mp h
    exact startsElse_iff.mpr
      ⟨[], _, List.forall_mem_nil _, stripComment_elseKeyword hfront rest⟩

/-! ## Lines that are read alike -/

/-- Lines with the same code and the same kinds of braces. -/
structure SameLine (line other : List Char) : Prop where
  code : Text.stripComment line = Text.stripComment other
  opens : '{' ∈ line ↔ '{' ∈ other
  closes : '}' ∈ line ↔ '}' ∈ other

instance (line other : List Char) : Decidable (SameLine line other) :=
  have hiff : (Text.stripComment line = Text.stripComment other ∧ ('{' ∈ line ↔ '{' ∈ other) ∧
      ('}' ∈ line ↔ '}' ∈ other)) ↔ SameLine line other :=
    ⟨fun h => ⟨h.1, h.2.1, h.2.2⟩, fun h => ⟨h.code, h.opens, h.closes⟩⟩
  decidable_of_decidable_of_iff hiff

/-- **All that a run reads of a line is its code and its braces.** -/
theorem SameLine.ofText_eq {line other : List Char} (h : SameLine line other) :
    Line.ofText line = Line.ofText other := by
  have hstatement : Statement.ofLine line = Statement.ofLine other := by
    rw [Statement.ofLine, Statement.ofLine, h.code]
  have hopens : line.contains '{' = other.contains '{' := by
    rw [Bool.eq_iff_iff, List.contains_iff_mem, List.contains_iff_mem, h.opens]
  have hcloses : line.contains '}' = other.contains '}' := by
    rw [Bool.eq_iff_iff, List.contains_iff_mem, List.contains_iff_mem, h.closes]
  have helse : startsElse line = startsElse other := by
    rw [← startsElse_stripComment line, h.code, startsElse_stripComment other]
  simp only [Line.ofText, hstatement, hopens, hcloses, helse]

/-- A line with some code, in any indentation, with white space after it or not, and with
a comment without braces or none. -/
inductive Writes (code : List Char) : List Char → Prop where
  | plain {front back : List Char} (indentation : ∀ c ∈ front, Text.isSpace c = true)
      (blanks : ∀ c ∈ back, Text.isSpace c = true) : Writes code (front ++ (code ++ back))
  | commented {front back words : List Char} (indentation : ∀ c ∈ front, Text.isSpace c = true)
      (blanks : ∀ c ∈ back, Text.isSpace c = true) (noOpening : '{' ∉ words)
      (noClosing : '}' ∉ words) : Writes code (front ++ (code ++ back) ++ '#' :: words)

namespace Writes

variable {code line : List Char}

/-- The code that a line was written from, trimmed, is its code. -/
theorem stripComment_eq (h : Writes code line) (hcode : '#' ∉ code) :
    Text.stripComment line = Text.trim code := by
  have hbare {front back : List Char} (hfront : ∀ c ∈ front, Text.isSpace c = true)
      (hback : ∀ c ∈ back, Text.isSpace c = true) :
      ∀ c ∈ front ++ (code ++ back), (c != '#') = true := by
    intro c hc
    rw [bne_iff_ne]
    rintro rfl
    rcases List.mem_append.mp hc with hmem | hmem
    · cases hfront _ hmem
    · rcases List.mem_append.mp hmem with hmem | hmem
      · exact hcode hmem
      · cases hback _ hmem
  cases h with
  | plain indentation blanks =>
    rw [Text.stripComment, List.takeWhile_eq_self_iff.mpr (hbare indentation blanks),
      Text.trim_surrounded indentation code blanks]
  | commented indentation blanks _ _ =>
    rw [Text.stripComment, List.takeWhile_append_of_pos (hbare indentation blanks),
      List.takeWhile_cons_of_neg (by decide), List.append_nil,
      Text.trim_surrounded indentation code blanks]

/-- The braces of a line are those of its code. -/
theorem mem_iff (h : Writes code line) {brace : Char} (hbrace : brace = '{' ∨ brace = '}') :
    brace ∈ line ↔ brace ∈ code := by
  have hspace : Text.isSpace brace = false := by
    rcases hbrace with rfl | rfl <;> decide
  have hspaces {run : List Char} (hrun : ∀ c ∈ run, Text.isSpace c = true) : brace ∉ run :=
    fun hmem => Bool.false_ne_true (hspace.symm.trans (hrun _ hmem))
  cases h with
  | plain indentation blanks => simp [hspaces indentation, hspaces blanks]
  | @commented _ _ words indentation blanks noOpening noClosing =>
    have hwords : brace ∉ '#' :: words := by
      rcases hbrace with rfl | rfl <;> simp [noOpening, noClosing]
    rw [List.mem_append, or_iff_left hwords]
    simp [hspaces indentation, hspaces blanks]

/-- Lines written from the same code are read alike. -/
theorem sameLine {other : List Char} (h : Writes code line) (hother : Writes code other)
    (hcode : '#' ∉ code) : SameLine line other where
  code := (h.stripComment_eq hcode).trans (hother.stripComment_eq hcode).symm
  opens := (h.mem_iff (.inl rfl)).trans (hother.mem_iff (.inl rfl)).symm
  closes := (h.mem_iff (.inr rfl)).trans (hother.mem_iff (.inr rfl)).symm

end Writes

/-- Lines that differ in indentation, in white space at the end and in the words of
comments without braces. -/
def Rewritten (line other : List Char) : Prop :=
  ∃ code, '#' ∉ code ∧ Writes code line ∧ Writes code other

theorem Rewritten.sameLine {line other : List Char} (h : Rewritten line other) :
    SameLine line other := by
  obtain ⟨code, hcode, hline, hother⟩ := h
  exact hline.sameLine hother hcode

/-! ## Sources that run alike -/

/-- Sources whose lines are read alike are the same program. -/
theorem ofSource_eq_of_sameLines {source other : String}
    (h : List.Forall₂ SameLine (Text.lines source.toList) (Text.lines other.toList)) :
    Program.ofSource source = Program.ofSource other := by
  rw [Program.ofSource, Program.ofSource]
  generalize Text.lines source.toList = lines at h
  generalize Text.lines other.toList = others at h
  induction h with
  | nil => rfl
  | cons hline _ ih => rw [List.map_cons, List.map_cons, hline.ofText_eq, ih]

/-- Sources that no host can tell apart: their runs make the same calls, with the same
result and the same variables in the end. -/
structure RunAlike (source other : String) : Prop where
  execute : ∀ (m : Type → Type) [Monad m] [Host m],
    (Interpreter.execute source : Interpreter m (Except Fault Unit)) = Interpreter.execute other
  observe : ∀ (σ : Type) [Host (StateM σ)] (previous : Machine) (host : σ),
    Interpreter.observe source previous host = Interpreter.observe other previous host

/-- Sources of the same program run alike. -/
theorem runAlike_of_ofSource_eq {source other : String}
    (h : Program.ofSource source = Program.ofSource other) : RunAlike source other := by
  have hstart : Machine.start source = Machine.start other := by
    rw [Machine.start, Machine.start, h]
  constructor
  · intro m _ _
    rw [Interpreter.execute, Interpreter.execute, hstart]
  · intro σ _ previous host
    rw [Interpreter.observe, Interpreter.observe, Interpreter.execute, Interpreter.execute, hstart]

/-- **A run depends on a line through its code and its braces alone.**  Two sources run
alike if their lines have, one by one, the same code and the same kinds of braces.  So
indentation, white space at the end of a line and the words of a comment without braces
may be changed in every line, whatever its statement is and however deep it stands. -/
theorem runAlike_of_sameLines (source other : String) :
    (List.Forall₂ SameLine (Text.lines source.toList) (Text.lines other.toList) →
        RunAlike source other) ∧
      (List.Forall₂ Rewritten (Text.lines source.toList) (Text.lines other.toList) →
        RunAlike source other) := by
  constructor
  · intro hsame
    exact runAlike_of_ofSource_eq (ofSource_eq_of_sameLines hsame)
  · intro hrewritten
    have hsame := hrewritten.imp fun _ _ => Rewritten.sameLine
    exact runAlike_of_ofSource_eq (ofSource_eq_of_sameLines hsame)

/-- An indented line with a comment is the line that starts a second block, and a brace
in a comment is kept with other words around it. -/
theorem runAlike_of_sameLines_else :
    let source := "만약 2 < 1 \x7b\n\x7d\n아니면 \x7b\n출력(1) # \x7d"
    let other := "  만약 2 < 1 \x7b\t\n\x7d\n\t아니면 \x7b# 끝\n 출력(1)# 끝 \x7d"
    let plain := "반복 2 \x7b\n출력(1)\n\x7d"
    let indented := "반복 2 \x7b \n\t출력(1) # 끝\n\x7d"
    List.Forall₂ SameLine (Text.lines source.toList) (Text.lines other.toList) ∧
      RunAlike source other ∧
        List.Forall₂ Rewritten (Text.lines plain.toList) (Text.lines indented.toList) ∧
          RunAlike plain indented := by
  intro source other plain indented
  have hsame : List.Forall₂ SameLine (Text.lines source.toList) (Text.lines other.toList) := by
    decide
  have hrewritten :
      List.Forall₂ Rewritten (Text.lines plain.toList) (Text.lines indented.toList) := by
    have bare (code : List Char) : Writes code (code ++ []) :=
      @Writes.plain code [] [] (List.forall_mem_nil _) (List.forall_mem_nil _)
    have hheader : Writes "반복 2 \x7b".toList "반복 2 \x7b ".toList :=
      @Writes.plain "반복 2 \x7b".toList [] [' '] (List.forall_mem_nil _)
        (List.forall_mem_singleton.mpr rfl)
    have hbody : Writes "출력(1)".toList "\t출력(1) # 끝".toList :=
      @Writes.commented "출력(1)".toList ['\t'] [' '] [' ', '끝']
        (List.forall_mem_singleton.mpr rfl) (List.forall_mem_singleton.mpr rfl)
        (by decide) (by decide)
    have hplain : Text.lines plain.toList =
        ["반복 2 \x7b".toList, "출력(1)".toList, ['\x7d']] := by decide
    have hindented : Text.lines indented.toList =
        ["반복 2 \x7b ".toList, "\t출력(1) # 끝".toList, ['\x7d']] := by decide
    rw [hplain, hindented]
    exact .cons ⟨"반복 2 \x7b".toList, by decide, bare "반복 2 \x7b".toList, hheader⟩
      (.cons ⟨"출력(1)".toList, by decide, bare "출력(1)".toList, hbody⟩
        (.cons ⟨['\x7d'], by decide, bare ['\x7d'], bare ['\x7d']⟩ .nil))
  exact ⟨hsame, (runAlike_of_sameLines source other).1 hsame, hrewritten,
    (runAlike_of_sameLines plain indented).2 hrewritten⟩

end KoreanScript
