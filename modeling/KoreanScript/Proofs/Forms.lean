import Mathlib.Data.List.Infix
import KoreanScript.Proofs.Composition
import KoreanScript.Proofs.Variables

/-!
# The forms of lines

A line is told from its text before any expression in it is read.  This module says what the
line `name = expression` and the header `만약 condition {` are told for, whatever stands in
the expression and in the condition.

The first of them is an input, and not an assignment, just if the input marker stands in
it, be it that the expression begins with the marker's word or that the marker occurs
further on (`ofLine_assignmentLine`).  All other forms need a keyword with a separator
behind it, which is the name itself or no part of it.

The second is a conditional.  Its first brace is removed, wherever that stands
(`ofLine_conditionalHeader_eq`).  That is the brace of the block, and the condition is kept,
just if the condition has no opening brace of its own.
-/

set_option autoImplicit false

namespace KoreanScript

/-! ## Patterns in texts -/

section Patterns

variable {text front back pattern : List Char} {c : Char}

theorem occursIn_iff : occursIn pattern text = true ↔ pattern <:+: text := by
  induction text with
  | nil => simp [occursIn]
  | cons d rest ih =>
    rw [occursIn, Bool.or_eq_true, List.isPrefixOf_iff_prefix, ih, List.infix_cons_iff]

/-- A pattern does not begin in front of its first character. -/
theorem infix_append_iff_of_not_mem (h : c ∉ front) :
    c :: pattern <:+: front ++ text ↔ c :: pattern <:+: text := by
  induction front with
  | nil => rfl
  | cons d front ih =>
    obtain ⟨hd, hfront⟩ := not_or.mp (mt List.mem_cons.mpr h)
    have hhere : ¬c :: pattern <+: d :: (front ++ text) := by
      intro hstart
      exact hd (List.cons_prefix_cons.mp hstart).1
    rw [List.cons_append, List.infix_cons_iff, or_iff_right hhere, ih hfront]

/-- A pattern does not end behind its last character. -/
theorem concat_infix_append_iff_of_not_mem (h : c ∉ back) :
    pattern ++ [c] <:+: text ++ back ↔ pattern ++ [c] <:+: text := by
  have hback : c ∉ back.reverse := mt List.mem_reverse.mp h
  rw [← List.reverse_infix, List.reverse_append, List.reverse_append, List.reverse_singleton,
    List.singleton_append, infix_append_iff_of_not_mem hback, ← List.reverse_infix]
  simp

/-- What stands behind a keyword is found there. -/
theorem afterKeyword?_append (keyword rest : List Char) :
    afterKeyword? keyword (keyword ++ rest) = some rest := by
  have hstart : keyword.isPrefixOf (keyword ++ rest) = true :=
    List.isPrefixOf_iff_prefix.mpr (List.prefix_append keyword rest)
  rw [afterKeyword?, if_pos hstart, List.drop_left]

/-- A trimmed line without a comment is its own code. -/
theorem Text.Trimmed.stripComment_eq (h : Text.Trimmed text) (hsign : '#' ∉ text) :
    Text.stripComment text = text := by
  have hcode : text.takeWhile (· != '#') = text := by
    rw [List.takeWhile_eq_self_iff]
    intro c hc
    exact bne_iff_ne.mpr (ne_of_mem_of_not_mem hc hsign)
  rw [Text.stripComment, hcode, h.trim_eq]

end Patterns

/-! ## Headers of conditionals -/

/-- The header of a conditional with some condition. -/
def conditionalHeader (condition : List Char) : List Char :=
  ifKeyword ++ (condition ++ [' ', '{'])

section Header

variable {condition : List Char}

theorem trimmed_conditionalHeader (condition : List Char) :
    Text.Trimmed (conditionalHeader condition) where
  ne_nil := List.cons_ne_nil _ _
  head := rfl
  last := by
    have hlast : (conditionalHeader condition).getLast? = some '{' := by
      simp [conditionalHeader]
    rw [hlast]
    rfl

/-- The marker of inputs is in a header only if it is in the condition. -/
theorem inputMarker_infix_conditionalHeader_iff :
    inputMarker <:+: conditionalHeader condition ↔ inputMarker <:+: condition := by
  have hfront : '=' ∉ ifKeyword := by decide
  have hback : '력' ∉ [' ', '{'] := by decide
  have hlast : inputMarker = ['=', ' ', '입'] ++ ['력'] := rfl
  calc inputMarker <:+: conditionalHeader condition
    _ ↔ inputMarker <:+: condition ++ [' ', '{'] := infix_append_iff_of_not_mem hfront
    _ ↔ inputMarker <:+: condition := by rw [hlast, concat_infix_append_iff_of_not_mem hback]

/-- Without an opening brace of its own, a condition is kept. -/
theorem trim_erase_of_not_mem (h : Text.Trimmed condition) (hbrace : '{' ∉ condition) :
    Text.trim ((condition ++ [' ', '{']).erase '{') = condition := by
  have herase : (condition ++ [' ', '{']).erase '{' = [] ++ (condition ++ [' ']) := by
    rw [List.erase_append_right _ hbrace]
    rfl
  have hblank : ∀ c ∈ [' '], Text.isSpace c = true := List.forall_mem_singleton.mpr rfl
  rw [herase, Text.trim_surrounded (List.forall_mem_nil _) condition hblank, h.trim_eq]

/-- With one, it loses that and has the brace of the block at its end. -/
theorem trim_erase_of_mem (h : Text.Trimmed condition) (houtside : '{' ∉ Text.outside condition)
    (hbrace : '{' ∈ condition) :
    Text.trim ((condition ++ [' ', '{']).erase '{') = condition.erase '{' ++ [' ', '{'] := by
  rw [List.erase_append_left _ hbrace]
  obtain ⟨first, rest, rfl⟩ := List.exists_cons_of_ne_nil h.ne_nil
  -- the brace is inside a literal, so it is not the first character
  have hfirst : first ≠ '{' := by
    rintro rfl
    exact houtside (@Text.mem_outside [] rest '{' rfl (by decide))
  have herase : (first :: rest).erase '{' = first :: rest.erase '{' :=
    List.erase_cons_tail (by simpa using hfirst)
  have htrimmed : Text.Trimmed (first :: (rest.erase '{' ++ [' ', '{'])) := {
    ne_nil := List.cons_ne_nil _ _
    head := h.head
    last := by
      rw [← List.cons_append, List.getLast?_append]
      rfl }
  rw [herase, List.cons_append, htrimmed.trim_eq]

/-- The statement of a header, with the brace removed that comes first. -/
theorem ofLine_conditionalHeader_eq (hsign : '#' ∉ condition)
    (hmarker : ¬inputMarker <:+: condition) :
    Statement.ofLine (conditionalHeader condition) =
      .conditional (Text.trim ((condition ++ [' ', '{']).erase '{')) := by
  have hcode : Text.stripComment (conditionalHeader condition) = conditionalHeader condition := by
    refine (trimmed_conditionalHeader condition).stripComment_eq ?_
    simpa [conditionalHeader, ifKeyword] using hsign
  have hempty : (conditionalHeader condition).isEmpty = false := rfl
  have hprint : printKeyword.isPrefixOf (conditionalHeader condition) = false := rfl
  have hinput : ¬occursIn inputMarker (conditionalHeader condition) = true := by
    rwa [occursIn_iff, inputMarker_infix_conditionalHeader_iff]
  have hif : afterKeyword? ifKeyword (conditionalHeader condition) =
      some (condition ++ [' ', '{']) := afterKeyword?_append ifKeyword _
  rw [Statement.ofLine, hcode, Statement.ofCode, hempty, hprint, hif, Bool.false_and,
    if_neg Bool.false_ne_true, if_neg Bool.false_ne_true, if_neg hinput]

/-- **The header of a conditional keeps a condition just if that has no opening brace.**  A
brace inside a literal of the condition is removed in the place of the one that opens the
block, and this one stays at the end of the condition. -/
theorem ofLine_conditionalHeader (h : Text.Trimmed condition) (hsign : '#' ∉ condition)
    (hmarker : ¬inputMarker <:+: condition)
    (houtside : '{' ∉ Text.outside condition) :
    (Statement.ofLine (conditionalHeader condition) = .conditional condition ↔
        '{' ∉ condition) ∧
      ('{' ∈ condition → Statement.ofLine (conditionalHeader condition) =
        .conditional (condition.erase '{' ++ [' ', '{'])) := by
  have hstatement := ofLine_conditionalHeader_eq hsign hmarker
  refine ⟨⟨?_, ?_⟩, ?_⟩
  · intro hkept hbrace
    rw [hstatement, trim_erase_of_mem h houtside hbrace] at hkept
    have hlength := congrArg List.length (Statement.conditional.inj hkept)
    have hpos := List.length_pos_of_mem hbrace
    rw [List.length_append, List.length_erase_of_mem hbrace] at hlength
    simp only [List.length_cons, List.length_nil] at hlength
    omega
  · intro hbrace
    rw [hstatement, trim_erase_of_not_mem h hbrace]
  · intro hbrace
    rw [hstatement, trim_erase_of_mem h houtside hbrace]

/-- A condition that is kept, and one whose literal has a brace. -/
theorem ofLine_conditionalHeader_literal :
    let kept := "나이 >= 19 그리고 글 != \"\x7d\"".toList
    let changed := "글 == \"\x7b가\"".toList
    ((Text.Trimmed kept ∧ '#' ∉ kept ∧ ¬inputMarker <:+: kept ∧ '{' ∉ Text.outside kept) ∧
        Statement.ofLine (conditionalHeader kept) = .conditional kept) ∧
      (Text.Trimmed changed ∧ '#' ∉ changed ∧ ¬inputMarker <:+: changed ∧
          '{' ∉ Text.outside changed) ∧
        Statement.ofLine (conditionalHeader changed) =
          .conditional "글 == \"가\" \x7b".toList := by
  intro kept changed
  have hkept : Text.Trimmed kept ∧ '#' ∉ kept ∧ ¬inputMarker <:+: kept ∧
      '{' ∉ Text.outside kept := by decide
  have hchanged : Text.Trimmed changed ∧ '#' ∉ changed ∧ ¬inputMarker <:+: changed ∧
      '{' ∉ Text.outside changed := by decide
  obtain ⟨htrimmed, hsign, hmarker, houtside⟩ := hkept
  obtain ⟨hstays, -⟩ := ofLine_conditionalHeader htrimmed hsign hmarker houtside
  obtain ⟨htrimmed', hsign', hmarker', houtside'⟩ := hchanged
  obtain ⟨-, hloses⟩ := ofLine_conditionalHeader htrimmed' hsign' hmarker' houtside'
  exact ⟨⟨⟨htrimmed, hsign, hmarker, houtside⟩, hstays.mpr (by decide)⟩,
    ⟨htrimmed', hsign', hmarker', houtside'⟩, hloses (by decide)⟩

/-- A condition of two equal literals, which holds, is not what its header asks to evaluate. -/
theorem exists_condition_not_kept :
    let condition := "\"\x7b\" == \"\x7b\"".toList
    let handed := "\"\" == \"\x7b\" \x7b".toList
    (Text.Trimmed condition ∧ condition.count '"' % 2 = 0 ∧ '#' ∉ condition ∧
        ¬inputMarker <:+: condition ∧ '{' ∉ Text.outside condition ∧
          '}' ∉ Text.outside condition) ∧
      Statement.ofLine (conditionalHeader condition) = .conditional handed ∧
        handed ≠ condition ∧ evaluateCondition .empty condition = .ok true ∧
          evaluateCondition .empty handed =
            .error (.lexical (.unexpectedCharacter "\x7b")) := by
  intro condition handed
  have hcondition : Text.Trimmed condition ∧ condition.count '"' % 2 = 0 ∧ '#' ∉ condition ∧
      ¬inputMarker <:+: condition ∧ '{' ∉ Text.outside condition ∧
        '}' ∉ Text.outside condition := by decide
  have hholds : evaluateCondition .empty condition = .ok true := by decide +kernel
  have hfails : evaluateCondition .empty handed =
      .error (.lexical (.unexpectedCharacter "\x7b")) := by decide +kernel
  exact ⟨hcondition, by decide, by decide, hholds, hfails⟩

end Header

/-! ## Lines of the form of assignments -/

/-- The word of the marker of inputs. -/
def inputWord : List Char := ['입', '력']

/-- The line that gives a name the value of an expression. -/
def assignmentLine (name expression : List Char) : List Char :=
  name ++ ([' ', '=', ' '] ++ expression)

theorem assignmentLine_eq (name expression : List Char) :
    assignmentLine name expression = name ++ [' '] ++ '=' :: ' ' :: expression := by
  rw [assignmentLine, List.append_assoc]
  rfl

namespace IsName

variable {name : List Char} (h : IsName name)
include h

theorem continues : ∀ c ∈ name, continuesName c = true := by
  obtain ⟨first, run, rfl, hfirst, hrun⟩ := h
  exact List.forall_mem_cons.mpr ⟨continuesName_of_startsName hfirst, hrun⟩

theorem not_mem {c : Char} (hc : continuesName c = false) : c ∉ name := by
  intro hmem
  rw [h.continues c hmem] at hc
  cases hc

theorem trimmed : Text.Trimmed name where
  ne_nil := by
    obtain ⟨first, run, rfl, -⟩ := h
    exact List.cons_ne_nil first run
  head := by
    rw [Option.any_eq_false]
    intro c hc
    exact h.isSpace c (List.mem_of_head? hc)
  last := by
    rw [Option.any_eq_false]
    intro c hc
    exact h.isSpace c (List.mem_of_getLast? hc)

/-- A keyword that starts a line with a name in front of a blank is the name and the blank. -/
theorem eq_of_isPrefix {word rest : List Char} {separator : Char}
    (hword : ∀ c ∈ word, continuesName c = true) (hseparator : continuesName separator = false)
    (hstarts : word ++ [separator] <+: name ++ ' ' :: rest) : name = word ∧ separator = ' ' := by
  obtain ⟨tail, htail⟩ := hstarts
  rw [List.append_assoc, List.singleton_append] at htail
  have hblank : ∀ c ∈ (' ' :: rest).head?, continuesName c = false := by
    rintro c ⟨⟩
    decide
  have htailHead : ∀ c ∈ (separator :: tail).head?, continuesName c = false := by
    rintro c ⟨⟩
    exact hseparator
  have hsame : word = name := by
    calc word
      _ = (word ++ separator :: tail).takeWhile continuesName :=
        (takeWhile_append_of_head hword htailHead).symm
      _ = (name ++ ' ' :: rest).takeWhile continuesName := by rw [htail]
      _ = name := takeWhile_append_of_head h.continues hblank
  rw [hsame] at htail
  exact ⟨hsame.symm, (List.cons.inj (List.append_cancel_left htail)).1⟩

/-- Behind another word a name is no keyword. -/
theorem afterKeyword?_eq_none {word : List Char} (hword : ∀ c ∈ word, continuesName c = true)
    (hne : name ≠ word) (rest : List Char) :
    afterKeyword? (word ++ [' ']) (name ++ ' ' :: rest) = none := by
  rw [afterKeyword?, if_neg]
  rw [List.isPrefixOf_iff_prefix]
  intro hstart
  exact hne (h.eq_of_isPrefix hword (by decide) hstart).1

/-- A name is the target that is read of it with a blank behind. -/
theorem targetName?_eq : targetName? (name ++ [' ']) = some (String.ofList name) := by
  have hblank : ∀ c ∈ [' '], Text.isSpace c = true := List.forall_mem_singleton.mpr rfl
  have htrim : Text.trim (name ++ [' ']) = name := by
    have hsurrounded := Text.trim_surrounded (List.forall_mem_nil _) name hblank
    rwa [List.nil_append, Text.trim_of_solid h.isSpace] at hsurrounded
  have hidentifier : isIdentifier name = true := by
    rw [isIdentifier, tokenize, h.lexemes_eq]
    rfl
  rw [targetName?, htrim, if_pos hidentifier]

end IsName

section Assignment

variable {name expression : List Char} (hname : IsName name)
include hname

/-- The first equals sign of the line is the one behind the name. -/
theorem splitAtEquals?_assignmentLine :
    splitAtEquals? (assignmentLine name expression) = some (name ++ [' '], ' ' :: expression) := by
  have htarget : ∀ c ∈ name ++ [' '], (c != '=') = true := by
    refine List.forall_mem_append.mpr ⟨?_, List.forall_mem_singleton.mpr rfl⟩
    intro c hc
    exact bne_iff_ne.mpr (ne_of_mem_of_not_mem hc (hname.not_mem (by decide)))
  have hequals : ∀ c ∈ ('=' :: ' ' :: expression).head?, (c != '=') = false := by
    rintro c ⟨⟩
    rfl
  rw [assignmentLine_eq, splitAtEquals?, dropWhile_append_of_head htarget hequals,
    takeWhile_append_of_head htarget hequals]

/-- The marker of inputs stands in the line just if the expression begins with its word or
has the whole marker. -/
theorem inputMarker_infix_assignmentLine_iff :
    inputMarker <:+: assignmentLine name expression ↔
      inputWord <+: expression ∨ inputMarker <:+: expression := by
  have hfront : '=' ∉ name ++ [' '] := by
    simpa using hname.not_mem (by decide)
  have hhere : inputMarker <+: '=' :: ' ' :: expression ↔ inputWord <+: expression := by
    rw [inputMarker, List.cons_prefix_cons, List.cons_prefix_cons, inputWord]
    simp
  have hlater : inputMarker <:+: ' ' :: expression ↔ inputMarker <:+: expression :=
    @infix_append_iff_of_not_mem expression [' '] _ '=' (by decide)
  rw [assignmentLine_eq, ← hlater, ← hhere, ← List.infix_cons_iff]
  exact infix_append_iff_of_not_mem hfront

/-- No statement but an input or an assignment starts with a name and a blank. -/
theorem ofCode_assignmentLine (hif : name ≠ ['만', '약']) (hrepeat : name ≠ ['반', '복']) :
    Statement.ofCode (assignmentLine name expression) =
      if inputWord <+: expression ∨ inputMarker <:+: expression then
        .ofInputCode (assignmentLine name expression)
      else .ofOtherCode (assignmentLine name expression) := by
  have hempty : ¬(assignmentLine name expression).isEmpty = true := by
    rw [List.isEmpty_iff]
    intro hnil
    exact hname.trimmed.ne_nil (List.append_eq_nil_iff.mp hnil).1
  have hprint : ¬(printKeyword.isPrefixOf (assignmentLine name expression) &&
      (assignmentLine name expression).getLast? == some ')') = true := by
    rw [Bool.and_eq_true, List.isPrefixOf_iff_prefix]
    rintro ⟨hstart, -⟩
    have hword : ∀ c ∈ ['출', '력'], continuesName c = true := List.all_eq_true.mp (by decide)
    have hblank := (hname.eq_of_isPrefix hword (by decide) hstart).2
    cases hblank
  have hconditional : afterKeyword? ifKeyword (assignmentLine name expression) = none :=
    hname.afterKeyword?_eq_none (List.all_eq_true.mp (by decide)) hif _
  have hloop : afterKeyword? repeatKeyword (assignmentLine name expression) = none :=
    hname.afterKeyword?_eq_none (List.all_eq_true.mp (by decide)) hrepeat _
  rw [Statement.ofCode, if_neg hempty, if_neg hprint, hconditional, hloop]
  simp only [occursIn_iff, inputMarker_infix_assignmentLine_iff hname]

/-- **What a line of the form of assignments is told for.**  It is an input just if the marker
of inputs stands in it, and the assignment otherwise. -/
theorem ofLine_assignmentLine (hif : name ≠ ['만', '약']) (hrepeat : name ≠ ['반', '복'])
    (h : Text.Trimmed expression) (hsign : '#' ∉ expression) :
    Statement.ofLine (assignmentLine name expression) =
      if inputWord <+: expression ∨ inputMarker <:+: expression then
        .input (String.ofList name)
          (String.ofList ((betweenParens (' ' :: expression)).filter (· != '"')))
      else .assignment (String.ofList name) expression := by
  have hcode : Text.stripComment (assignmentLine name expression) =
      assignmentLine name expression := by
    refine (hname.trimmed.append h [' ', '=', ' ']).stripComment_eq ?_
    simpa [assignmentLine, hsign] using hname.not_mem (by decide)
  have hvalue : Text.trim (' ' :: expression) = expression := by
    have hblank : ∀ c ∈ [' '], Text.isSpace c = true := List.forall_mem_singleton.mpr rfl
    have hsurrounded := Text.trim_surrounded hblank expression (List.forall_mem_nil _)
    rwa [List.append_nil, h.trim_eq] at hsurrounded
  rw [Statement.ofLine, hcode, ofCode_assignmentLine hname hif hrepeat, Statement.ofInputCode,
    Statement.ofOtherCode, splitAtEquals?_assignmentLine hname]
  simp only [hname.targetName?_eq, hvalue]

end Assignment
end KoreanScript
