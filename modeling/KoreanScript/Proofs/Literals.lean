import KoreanScript.Proofs.Anchoring
import KoreanScript.Proofs.Composition
import KoreanScript.Proofs.Spacing
import KoreanScript.Proofs.Structured

/-!
# Literals that are printed

A line that prints a single text literal is read four times before its text arrives at
the host.  Its comment is cut off and the rest trimmed, the keyword and the last closing
parenthesis are taken away, and what is left is the literal, which the lexer reads up to
the second quote.  All but the first reading respect the quotes, or look at places where
the content cannot interfere, so braces, parentheses, keywords, operators and comparators
in the content arrive as they are.

The first reading knows no quotes.  A comment sign in the content is the start of a
comment, and what stands in front of it is a line with a quote that is never closed.
Such a line always fails, and it depends on its last character how.
-/

set_option autoImplicit false

namespace KoreanScript

/-! ## The code of a line -/

namespace Text

/-- The code of a line that starts with characters that are neither white space nor a
comment sign. -/
theorem stripComment_of_solid {solid : List Char} (hne : solid ≠ [])
    (hsolid : ∀ c ∈ solid, isSpace c = false) (hsign : '#' ∉ solid) (rest : List Char) :
    stripComment (solid ++ rest) = solid ++ trimEnd (rest.takeWhile (· != '#')) := by
  have hcode : (solid ++ rest).takeWhile (· != '#') = solid ++ rest.takeWhile (· != '#') :=
    List.takeWhile_append_of_pos fun c hc => bne_iff_ne.mpr (ne_of_mem_of_not_mem hc hsign)
  have hhead : (solid ++ rest.takeWhile (· != '#')).head?.any isSpace = false := by
    obtain ⟨c, others, rfl⟩ := List.exists_cons_of_ne_nil hne
    exact hsolid c List.mem_cons_self
  rw [stripComment, hcode, trim, trimStart, dropWhile_isSpace hhead, trimEnd_append_of_solid hsolid]

end Text

/-! ## Printing lines -/

/-- How a line starts that prints a literal. -/
def literalOpening : List Char :=
  printKeyword ++ ['"']

/-- The line that prints a literal with some content. -/
def printingLine (content : List Char) : List Char :=
  literalOpening ++ (content ++ ['"', ')'])

/-- What a comment sign in the content leaves of it. -/
def beforeSign (content : List Char) : List Char :=
  Text.trimEnd (content.takeWhile (· != '#'))

/-- Why a line fails that ends inside of the literal it was to print. -/
def unclosedCause (rest : List Char) : Cause :=
  if rest.getLast? = some ')' then .lexical .unterminatedText
  else .unrecognizedStatement (String.ofList (literalOpening ++ rest))

section Code

variable {content rest : List Char}

theorem isSpace_literalOpening : ∀ c ∈ literalOpening, Text.isSpace c = false := by
  simp only [literalOpening, printKeyword, List.cons_append, List.nil_append, List.forall_mem_cons]
  exact ⟨rfl, rfl, rfl, rfl, List.forall_mem_nil _⟩

theorem stripComment_literalOpening (rest : List Char) :
    Text.stripComment (literalOpening ++ rest) = literalOpening ++ beforeSign rest :=
  Text.stripComment_of_solid (by decide) isSpace_literalOpening (by decide) rest

/-- Without a comment sign in the content, the whole line is code. -/
theorem stripComment_printingLine (h : '#' ∉ content) :
    Text.stripComment (printingLine content) = printingLine content := by
  have hcode : (content ++ ['"', ')']).takeWhile (· != '#') = content ++ ['"', ')'] := by
    rw [List.takeWhile_eq_self_iff]
    intro c hc
    refine bne_iff_ne.mpr (ne_of_mem_of_not_mem hc ?_)
    simpa using h
  have hend : Text.trimEnd (content ++ ['"', ')']) = content ++ ['"', ')'] := by
    have hparen : Text.isSpace ')' = false := rfl
    simp [Text.trimEnd, List.dropWhile_cons_of_neg, hparen]
  rw [printingLine, stripComment_literalOpening, beforeSign, hcode, hend]

/-- With one, the code ends inside of the literal. -/
theorem stripComment_of_sign (h : '#' ∈ content) :
    Text.stripComment (printingLine content) = literalOpening ++ beforeSign content := by
  obtain ⟨front, after, rfl, hfront⟩ := List.eq_append_cons_of_mem h
  have hcode (more : List Char) : (front ++ '#' :: more).takeWhile (· != '#') = front :=
    takeWhile_append_of_head
      (fun c hc => bne_iff_ne.mpr (ne_of_mem_of_not_mem hc hfront)) (by simp)
  rw [printingLine, stripComment_literalOpening, beforeSign, beforeSign, List.append_assoc,
    List.cons_append, hcode, hcode]

/-- A line that prints a literal is a printing statement. -/
theorem ofLine_printingLine (h : '#' ∉ content) :
    Statement.ofLine (printingLine content) = .print ('"' :: content ++ ['"']) := by
  have hlast : (printingLine content).getLast? = some ')' := by
    simp [printingLine]
  have hopens : printKeyword.isPrefixOf (printingLine content) = true :=
    List.isPrefixOf_iff_prefix.mpr ⟨'"' :: (content ++ ['"', ')']), rfl⟩
  have hexpression : ((printingLine content).drop printKeyword.length).dropLast =
      '"' :: content ++ ['"'] := by
    change ('"' :: (content ++ ['"', ')'])).dropLast = _
    rw [List.append_cons content '"' [')'], ← List.cons_append, List.dropLast_concat,
      List.cons_append]
  have hprints : (printKeyword.isPrefixOf (printingLine content) &&
      (printingLine content).getLast? == some ')') = true := by
    rw [hopens, hlast]
    rfl
  have hempty : (printingLine content).isEmpty = false := rfl
  rw [Statement.ofLine, stripComment_printingLine h, Statement.ofCode, hempty,
    if_neg Bool.false_ne_true, if_pos hprints, hexpression]

end Code

/-! ## Lines that end inside of a literal -/

section Unclosed

variable {rest : List Char} (h : '"' ∉ rest)
include h

/-- What begins like the printing of a literal and has no second quote is no text of tokens. -/
theorem tokenize_literalOpening : tokenize (literalOpening ++ rest) = .error .unterminatedText := by
  have hkeyword : Token.WrittenAs (.name "출력") ['출', '력'] :=
    .name (by decide) (List.all_eq_true.mp (by decide))
  have hname (c : Char) (hc : c ∈ ('(' :: '"' :: rest).head?) :
      Token.goesOnWith (.name "출력") c = false := by
    obtain rfl := Option.some.inj hc
    rfl
  have hparen (c : Char) (_ : c ∈ ('"' :: rest).head?) : Token.goesOnWith .leftParen c = false :=
    rfl
  calc tokenize (literalOpening ++ rest)
    _ = (Token.name "출력" :: ·) <$> tokenize ('(' :: '"' :: rest) := tokenize_word hkeyword hname
    _ = (Token.name "출력" :: ·) <$> (Token.leftParen :: ·) <$> tokenize ('"' :: rest) := by
      rw [← tokenize_word .leftParen hparen, List.singleton_append]
    _ = .error .unterminatedText := by rw [tokenize_unclosed h]; rfl

/-- It is no name either. -/
theorem targetName?_literalOpening : targetName? (literalOpening ++ rest) = none := by
  have htrim : Text.trim (literalOpening ++ rest) = literalOpening ++ Text.trimEnd rest :=
    Text.trimEnd_append_of_solid isSpace_literalOpening rest
  rw [targetName?, htrim]
  simp only [isIdentifier, tokenize_literalOpening (mt (Text.trimEnd_subset rest ·) h)]
  rfl

/-- What stands before the first equals sign of such a line is no name. -/
theorem splitAtEquals?_literalOpening {target request : List Char}
    (hsplit : splitAtEquals? (literalOpening ++ rest) = some (target, request)) :
    targetName? target = none := by
  have htarget : targetName? ((literalOpening ++ rest).takeWhile (· != '=')) = none := by
    rw [List.takeWhile_append_of_pos (List.all_eq_true.mp rfl)]
    exact targetName?_literalOpening (mt ((List.takeWhile_sublist _).mem ·) h)
  unfold splitAtEquals? at hsplit
  split at hsplit
  · cases hsplit
  · cases hsplit
    exact htarget

theorem ofInputCode_literalOpening :
    Statement.ofInputCode (literalOpening ++ rest) = .unrecognized (literalOpening ++ rest) := by
  unfold Statement.ofInputCode
  split
  · rfl
  · next hsplit => rw [splitAtEquals?_literalOpening h hsplit]

theorem ofOtherCode_literalOpening :
    Statement.ofOtherCode (literalOpening ++ rest) = .unrecognized (literalOpening ++ rest) := by
  unfold Statement.ofOtherCode
  split
  · rfl
  · next hsplit => rw [splitAtEquals?_literalOpening h hsplit]

/-- **A line whose literal has no end asks to print the literal or for nothing known.** -/
theorem ofCode_literalOpening :
    Statement.ofCode (literalOpening ++ rest) =
      if rest.getLast? = some ')' then .print ('"' :: rest.dropLast)
      else .unrecognized (literalOpening ++ rest) := by
  have hkeyword : printKeyword.isPrefixOf (literalOpening ++ rest) = true :=
    List.isPrefixOf_iff_prefix.mpr ⟨'"' :: rest, rfl⟩
  have hif : afterKeyword? ifKeyword (literalOpening ++ rest) = none := rfl
  have hrepeat : afterKeyword? repeatKeyword (literalOpening ++ rest) = none := rfl
  have hempty : (literalOpening ++ rest).isEmpty = false := rfl
  rw [Statement.ofCode, hempty, hkeyword, hif, hrepeat, ofInputCode_literalOpening h,
    ofOtherCode_literalOpening h, ite_self, Bool.true_and, if_neg Bool.false_ne_true]
  cases rest using List.reverseRecOn with
  | nil => rfl
  | append_singleton front last =>
    have hexpression : ((literalOpening ++ (front ++ [last])).drop printKeyword.length).dropLast =
        '"' :: front := by
      change ('"' :: (front ++ [last])).dropLast = _
      rw [← List.cons_append, List.dropLast_concat]
    have hlast : (literalOpening ++ (front ++ [last])).getLast? = some last := by simp
    rw [hexpression, hlast, List.getLast?_concat, List.dropLast_concat]
    by_cases hparen : last = ')' <;> simp [hparen]

end Unclosed

/-! ## What the line does -/

theorem reduce_value (value : Value) : reduce [.value value] = .ok value := by
  rw [reduce]
  rfl

/-- **The value of a literal is its content.** -/
theorem evaluate_literal {content : List Char} (h : '"' ∉ content) (store : Store) :
    evaluate store ('"' :: content ++ ['"']) = .ok (.text (String.ofList content)) := by
  rw [evaluate, (Token.WrittenAs.text h).tokenize_eq]
  exact reduce_value _

theorem evaluate_unclosed {rest : List Char} (h : '"' ∉ rest) (store : Store) :
    evaluate store ('"' :: rest) = .error (.lexical .unterminatedText) := by
  rw [evaluate, tokenize_unclosed h]
  rfl

section Line

variable {content : List Char} (hquote : '"' ∉ content) (program : Program) (store : Store)
  (limit line : Nat)
include hquote

theorem actionOf_printingLine (h : '#' ∉ content) :
    program.actionOf store limit line (.ofLine (printingLine content)) =
      .ok (.print (String.ofList content ++ "\n") (line + 1)) := by
  rw [ofLine_printingLine h, Program.actionOf, evaluate_literal hquote]
  rfl

theorem actionOf_of_sign (h : '#' ∈ content) :
    program.actionOf store limit line (.ofLine (printingLine content)) =
      .error (unclosedCause (beforeSign content)) := by
  have hbefore : '"' ∉ beforeSign content := fun hmem =>
    hquote ((List.takeWhile_sublist _).mem (Text.trimEnd_subset _ hmem))
  rw [Statement.ofLine, stripComment_of_sign h, ofCode_literalOpening hbefore, unclosedCause]
  split
  · rw [Program.actionOf, evaluate_unclosed (mt List.mem_of_mem_dropLast hbefore)]
    rfl
  · rfl

end Line

/-! ## Sources of one line -/

namespace Machine

variable {m : Type → Type} [Monad m] [Host m]

/-- The machine that starts with a source of one line is on that line. -/
theorem start_of_singleton {source : String} {line : List Char}
    (h : Text.lines source.toList = [line]) :
    start source = onLine [.ofText line] ⟨0, 1⟩ [] 0 .empty := by
  rw [start, Program.ofSource, h, onLine, ← Frame.ofBlock_eq_onLine]
  rfl

/-- A source of one line that prints a text makes one call. -/
theorem run_start_of_print {source text : String} {line : List Char}
    (hsource : Text.lines source.toList = [line])
    (haction : Program.actionOf [.ofText line] .empty 1 0 (.ofLine line) = .ok (.print text 1)) :
    ((start source).run : m Outcome) = (do
      Host.append text
      pure (⟨[.ofText line], .empty, []⟩, .ok ())) := by
  have hstep : (onLine [.ofText line] ⟨0, 1⟩ [] 0 .empty).step = _ :=
    step_onLine_of_ok [] .empty (Nat.le_refl 0) Nat.one_pos rfl haction
  have hover : (onLine [.ofText line] ⟨0, 1⟩ [] 1 .empty).step = .silent _ :=
    step_onLine_stop [] .empty
  rw [start_of_singleton hsource, run_of_append hstep]
  refine congrArg (Host.append text >>= ·) (funext fun _ => ?_)
  exact (run_of_silent hover).trans (run_of_finished (step_of_stack_nil rfl))

end Machine

namespace Interpreter

variable {σ : Type} [Host (StateM σ)] {source : String} {line : List Char}

theorem observe_of_print {text : String} (hsource : Text.lines source.toList = [line])
    (haction : Program.actionOf [.ofText line] .empty 1 0 (.ofLine line) = .ok (.print text 1))
    (previous : Machine) (host : σ) :
    (observe source previous host).result = .ok () ∧
      (observe source previous host).calls = [.append text] := by
  have hrun : ((Machine.start source).run : StateT Transcript (StateM σ) Outcome) #[] host =
      (((⟨[.ofText line], .empty, []⟩, .ok ()), [HostCall.append text].toArray),
        ((Host.append text : StateM σ Unit) host).2) := by
    rw [Machine.run_start_of_print hsource haction]
    rfl
  rw [observe_of_ok previous hrun]
  exact ⟨rfl, rfl⟩

theorem observe_of_cause {cause : Cause} (hsource : Text.lines source.toList = [line])
    (hcause : Program.actionOf [.ofText line] .empty 1 0 (.ofLine line) = .error cause)
    (previous : Machine) (host : σ) :
    (observe source previous host).result = .error ⟨1, cause⟩ ∧
      (observe source previous host).calls = reportCalls ⟨1, cause⟩ := by
  have hrun : ((Machine.start source).run : StateT Transcript (StateM σ) Outcome) #[] host =
      (((⟨[.ofText line], .empty, []⟩, .error ⟨1, cause⟩), [].toArray), host) := by
    rw [Machine.start_of_singleton hsource, Machine.run_onLine_of_error [] .empty (Nat.le_refl 0)
      Nat.one_pos rfl hcause]
    rfl
  obtain ⟨host', hobserve⟩ := observe_of_error previous hrun
  rw [hobserve]
  exact ⟨rfl, rfl⟩

/-! ## Programs that print a literal -/

/-- The program whose only line prints a literal with some content. -/
def printing (content : String) : String :=
  "출력(\"" ++ content ++ "\")"

theorem lines_printing {content : String} (h : '\n' ∉ content.toList) :
    Text.lines (printing content).toList = [printingLine content.toList] := by
  have hlist : (printing content).toList = printingLine content.toList := by
    rw [printing, String.toList_append, String.toList_append, List.append_assoc]
    rfl
  have hfeed : '\n' ∉ printingLine content.toList := by
    simpa [printingLine, literalOpening, printKeyword] using h
  rw [hlist, Text.lines_eq_singleton (by simp [printingLine, literalOpening]) hfeed]

section Printing

variable {content : String} (hquote : '"' ∉ content.toList) (hfeed : '\n' ∉ content.toList)
  (previous : Machine) (host : σ)
include hquote hfeed

theorem observe_of_no_sign (h : '#' ∉ content.toList) :
    (observe (printing content) previous host).result = .ok () ∧
      (observe (printing content) previous host).calls = [.append (content ++ "\n")] := by
  have haction := actionOf_printingLine hquote [.ofText (printingLine content.toList)] .empty 1 0 h
  rw [String.ofList_toList] at haction
  exact observe_of_print (lines_printing hfeed) haction previous host

theorem observe_of_sign (h : '#' ∈ content.toList) :
    let fault : Fault := ⟨1, unclosedCause (beforeSign content.toList)⟩
    (observe (printing content) previous host).result = .error fault ∧
      (observe (printing content) previous host).calls = reportCalls fault :=
  observe_of_cause (lines_printing hfeed) (actionOf_of_sign hquote _ .empty 1 0 h) previous host

/-- **Literals without a comment sign are printed verbatim, and no others.**  Whatever else
stands in the content of a literal, quotes and line feeds aside, the program that prints
it succeeds and appends the content and a line feed, just if no comment sign is in it.
Otherwise the program fails on its line and appends nothing but the report: the literal
has no end if what is left of the line ends with a parenthesis, and the line is no
statement if not. -/
theorem observe_printing :
    let run := observe (printing content) previous host
    (run.result = .ok () ∧ run.calls = [.append (content ++ "\n")] ↔ '#' ∉ content.toList) ∧
      ('#' ∈ content.toList →
        let fault : Fault := ⟨1, unclosedCause (beforeSign content.toList)⟩
        run.result = .error fault ∧ run.calls = reportCalls fault) := by
  refine ⟨⟨?_, fun h => observe_of_no_sign hquote hfeed previous host h⟩,
    fun h => observe_of_sign hquote hfeed previous host h⟩
  rintro ⟨hok, -⟩ h
  cases hok.symm.trans (observe_of_sign hquote hfeed previous host h).1

end Printing

/-- Braces, keywords and operators are printed; a comment sign ends the line. -/
theorem observe_printing_signs :
    let structural := "\x7d 만약 (1 >= 2) \x7b 가 = 입력)"
    let commented := "(a) # b"
    let fault : Fault := ⟨1, .lexical .unterminatedText⟩
    (('"' ∉ structural.toList ∧ '\n' ∉ structural.toList) ∧
        (observe (printing structural) .idle (Buffer.ofInputs [])).result = .ok () ∧
          (observe (printing structural) .idle (Buffer.ofInputs [])).calls =
            [.append "\x7d 만약 (1 >= 2) \x7b 가 = 입력)\n"]) ∧
      ('"' ∉ commented.toList ∧ '\n' ∉ commented.toList) ∧
        (observe (printing commented) .idle (Buffer.ofInputs [])).result = .error fault := by
  intro structural commented fault
  have hstructural : '"' ∉ structural.toList ∧ '\n' ∉ structural.toList := by decide
  have hcommented : '"' ∉ commented.toList ∧ '\n' ∉ commented.toList := by decide
  have hprinted := (observe_printing hstructural.1 hstructural.2 .idle (Buffer.ofInputs [])).1
  have hfails := (observe_printing hcommented.1 hcommented.2 .idle (Buffer.ofInputs [])).2
  have hcause : unclosedCause (beforeSign commented.toList) = .lexical .unterminatedText := by
    decide
  have hresult := (hfails (by decide)).1
  rw [hcause] at hresult
  exact ⟨⟨hstructural, hprinted.mpr (by decide)⟩, hcommented, hresult⟩

/-- Not every literal is printed verbatim. -/
theorem exists_literal_not_printed :
    ¬∀ content : String, '"' ∉ content.toList → '\n' ∉ content.toList →
      (observe (printing content) .idle (Buffer.ofInputs [])).result = .ok () ∧
        (observe (printing content) .idle (Buffer.ofInputs [])).calls =
          [.append (content ++ "\n")] := by
  intro hall
  have hquote : '"' ∉ "a#b".toList := by decide
  have hfeed : '\n' ∉ "a#b".toList := by decide
  have hfails := observe_of_sign hquote hfeed .idle (Buffer.ofInputs []) (by decide)
  cases (hall "a#b" hquote hfeed).1.symm.trans hfails.1

end Interpreter

end KoreanScript
