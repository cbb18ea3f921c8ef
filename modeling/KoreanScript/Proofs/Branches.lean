import KoreanScript.Proofs.Formatting
import KoreanScript.Proofs.Forms
import KoreanScript.Proofs.Loops

/-!
# What conditionals do

A header whose condition has a truth value acts as one of its blocks, executed on its own,
or as nothing, and then goes on.  Where it goes on depends on the line that follows the
first block: if that line starts with the keyword of second blocks, the block that it
heads is passed over as well, whichever of the two was executed.

No separator has to follow the keyword, so the test takes for it the beginning of every name
that starts with it.  A line that has a statement is thus taken for a second block just if the
statement sets a variable with such a name (`startsElse_iff_isTakenForElse`).  In all other
cases the line is the next one that is executed.
-/

set_option autoImplicit false

namespace KoreanScript

/-! ## Lines that are taken for second blocks -/

/-- A line starts a second block just if its code begins with the keyword. -/
theorem startsElse_iff_isPrefix_stripComment {line : List Char} :
    startsElse line = true ↔ elseKeyword <+: Text.stripComment line := by
  constructor
  · intro h
    obtain ⟨front, rest, hfront, rfl⟩ := startsElse_iff.mp h
    rw [stripComment_elseKeyword hfront]
    exact List.prefix_append elseKeyword _
  · rintro ⟨rest, hrest⟩
    rw [← startsElse_stripComment]
    exact startsElse_iff.mpr ⟨[], rest, List.forall_mem_nil _, hrest.symm⟩

/-- What a text begins with, if it begins with a name and the name ends there. -/
theorem IsName.isPrefix_append_iff {name : List Char} (h : IsName name) {word rest : List Char}
    (hword : ∀ c ∈ word, continuesName c = true)
    (hrest : ∀ c ∈ rest.head?, continuesName c = false) :
    word <+: name ++ rest ↔ word <+: name := by
  constructor
  · rintro ⟨tail, htail⟩
    refine ⟨tail.takeWhile continuesName, ?_⟩
    rw [← List.takeWhile_append_of_pos hword, htail, takeWhile_append_of_head h.continues hrest]
  · intro hstarts
    exact hstarts.trans (List.prefix_append name rest)

/-- No white space continues a name. -/
theorem continuesName_of_isSpace {c : Char} (h : Text.isSpace c = true) :
    continuesName c = false := by
  by_contra hcontinues
  rw [Bool.not_eq_false] at hcontinues
  rw [isSpace_of_continuesName hcontinues] at h
  cases h

/-- A text that has an equals sign is what stands in front of it, the sign, and the rest. -/
theorem append_of_splitAtEquals? {code target request : List Char}
    (h : splitAtEquals? code = some (target, request)) : code = target ++ '=' :: request := by
  unfold splitAtEquals? at h
  split at h
  · cases h
  · next equals after heq =>
    obtain ⟨rfl, rfl⟩ := Prod.mk.inj (Option.some.inj h)
    have hequals : equals = '=' := by
      have hhead : (equals != '=') = false := head?_dropWhile equals (by rw [heq]; rfl)
      exact bne_eq_false_iff_eq.mp hhead
    rw [← hequals, ← heq, hequals, List.takeWhile_append_dropWhile]

/-- The line of a target begins with its name, which ends there. -/
theorem exists_append_of_targetName? {code target request : List Char} {name : String}
    (htrim : Text.trim code = code) (hsplit : splitAtEquals? code = some (target, request))
    (htarget : targetName? target = some name) :
    ∃ rest, code = name.toList ++ rest ∧ ∀ c ∈ rest.head?, continuesName c = false := by
  have hname : Text.trim target = name.toList := by
    simp only [targetName?, Option.ite_none_right_eq_some, Option.some.injEq] at htarget
    rw [← htarget.2, String.toList_ofList]
  obtain ⟨front, back, hfront, hback, hsurrounded⟩ := Text.exists_surrounded target
  have hcode : code = front ++ (name.toList ++ (back ++ '=' :: request)) := by
    rw [append_of_splitAtEquals? hsplit, hsurrounded, hname]
    simp only [List.append_assoc]
  -- The code is trimmed, so no blank stands in front of the name.
  have hnil : front = [] := by
    have hhead := (Text.Trimmed.of_trim_eq htrim (by simp [hcode])).head
    cases front with
    | nil => rfl
    | cons blank others =>
      rw [hcode, List.cons_append, List.head?_cons, Option.any_some,
        hfront blank List.mem_cons_self] at hhead
      cases hhead
  refine ⟨back ++ '=' :: request, by rw [hcode, hnil, List.nil_append], ?_⟩
  cases back with
  | nil =>
    rintro c ⟨⟩
    decide
  | cons blank others =>
    rintro c ⟨⟩
    exact continuesName_of_isSpace (hback blank List.mem_cons_self)

theorem continuesName_elseKeyword : ∀ c ∈ elseKeyword, continuesName c = true :=
  List.all_eq_true.mp (by decide)

/-- A statement that is taken for the start of a second block: the name of the variable that it
sets begins with the keyword. -/
def Statement.IsTakenForElse (statement : Statement) : Prop :=
  ∃ name ∈ statement.target?, elseKeyword <+: name.toList

instance (statement : Statement) : Decidable statement.IsTakenForElse :=
  inferInstanceAs (Decidable (∃ name ∈ statement.target?, elseKeyword <+: name.toList))

namespace Statement

variable {code : List Char}

theorem not_isTakenForElse {statement : Statement} (h : statement.target? = none) :
    ¬statement.IsTakenForElse := by
  rintro ⟨name, hname, -⟩
  rw [h] at hname
  cases hname

/-- A line that begins with another keyword has no target, and does not begin with this one. -/
theorem isTakenForElse_iff_of_keyword {statement : Statement} (h : statement.target? = none)
    {c : Char} {word : List Char} (hne : c ≠ '아') (hstarts : c :: word <+: code) :
    statement.IsTakenForElse ↔ elseKeyword <+: code := by
  obtain ⟨rest, rfl⟩ := hstarts
  refine iff_of_false (not_isTakenForElse h) ?_
  intro helse
  exact hne (List.cons_prefix_cons.mp helse).1.symm

/-- A line of the form of inputs or assignments has a target, if it is not unrecognized. -/
theorem exists_target_of_form {statement : Statement}
    (hform : ofInputCode code = statement ∨ ofOtherCode code = statement)
    (h : ∀ other, statement ≠ .unrecognized other) :
    ∃ target request name, splitAtEquals? code = some (target, request) ∧
      targetName? target = some name ∧ statement.target? = some name := by
  cases hsplit : splitAtEquals? code with
  | none =>
    have hnone : statement = .unrecognized code := by
      rcases hform with rfl | rfl <;> simp only [ofInputCode, ofOtherCode, hsplit]
    exact absurd hnone (h code)
  | some parts =>
    obtain ⟨target, request⟩ := parts
    cases htarget : targetName? target with
    | none =>
      have hnone : statement = .unrecognized code := by
        rcases hform with rfl | rfl <;> simp only [ofInputCode, ofOtherCode, hsplit, htarget]
      exact absurd hnone (h code)
    | some name =>
      refine ⟨target, request, name, rfl, htarget, ?_⟩
      rcases hform with rfl | rfl <;> simp only [ofInputCode, ofOtherCode, hsplit, htarget, target?]

/-- The target that a line begins with begins with the keyword just if the line does. -/
theorem isTakenForElse_iff_of_form (htrim : Text.trim code = code) {statement : Statement}
    (hform : ofInputCode code = statement ∨ ofOtherCode code = statement)
    (h : ∀ other, statement ≠ .unrecognized other) :
    statement.IsTakenForElse ↔ elseKeyword <+: code := by
  obtain ⟨target, request, name, hsplit, htarget, hname⟩ := exists_target_of_form hform h
  obtain ⟨rest, hcode, hrest⟩ := exists_append_of_targetName? htrim hsplit htarget
  have hstarts :=
    (isName_of_targetName? htarget).isPrefix_append_iff continuesName_elseKeyword hrest
  rw [hcode, hstarts]
  constructor
  · rintro ⟨other, hother, helse⟩
    obtain rfl : name = other := Option.some.inj (hname.symm.trans hother)
    exact helse
  · intro helse
    exact ⟨name, hname, helse⟩

/-- All other forms are empty or have another beginning. -/
theorem isTakenForElse_ofCode_iff (htrim : Text.trim code = code)
    (h : ∀ other, ofCode code ≠ .unrecognized other) :
    (ofCode code).IsTakenForElse ↔ elseKeyword <+: code := by
  have hkeyword {keyword rest : List Char} (hafter : afterKeyword? keyword code = some rest) :
      keyword <+: code := by
    obtain ⟨hstarts, -⟩ := Option.ite_none_right_eq_some.mp hafter
    exact List.isPrefixOf_iff_prefix.mp hstarts
  generalize hstatement : ofCode code = statement at h ⊢
  -- The forms in their order.  Only inputs and assignments begin with a target.
  unfold ofCode at hstatement
  split at hstatement
  · next hempty =>
    subst hstatement
    rw [List.isEmpty_iff.mp hempty]
    exact iff_of_false (not_isTakenForElse rfl) (by decide)
  split at hstatement
  · next hprint =>
    subst hstatement
    obtain ⟨hstarts, -⟩ := Bool.and_eq_true_iff.mp hprint
    exact isTakenForElse_iff_of_keyword rfl (by decide) (List.isPrefixOf_iff_prefix.mp hstarts)
  split at hstatement
  · exact isTakenForElse_iff_of_form htrim (.inl hstatement) h
  split at hstatement
  · next hif =>
    subst hstatement
    exact isTakenForElse_iff_of_keyword rfl (by decide) (hkeyword hif)
  split at hstatement
  · next hrepeat =>
    subst hstatement
    exact isTakenForElse_iff_of_keyword rfl (by decide) (hkeyword hrepeat)
  · exact isTakenForElse_iff_of_form htrim (.inr hstatement) h

end Statement

/-- **Which statements start a second block.**  A line that has a statement starts one just if
the statement sets a variable whose name begins with the keyword. -/
theorem startsElse_iff_isTakenForElse {line : List Char}
    (h : ∀ code, Statement.ofLine line ≠ .unrecognized code) :
    startsElse line = true ↔ (Statement.ofLine line).IsTakenForElse := by
  have htrim : Text.trim (Text.stripComment line) = Text.stripComment line := Text.trim_trim _
  rw [startsElse_iff_isPrefix_stripComment]
  exact (Statement.isTakenForElse_ofCode_iff htrim h).symm

/-! ## Where a conditional goes on -/

namespace Program

variable {program : Program} {limit header : Nat} {text : List Char}

/-- The line behind the first block is the header of a second one just if it starts one. -/
theorem elseHeader?_of_getElem? {stop : Nat} (hstop : stop + 1 < limit)
    (htext : program[stop + 1]? = some (.ofText text)) :
    program.elseHeader? stop limit = if startsElse text = true then some (stop + 1) else none := by
  have hline : program[stop + 1]?.any Line.startsElse = startsElse text := by
    rw [htext]
    rfl
  rw [elseHeader?, hline, decide_eq_true hstop, Bool.true_and]

section Following

variable (hlimit : program.blockEnd header limit + 1 < limit)
  (htext : program[program.blockEnd header limit + 1]? = some (.ofText text))
include hlimit htext

theorem branch_of_not_startsElse (h : ¬startsElse text = true) (holds : Bool) :
    program.branch limit header holds =
      .enter (program.body header limit) (if holds then 1 else 0)
        (program.blockEnd header limit + 1) := by
  simp only [branch, elseHeader?_of_getElem? hlimit htext, if_neg h]

theorem branch_of_startsElse (h : startsElse text = true) (holds : Bool) :
    program.branch limit header holds =
      .enter (program.body (if holds then header else program.blockEnd header limit + 1) limit) 1
        (program.blockEnd (program.blockEnd header limit + 1) limit + 1) := by
  simp only [branch, elseHeader?_of_getElem? hlimit htext, if_pos h]

end Following

end Program

namespace Machine

variable {m : Type → Type} [Monad m] [LawfulMonad m] [Host m] {machine : Machine} {frame : Frame}
  {below : List Frame} {line : Nat} {found : Line} {condition text : List Char} {holds : Bool}

/-- A header whose condition has a truth value branches. -/
theorem At.step_of_conditional (hat : machine.At frame below line)
    (hfound : machine.program[line]? = some found)
    (hconditional : found.statement = .conditional condition)
    (hholds : evaluateCondition machine.store condition = .ok holds) :
    machine.step = machine.perform frame below
      (machine.program.branch frame.context.block.stop line holds) := by
  refine hat.step_of_actionOf hfound ?_
  rw [hconditional]
  exact map_eq_ok_iff.mpr ⟨holds, hholds, rfl⟩

/-- **A conditional and the line that follows its block.**  If the line has a statement, the
conditional goes on with this line after the block, executed or not, just if the statement is
not taken for the start of a second block.  If it is, the line and whatever belongs to its
block are executed only as that block, and the conditional goes on further down. -/
theorem run_conditional_following (hat : machine.At frame below line)
    (hfound : machine.program[line]? = some found)
    (hconditional : found.statement = .conditional condition)
    (hholds : evaluateCondition machine.store condition = .ok holds)
    (hlimit : machine.program.blockEnd line frame.context.block.stop + 1 <
      frame.context.block.stop)
    (htext : machine.program[machine.program.blockEnd line frame.context.block.stop + 1]? =
      some (.ofText text))
    (hform : ∀ code, Statement.ofLine text ≠ .unrecognized code) :
    let program := machine.program
    let limit := frame.context.block.stop
    let following := program.blockEnd line limit + 1
    let later := program.blockEnd following limit + 1
    let first : Execution m Unit := (program.body line limit).execute program
    let second : Execution m Unit := (program.body following limit).execute program
    let goOn (next : Nat) (after : Store) : Machine :=
      ⟨program, after, frame.jumpTo next :: below⟩
    (¬(Statement.ofLine text).IsTakenForElse →
        (machine.run : m Outcome) = (if holds then first else pure ()).runThen program
          (fun _ after => (goOn following after).run) machine.store ∧
        ∀ after, (goOn following after).At (frame.jumpTo following) below following) ∧
      ((Statement.ofLine text).IsTakenForElse →
        (machine.run : m Outcome) = (if holds then first else second).runThen program
          (fun _ after => (goOn later after).run) machine.store ∧
        following < later) := by
  intro program limit following later first second goOn
  have hstep := hat.step_of_conditional hfound hconditional hholds
  have htaken := startsElse_iff_isTakenForElse hform
  refine ⟨?_, ?_⟩
  · intro hnot
    rw [Program.branch_of_not_startsElse hlimit htext (mt htaken.mp hnot)] at hstep
    refine ⟨?_, ?_⟩
    · rw [run_of_enter _ below hstep, Execution.runThen_times_ite]
    · intro after
      have hlater : line ≤ following :=
        (program.le_blockEnd line limit).trans (Nat.le_succ _)
      exact hat.jumpTo rfl hlater hlimit
  · intro hyes
    rw [Program.branch_of_startsElse hlimit htext (htaken.mpr hyes)] at hstep
    refine ⟨?_, Nat.lt_succ_of_le (program.le_blockEnd following limit)⟩
    rw [run_of_enter _ below hstep, Execution.runThen_times_one]
    cases holds <;> rfl

/-- A conditional in front of an assignment. -/
theorem run_conditional_following_assignment :
    let header := Line.ofText "만약 1 == 1 \x7b".toList
    let text := "x = \"가\"".toList
    let program : Program := [header, .ofText ['\x7d'], .ofText text]
    let frame : Frame := .ofBlock ⟨0, 3⟩
    let machine : Machine := ⟨program, .empty, [frame]⟩
    let body : Execution (StateM Buffer) Unit := (program.body 0 3).execute program
    (machine.At frame [] 0 ∧ header.statement = .conditional "1 == 1".toList ∧
        evaluateCondition .empty "1 == 1".toList = .ok true ∧ program.blockEnd 0 3 = 1 ∧
          Statement.ofLine text = .assignment "x" "\"가\"".toList) ∧
      (machine.run : StateM Buffer Outcome) = body.runThen program
        (fun _ after => (⟨program, after, [frame.jumpTo 2]⟩ : Machine).run) .empty := by
  intro header text program frame machine body
  have hat : machine.At frame [] 0 := ⟨rfl, rfl, rfl⟩
  have hconditional : header.statement = .conditional "1 == 1".toList := by decide +kernel
  have hholds : evaluateCondition .empty "1 == 1".toList = .ok true := by decide +kernel
  have hend : program.blockEnd 0 3 = 1 := by decide +kernel
  have hlimit : program.blockEnd 0 3 + 1 < 3 := by
    rw [hend]
    decide
  have htext : program[program.blockEnd 0 3 + 1]? = some (.ofText text) := by
    rw [hend]
    rfl
  have hstatement : Statement.ofLine text = .assignment "x" "\"가\"".toList := by decide +kernel
  have hform : ∀ code, Statement.ofLine text ≠ .unrecognized code := by
    intro code
    rw [hstatement]
    exact Statement.noConfusion
  obtain ⟨hnext, -⟩ := run_conditional_following (m := StateM Buffer) hat rfl hconditional hholds
    hlimit htext hform
  have hnot : ¬(Statement.ofLine text).IsTakenForElse := by
    rw [hstatement]
    decide
  obtain ⟨hrun, -⟩ := hnext hnot
  have hfollowing : machine.program.blockEnd 0 frame.context.block.stop = 1 := hend
  rw [hfollowing] at hrun
  exact ⟨⟨hat, hconditional, hholds, hend, hstatement⟩, hrun⟩

/-- An assignment behind the block of a conditional that is never made, because the name of
its variable begins with the keyword. -/
theorem exists_line_passed_over :
    let source := "만약 1 == 1 \x7b\n\x7d\n아니면값 = 5"
    ((start source).At (.ofBlock ⟨0, 3⟩) [] 0 ∧
        (Program.ofSource source).map Line.statement =
          [.conditional "1 == 1".toList, .unrecognized ['\x7d'], .assignment "아니면값" ['5']] ∧
        evaluateCondition .empty "1 == 1".toList = .ok true ∧
          (Program.ofSource source).blockEnd 0 3 = 1) ∧
      ((start source).run : StateM Buffer Outcome) =
        pure (⟨Program.ofSource source, .empty, []⟩, .ok ()) := by
  intro source
  let header := Line.ofText "만약 1 == 1 \x7b".toList
  let program : Program := [header, .ofText ['\x7d'], .ofText "아니면값 = 5".toList]
  let machine : Machine := ⟨program, .empty, [.ofBlock ⟨0, 3⟩]⟩
  have hprogram : Program.ofSource source = program := by decide +kernel
  have hstart : start source = machine := by
    rw [start, hprogram]
    rfl
  have hat : machine.At (.ofBlock ⟨0, 3⟩) [] 0 := ⟨rfl, rfl, rfl⟩
  have hstatements : program.map Line.statement =
      [.conditional "1 == 1".toList, .unrecognized ['\x7d'], .assignment "아니면값" ['5']] := by
    decide +kernel
  have hholds : evaluateCondition .empty "1 == 1".toList = .ok true := by decide +kernel
  have hend : program.blockEnd 0 3 = 1 := by decide +kernel
  have hstep : machine.step = machine.perform (.ofBlock ⟨0, 3⟩) [] (.enter ⟨1, 1⟩ 1 3) := by
    have hconditional : header.statement = .conditional "1 == 1".toList := by decide +kernel
    have hbranch : program.branch 3 0 true = .enter ⟨1, 1⟩ 1 3 := by rfl
    rw [← hbranch]
    exact hat.step_of_conditional rfl hconditional hholds
  rw [hstart, hprogram]
  refine ⟨⟨hat, hstatements, hholds, hend⟩, ?_⟩
  -- The empty body is entered and left once, and then the block of the program is over.
  rw [run_of_silent hstep, run_of_silent (step_of_repetition rfl rfl),
    run_of_silent (step_of_over rfl rfl rfl), run_of_silent (step_of_repetition rfl rfl),
    run_of_silent (step_of_over rfl rfl rfl), run_of_finished (step_of_stack_nil rfl)]
  rfl

end Machine
end KoreanScript
