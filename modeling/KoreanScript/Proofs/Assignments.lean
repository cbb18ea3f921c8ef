import KoreanScript.Proofs.Forms

/-!
# Assignments

A machine that executes an assignment whose expression has a value gives that value to the
variable and to no other, calls nobody, and goes on with the line that follows.  This
holds of each line that is written as a name, an equals sign and an expression, unless its
text has the marker of inputs or its name is one of the two words that begin a header.

Where an expression begins with the word of inputs, the line is a request for input, even if
there is a variable of that name.
-/

set_option autoImplicit false

namespace KoreanScript

/-- An expression that has a value is not empty. -/
theorem ne_nil_of_evaluate {store : Store} {expression : List Char} {value : Value}
    (h : evaluate store expression = .ok value) : expression ≠ [] := by
  rintro rfl
  have hnothing : evaluate store [] = reduce [] := by
    rw [evaluate, tokenize_nil]
    rfl
  rw [hnothing, reduce] at h
  cases h

namespace Machine

variable {machine : Machine} {frame : Frame} {below : List Frame} {line : Nat}

section Found

variable {found : Line} (hat : machine.At frame below line)
  (hfound : machine.program[line]? = some found)
include hat hfound

/-- An assignment stores the value of its expression. -/
theorem At.step_of_assignment {name : String} {expression : List Char} {value : Value}
    (hassignment : found.statement = .assignment name expression)
    (hvalue : evaluate machine.store expression = .ok value) :
    machine.step = .silent
      { machine with
        store := machine.store.set name value
        stack := frame.jumpTo (line + 1) :: below } := by
  have haction : machine.program.actionOf machine.store frame.context.block.stop line
      found.statement = .ok (.proceed (machine.store.set name value) (line + 1)) := by
    rw [hassignment]
    exact map_eq_ok_iff.mpr ⟨value, hvalue, rfl⟩
  exact hat.step_of_actionOf hfound haction

/-- An input asks for a line, whatever the store is. -/
theorem At.step_of_input {name prompt : String} (hinput : found.statement = .input name prompt) :
    machine.step = .request prompt fun reply =>
      { machine with
        store := machine.store.set name (.ofInput reply)
        stack := frame.jumpTo (line + 1) :: below } := by
  have haction : machine.program.actionOf machine.store frame.context.block.stop line
      found.statement = .ok (.request prompt name (line + 1)) := by
    rw [hinput]
    rfl
  exact hat.step_of_actionOf hfound haction

end Found

/-- **An assignment assigns.**  A line of its form that has no marker of inputs gives the
value of its expression to its variable and to no other one, calls nobody and is followed
by the next line of the block, if there is one. -/
theorem step_assignmentLine {name : String} {expression : List Char} {value : Value}
    (hat : machine.At frame below line)
    (hline : machine.program[line]? = some (.ofText (assignmentLine name.toList expression)))
    (hname : IsName name.toList) (hif : name ≠ "만약") (hrepeat : name ≠ "반복")
    (htrim : Text.trim expression = expression) (hsign : '#' ∉ expression)
    (hword : ¬inputWord <+: expression) (hmarker : ¬inputMarker <:+: expression)
    (hvalue : evaluate machine.store expression = .ok value) :
    ∃ next, machine.step = .silent next ∧ next.store.get? name = some value ∧
      (∀ other, other ≠ name → next.store.get? other = machine.store.get? other) ∧
        next.program = machine.program ∧ next.stack = frame.jumpTo (line + 1) :: below ∧
          (line + 1 < frame.context.block.stop →
            next.At (frame.jumpTo (line + 1)) below (line + 1)) := by
  have h : Text.Trimmed expression := .of_trim_eq htrim (ne_nil_of_evaluate hvalue)
  have hifList : name.toList ≠ ['만', '약'] := by
    intro heq
    exact hif (String.toList_injective heq)
  have hrepeatList : name.toList ≠ ['반', '복'] := by
    intro heq
    exact hrepeat (String.toList_injective heq)
  have hstatement : (Line.ofText (assignmentLine name.toList expression)).statement =
      .assignment name expression := by
    have hform := ofLine_assignmentLine hname hifList hrepeatList h hsign
    rw [if_neg (not_or.mpr ⟨hword, hmarker⟩), String.ofList_toList] at hform
    exact hform
  refine ⟨_, hat.step_of_assignment hline hstatement hvalue, ?_, ?_, rfl, rfl, ?_⟩
  · rw [Store.get?_set, if_pos rfl]
  · intro other hother
    rw [Store.get?_set, if_neg (Ne.symm hother)]
  · intro hstop
    exact hat.jumpTo rfl (Nat.le_succ line) hstop

/-- A variable that is given a text joined from a literal and another variable. -/
theorem step_assignmentLine_joined :
    let store := Store.empty.set "글" (.text "철수")
    let expression := "\"김\" + 글".toList
    let program := [Line.ofText (assignmentLine "이름".toList expression)]
    let machine : Machine := ⟨program, store, [.ofBlock ⟨0, 1⟩]⟩
    (machine.At (.ofBlock ⟨0, 1⟩) [] 0 ∧ IsName "이름".toList ∧ "이름" ≠ "만약" ∧
        "이름" ≠ "반복" ∧ Text.trim expression = expression ∧ '#' ∉ expression ∧
          ¬inputWord <+: expression ∧ ¬inputMarker <:+: expression ∧
            evaluate store expression = .ok (.text "김철수")) ∧
      ∃ next, machine.step = .silent next ∧ next.store.get? "이름" = some (.text "김철수") ∧
        next.store.get? "글" = store.get? "글" := by
  intro store expression program machine
  have hat : machine.At (.ofBlock ⟨0, 1⟩) [] 0 := ⟨rfl, rfl, rfl⟩
  have hcontinues : ∀ c ∈ ['름'], continuesName c = true := List.all_eq_true.mp (by decide)
  have hname : IsName "이름".toList := ⟨'이', ['름'], rfl, by decide, hcontinues⟩
  have htrim : Text.trim expression = expression := by decide
  have hsign : '#' ∉ expression := by decide
  have hword : ¬inputWord <+: expression := by decide
  have hmarker : ¬inputMarker <:+: expression := by decide
  have hvalue : evaluate store expression = .ok (.text "김철수") := by decide +kernel
  obtain ⟨next, hstep, hset, hothers, -⟩ := step_assignmentLine hat rfl hname (by decide)
    (by decide) htrim hsign hword hmarker hvalue
  exact ⟨⟨hat, hname, by decide, by decide, htrim, hsign, hword, hmarker, hvalue⟩, next, hstep,
    hset, hothers "글" (by decide)⟩

/-- A variable whose name is the word of inputs has a value, but the line that gives this
value to another variable asks for input. -/
theorem exists_assignment_not_made :
    let source := "입력 = \"가\"\nx = 입력"
    let expression := "입력".toList
    ∃ machine frame, (start source).Reaches [] machine ∧ machine.At frame [] 1 ∧
      machine.program[1]? = some (.ofText (assignmentLine ['x'] expression)) ∧
        (IsName ['x'] ∧ Text.trim expression = expression ∧ '#' ∉ expression) ∧
          evaluate machine.store expression = .ok (.text "가") ∧
            ∃ next, machine.step = .request "" next := by
  intro source expression
  let first := Line.ofText "입력 = \"가\"".toList
  let second := Line.ofText (assignmentLine ['x'] expression)
  let store := Store.empty.set "입력" (.text "가")
  let frame : Frame := .ofBlock ⟨0, 2⟩
  let machine : Machine := ⟨[first, second], store, [frame.jumpTo 1]⟩
  have hprogram : Program.ofSource source = [first, second] := by decide +kernel
  have hstart : start source = ⟨[first, second], .empty, [frame]⟩ := by
    rw [start, hprogram]
    rfl
  -- The first line gives the variable its value, so the second one could read it.
  have hassigns : (start source).step = .silent machine := by
    have hat : (⟨[first, second], .empty, [frame]⟩ : Machine).At frame [] 0 := ⟨rfl, rfl, rfl⟩
    have hstatement : first.statement = .assignment "입력" "\"가\"".toList := by decide +kernel
    have hvalue : evaluate .empty "\"가\"".toList = .ok (.text "가") := by decide +kernel
    rw [hstart]
    exact hat.step_of_assignment rfl hstatement hvalue
  have hat : machine.At (frame.jumpTo 1) [] 1 := ⟨rfl, rfl, rfl⟩
  have hinput : second.statement = .input "x" "" := by decide +kernel
  have hname : IsName ['x'] := ⟨'x', [], rfl, by decide, List.forall_mem_nil _⟩
  have hvalue : evaluate store expression = .ok (.text "가") := by decide +kernel
  exact ⟨machine, frame.jumpTo 1, .silent hassigns (.refl machine), hat, rfl,
    ⟨hname, by decide, by decide⟩, hvalue, _, hat.step_of_input rfl hinput⟩

end Machine
end KoreanScript
