import KoreanScript.Condition
import KoreanScript.Program

/-!
# What a line does

Executing a line comes down to one of four actions, chosen from the program, the
store and the end of the enclosing block alone: to go on with a new store, to
print, to ask for a line of input, or to execute the body of a block some number
of times.  Each action names the line of the same block that is executed next,
and that line is always further down.  The host and the blocks in execution play
no part in the choice.
-/

set_option autoImplicit false

namespace KoreanScript

/-- What executing a line comes down to, and the line to go on with. -/
inductive Action where
  /-- Goes on with a store. -/
  | proceed (store : Store) (next : Nat)
  /-- Prints a text. -/
  | print (text : String) (next : Nat)
  /-- Asks for a line of input and stores its value under a name. -/
  | request (prompt name : String) (next : Nat)
  /-- Executes a body a number of times. -/
  | enter (body : Block) (times : Nat) (next : Nat)

/-- The line that an action goes on with. -/
def Action.next : Action → Nat
  | .proceed _ next | .print _ next | .request _ _ next | .enter _ _ next => next

/-- The number of executions of a body that an action asks for. -/
def Action.times : Action → Nat
  | .enter _ times _ => times
  | _ => 0

namespace Program

/-- The header of the second block of a conditional whose first block ends on a line. -/
def elseHeader? (program : Program) (stop limit : Nat) : Option Nat :=
  if stop + 1 < limit && (program[stop + 1]?.any Line.startsElse) then some (stop + 1) else none

/-- The action of a conditional whose condition holds or not.  Both blocks are
passed over, and at most one of them is executed. -/
def branch (program : Program) (limit header : Nat) (holds : Bool) : Action :=
  let stop := program.blockEnd header limit
  match program.elseHeader? stop limit with
  | none => .enter (program.body header limit) (if holds then 1 else 0) (stop + 1)
  | some other =>
    let chosen := if holds then header else other
    .enter (program.body chosen limit) 1 (program.blockEnd other limit + 1)

/-- The action of a loop that is executed a number of times. -/
def iterate (program : Program) (limit header times : Nat) : Action :=
  .enter (program.body header limit) times (program.blockEnd header limit + 1)

/-- The action of a statement on a line, or why there is none. -/
def actionOf (program : Program) (store : Store) (limit line : Nat) :
    Statement → Except Cause Action
  | .empty => .ok (.proceed store (line + 1))
  | .print expression => do
    let value ← evaluate store expression
    return .print (value.render ++ "\n") (line + 1)
  | .input name prompt => .ok (.request prompt name (line + 1))
  | .conditional condition => do
    let holds ← evaluateCondition store condition
    return program.branch limit line holds
  | .loop count =>
    match Number.count? count with
    | some times => .ok (program.iterate limit line times)
    | none => .error (.invalidCount (String.ofList count))
  | .assignment name expression => do
    let value ← evaluate store expression
    return .proceed (store.set name value) (line + 1)
  | .unrecognized code => .error (.unrecognizedStatement (String.ofList code))

/-- **What executing a line does**, in a block that ends before `limit`.  A fault
names the line, counted from one. -/
def action (program : Program) (store : Store) (limit line : Nat) : Except Fault Action :=
  match program[line]? with
  | none => .ok (.proceed store (line + 1))
  | some found => locate (line + 1) (program.actionOf store limit line found.statement)

/-! ## Bounds -/

theorem elseHeader?_eq_some {program : Program} {stop limit other : Nat}
    (h : program.elseHeader? stop limit = some other) : other = stop + 1 ∧ other < limit := by
  simp only [elseHeader?, Option.ite_none_right_eq_some, Bool.and_eq_true, decide_eq_true_eq,
    Option.some.injEq] at h
  omega

end Program

/-- An action that keeps to the rest of its block: it goes on further down, asks for
fewer executions than the limit of counts, and enters only lines that follow. -/
structure Action.Within (action : Action) (limit line : Nat) : Prop where
  next_gt : line < action.next
  times_lt : action.times < Number.countLimit
  body_lt : ∀ body times next, action = .enter body times next → body.length < limit - line

namespace Program

theorem branch_within (program : Program) {limit header : Nat} (h : header < limit)
    (holds : Bool) : (program.branch limit header holds).Within limit header := by
  have hend := program.le_blockEnd header limit
  unfold branch
  simp only
  split
  · refine ⟨?_, ?_, ?_⟩
    · simp only [Action.next]
      omega
    · simp only [Action.times, Number.countLimit]
      split <;> decide
    · rintro body times next heq
      injection heq with heq
      exact heq ▸ program.length_body_lt h
  · next other hother =>
    obtain ⟨hother, hlimit⟩ := elseHeader?_eq_some hother
    have helse := program.le_blockEnd other limit
    refine ⟨?_, ?_, ?_⟩
    · simp only [Action.next]
      omega
    · simp only [Action.times, Number.countLimit]
      decide
    · rintro body times next heq
      injection heq with heq
      subst heq
      split
      · exact program.length_body_lt h
      · have := program.length_body_lt hlimit
        omega

theorem iterate_within (program : Program) {limit header times : Nat} (h : header < limit)
    (htimes : times < Number.countLimit) :
    (program.iterate limit header times).Within limit header where
  next_gt := Nat.lt_succ_of_le (program.le_blockEnd header limit)
  times_lt := htimes
  body_lt := by
    rintro body times next heq
    injection heq with heq
    exact heq ▸ program.length_body_lt h

theorem proceed_within (store : Store) (limit line : Nat) :
    (Action.proceed store (line + 1)).Within limit line where
  next_gt := Nat.lt_succ_self line
  times_lt := Number.countLimit_pos
  body_lt := by simp

theorem actionOf_within {program : Program} {store : Store} {limit line : Nat}
    {statement : Statement} {action : Action} (hline : line < limit)
    (h : program.actionOf store limit line statement = .ok action) :
    action.Within limit line := by
  cases statement with
  | empty =>
    injection h with h
    exact h ▸ proceed_within store limit line
  | print expression =>
    cases hvalue : evaluate store expression with
    | error cause => simp [actionOf, hvalue, bind, Except.bind] at h
    | ok value =>
      simp only [actionOf, hvalue, bind, Except.bind, pure, Except.pure, Except.ok.injEq] at h
      exact h ▸ ⟨Nat.lt_succ_self line, Number.countLimit_pos, by simp⟩
  | input name prompt =>
    injection h with h
    exact h ▸ ⟨Nat.lt_succ_self line, Number.countLimit_pos, by simp⟩
  | conditional condition =>
    cases hholds : evaluateCondition store condition with
    | error cause => simp [actionOf, hholds, bind, Except.bind] at h
    | ok holds =>
      simp only [actionOf, hholds, bind, Except.bind, pure, Except.pure, Except.ok.injEq] at h
      exact h ▸ program.branch_within hline holds
  | loop count =>
    simp only [actionOf] at h
    split at h
    · next times htimes =>
      injection h with h
      exact h ▸ program.iterate_within hline (Number.count?_lt htimes)
    · simp at h
  | assignment name expression =>
    cases hvalue : evaluate store expression with
    | error cause => simp [actionOf, hvalue, bind, Except.bind] at h
    | ok value =>
      simp only [actionOf, hvalue, bind, Except.bind, pure, Except.pure, Except.ok.injEq] at h
      exact h ▸ proceed_within _ limit line
  | unrecognized code => simp [actionOf] at h

/-- **Every action keeps to the rest of its block.** -/
theorem action_within {program : Program} {store : Store} {limit line : Nat} {action : Action}
    (hline : line < limit) (h : program.action store limit line = .ok action) :
    action.Within limit line := by
  unfold Program.action at h
  split at h
  · injection h with h
    exact h ▸ proceed_within store limit line
  · next found _ =>
    cases hchosen : program.actionOf store limit line found.statement with
    | error cause => simp [hchosen, locate] at h
    | ok chosen =>
      simp only [hchosen, locate, Except.ok.injEq] at h
      exact h ▸ actionOf_within hline hchosen

end Program

end KoreanScript
