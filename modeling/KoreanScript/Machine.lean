import KoreanScript.Action
import KoreanScript.Context

/-!
# The machine that executes programs

The state of a run is the program, the store and a stack of frames, one for each
block in execution, the innermost on top.  A frame is the context of its block
and, while the line under the cursor is a header at work, its repetition: a body
that is still to be executed some number of times before the block goes on.

One step executes one line, or starts a body once more by putting a frame for it on
top, or ends a repetition by moving the cursor, or removes the frame of a block that
is over.  Removing a frame leaves the frames below as they were when it was put
there.  Whatever the outside world has to do with a step is told by its result, so
the machine itself needs no host.

Every run ends.  Bodies lie strictly inside what is left of their block and counts
are bounded, so each frame has a weight that covers all it will ever do, and a
step always leaves the stack lighter.
-/

set_option autoImplicit false

namespace KoreanScript

/-! ## States -/

/-- What a header has left to do: to execute a body some number of times, and then
to go on with a line. -/
structure Repetition where
  body : Block
  times : Nat
  next : Nat
  deriving DecidableEq

/-- A block in execution. -/
structure Frame where
  context : Context
  repetition : Option Repetition
  deriving DecidableEq

/-- The state of a run. -/
structure Machine where
  program : Program
  store : Store
  stack : List Frame

/-- What a step asks of the outside world. -/
inductive Step where
  /-- Nothing. -/
  | silent (next : Machine)
  /-- To take a text. -/
  | append (text : String) (next : Machine)
  /-- To give a line of input. -/
  | request (prompt : String) (next : String → Machine)
  /-- The run is over. -/
  | finished
  /-- The line in execution is at fault. -/
  | failed (fault : Fault)

namespace Frame

/-- The frame of a block that is entered. -/
def ofBlock (block : Block) : Frame :=
  ⟨.ofBlock block, none⟩

/-- The frame with its cursor on a line and no repetition. -/
def jumpTo (frame : Frame) (line : Nat) : Frame :=
  ⟨frame.context.jumpTo line, none⟩

end Frame

namespace Machine

/-- The state before a run: no variables, and the whole program as one block. -/
def start (source : String) : Machine :=
  let program := Program.ofSource source
  ⟨program, .empty, [.ofBlock ⟨0, program.length⟩]⟩

/-- The state before anything is run. -/
def idle : Machine :=
  ⟨[], .empty, []⟩

/-- The number of blocks in execution. -/
def depth (machine : Machine) : Nat :=
  machine.stack.length

/-- The state with no block in execution and the store as it is. -/
def unwound (machine : Machine) : Machine :=
  { machine with stack := [] }

/-! ## Steps -/

/-- The step that performs an action of the innermost block. -/
def perform (machine : Machine) (frame : Frame) (below : List Frame) : Action → Step
  | .proceed store next => .silent { machine with store, stack := frame.jumpTo next :: below }
  | .print text next => .append text { machine with stack := frame.jumpTo next :: below }
  | .request prompt name next => .request prompt fun reply =>
    { machine with
      store := machine.store.set name (.ofInput reply)
      stack := frame.jumpTo next :: below }
  | .enter body times next =>
    let entered := { frame with repetition := some ⟨body, times, next⟩ }
    .silent { machine with stack := entered :: below }

/-- The step that goes on with the repetition of the innermost block. -/
def iterate (machine : Machine) (frame : Frame) (below : List Frame) (repetition : Repetition) :
    Machine :=
  match repetition.times with
  | 0 => { machine with stack := frame.jumpTo repetition.next :: below }
  | more + 1 =>
    let waiting := { frame with repetition := some { repetition with times := more } }
    { machine with stack := .ofBlock repetition.body :: waiting :: below }

/-- **One step of a run.** -/
def step (machine : Machine) : Step :=
  match machine.stack with
  | [] => .finished
  | frame :: below =>
    match frame.repetition with
    | some repetition => .silent (machine.iterate frame below repetition)
    | none =>
      match frame.context.currentLine? with
      | none => .silent { machine with stack := below }
      | some line =>
        match machine.program.action machine.store frame.context.block.stop line with
        | .error fault => .failed fault
        | .ok action => machine.perform frame below action

/-- What a machine can be after a step, whatever a host replies. -/
inductive Leads : Step → Machine → Prop where
  | silent (next : Machine) : Leads (.silent next) next
  | append (text : String) (next : Machine) : Leads (.append text next) next
  | request (prompt : String) (next : String → Machine) (reply : String) :
    Leads (.request prompt next) (next reply)

end Machine

/-! ## Weights -/

/-- A bound on the steps from some remaining lines to the end of their block: each
line may execute a body among the lines that follow it as often as a count allows. -/
def passWeight : Nat → Nat
  | 0 => 1
  | lines + 1 => Number.countLimit * (passWeight lines + 1) + passWeight lines + 1

/-- A bound on the steps of a repetition, without the step that ends it. -/
def Repetition.weight (repetition : Repetition) : Nat :=
  repetition.times * (passWeight repetition.body.length + 1)

/-- A bound on the steps of a frame. -/
def Frame.weight (frame : Frame) : Nat :=
  match frame.repetition with
  | none => passWeight frame.context.remaining
  | some repetition =>
    repetition.weight + passWeight (frame.context.jumpTo repetition.next).remaining + 1

/-- A bound on the steps of a stack. -/
def stackWeight : List Frame → Nat
  | [] => 0
  | frame :: below => frame.weight + stackWeight below

/-- A bound on the steps of a run. -/
def Machine.weight (machine : Machine) : Nat :=
  stackWeight machine.stack

theorem passWeight_pos (lines : Nat) : 0 < passWeight lines := by
  cases lines with
  | zero => exact Nat.one_pos
  | succ lines => exact Nat.succ_pos _

theorem passWeight_le {fewer more : Nat} (h : fewer ≤ more) :
    passWeight fewer ≤ passWeight more := by
  induction h with
  | refl => exact Nat.le_refl _
  | step _ ih =>
    simp only [passWeight]
    omega

theorem passWeight_lt {fewer more : Nat} (h : fewer < more) :
    passWeight fewer < passWeight more := by
  obtain ⟨lines, rfl⟩ : ∃ lines, more = lines + 1 := ⟨more - 1, by omega⟩
  have := passWeight_le (Nat.le_of_lt_succ h)
  simp only [passWeight]
  omega

/-- A repetition over lines that remain weighs, together with the lines after it, less
than one line more. -/
theorem repetition_weight_lt {repetition : Repetition} {rest lines : Nat}
    (htimes : repetition.times < Number.countLimit) (hbody : repetition.body.length < lines)
    (hrest : rest < lines) :
    repetition.weight + passWeight rest + 1 < passWeight lines := by
  obtain ⟨fewer, rfl⟩ : ∃ fewer, lines = fewer + 1 := ⟨lines - 1, by omega⟩
  have hbodies : passWeight repetition.body.length ≤ passWeight fewer := passWeight_le (by omega)
  have hlines : passWeight rest ≤ passWeight fewer := passWeight_le (by omega)
  have hrepetition : repetition.weight + (passWeight fewer + 1)
      ≤ Number.countLimit * (passWeight fewer + 1) := by
    calc repetition.weight + (passWeight fewer + 1)
      _ ≤ repetition.times * (passWeight fewer + 1) + (passWeight fewer + 1) :=
        Nat.add_le_add_right (Nat.mul_le_mul_left _ (Nat.succ_le_succ hbodies)) _
      _ = (repetition.times + 1) * (passWeight fewer + 1) := (Nat.succ_mul _ _).symm
      _ ≤ Number.countLimit * (passWeight fewer + 1) := Nat.mul_le_mul_right _ htimes
  simp only [passWeight]
  omega

/-! ## Every step makes the stack lighter -/

namespace Frame

theorem weight_pos (frame : Frame) : 0 < frame.weight := by
  unfold weight
  split
  · exact passWeight_pos _
  · exact Nat.succ_pos _

theorem weight_ofBlock (block : Block) : (ofBlock block).weight = passWeight block.length :=
  rfl

theorem weight_jumpTo_lt {frame : Frame} {line next : Nat} (hrepetition : frame.repetition = none)
    (hcurrent : frame.context.currentLine? = some line) (hnext : line < next) :
    (frame.jumpTo next).weight < frame.weight := by
  simp only [weight, jumpTo, hrepetition]
  exact passWeight_lt (Context.remaining_jumpTo_lt hcurrent hnext)

theorem weight_enter_lt {frame : Frame} {line : Nat} {repetition : Repetition}
    (hrepetition : frame.repetition = none) (hcurrent : frame.context.currentLine? = some line)
    (hnext : line < repetition.next)
    (htimes : repetition.times < Number.countLimit)
    (hbody : repetition.body.length < frame.context.block.stop - line) :
    ({ frame with repetition := some repetition } : Frame).weight < frame.weight := by
  have hroom : repetition.body.length < frame.context.remaining := by
    rwa [Context.remaining, ← (Context.currentLine?_eq_some_iff.mp hcurrent).1]
  simp only [weight, hrepetition]
  exact repetition_weight_lt htimes hroom (Context.remaining_jumpTo_lt hcurrent hnext)

end Frame

namespace Machine

theorem weight_iterate_lt {machine : Machine} {frame : Frame} {below : List Frame}
    {repetition : Repetition} (hstack : machine.stack = frame :: below)
    (hrepetition : frame.repetition = some repetition) :
    (machine.iterate frame below repetition).weight < machine.weight := by
  simp only [weight, iterate, hstack]
  split
  · simp only [stackWeight, Frame.weight, Frame.jumpTo, hrepetition]
    omega
  · next more htimes =>
    have hwaiting : frame.weight =
        ({ frame with repetition := some { repetition with times := more } } : Frame).weight
          + (passWeight repetition.body.length + 1) := by
      simp only [Frame.weight, hrepetition, Repetition.weight, htimes, Nat.succ_mul]
      omega
    simp only [stackWeight, Frame.weight_ofBlock]
    omega

theorem weight_perform_lt {machine next : Machine} {frame : Frame} {below : List Frame}
    {line : Nat} {action : Action} (hstack : machine.stack = frame :: below)
    (hrepetition : frame.repetition = none) (hcurrent : frame.context.currentLine? = some line)
    (hwithin : action.Within frame.context.block.stop line)
    (h : Leads (machine.perform frame below action) next) : next.weight < machine.weight := by
  have hjump := Frame.weight_jumpTo_lt hrepetition hcurrent hwithin.next_gt
  rw [weight, weight, hstack]
  cases action with
  | proceed store line =>
    cases h
    exact Nat.add_lt_add_right hjump _
  | print text line =>
    cases h
    exact Nat.add_lt_add_right hjump _
  | request prompt name line =>
    cases h
    exact Nat.add_lt_add_right hjump _
  | enter body times line =>
    cases h
    exact Nat.add_lt_add_right (Frame.weight_enter_lt hrepetition hcurrent hwithin.next_gt
      hwithin.times_lt (hwithin.body_lt body times line rfl)) _

/-- **Every step makes the machine lighter.** -/
theorem weight_lt_of_leads {machine next : Machine} (h : Leads machine.step next) :
    next.weight < machine.weight := by
  unfold step at h
  split at h
  · cases h
  · next frame below hstack =>
    split at h
    · next repetition hrepetition =>
      cases h
      exact weight_iterate_lt hstack hrepetition
    · next hrepetition =>
      split at h
      · cases h
        have := frame.weight_pos
        simp only [weight, hstack, stackWeight]
        omega
      · next line hcurrent =>
        split at h
        · cases h
        · next action haction =>
          have hline := (Context.currentLine?_eq_some_iff.mp hcurrent).2
          exact weight_perform_lt hstack hrepetition hcurrent
            (Program.action_within hline haction) h

end Machine

end KoreanScript
