import KoreanScript.Proofs.Anchoring
import KoreanScript.Proofs.Digits
import KoreanScript.Proofs.Structured

/-!
# What loops do

A machine knows its blocks only as a stack of frames, so what a body does is told by
running a machine with a single frame, that of the body.  As long as there is a frame
on top of some others, a step takes no notice of the others.  Hence a run with frames
above others is the run of those above alone, followed by a run of the others with the
store that it leaves; if it fails, the others are never run.

With that, whatever stands in the body of a loop, balanced or not, the header acts as
the body executed on its own as often as the count says, and then as what comes right
after the block.
-/

set_option autoImplicit false

namespace KoreanScript

/-! ## Frames below -/

/-- A machine with more frames below its own. -/
def Machine.onto (machine : Machine) (below : List Frame) : Machine :=
  { machine with stack := machine.stack ++ below }

/-- A step of a machine with more frames below its own. -/
def Step.onto (below : List Frame) : Step → Step
  | .silent next => .silent (next.onto below)
  | .append text next => .append text (next.onto below)
  | .request prompt next => .request prompt fun reply => (next reply).onto below
  | .finished => .finished
  | .failed fault => .failed fault

namespace Machine

variable {machine : Machine} {frame : Frame} {rest : List Frame} (below : List Frame)

theorem iterate_onto (repetition : Repetition) :
    (machine.onto below).iterate frame (rest ++ below) repetition =
      (machine.iterate frame rest repetition).onto below := by
  cases htimes : repetition.times <;> simp only [iterate, htimes, onto, List.cons_append]

theorem perform_onto (action : Action) :
    (machine.onto below).perform frame (rest ++ below) action =
      (machine.perform frame rest action).onto below := by
  cases action <;> rfl

/-- **A machine with a frame takes the same step whatever frames are below.** -/
theorem step_onto (h : machine.stack ≠ []) :
    (machine.onto below).step = machine.step.onto below := by
  obtain ⟨frame, rest, hstack⟩ := List.exists_cons_of_ne_nil h
  have honto : (machine.onto below).stack = frame :: (rest ++ below) := by
    rw [onto, hstack, List.cons_append]
  cases hrepetition : frame.repetition with
  | some repetition =>
    rw [step_of_repetition hstack hrepetition, step_of_repetition honto hrepetition, iterate_onto]
    rfl
  | none =>
    cases hcurrent : frame.context.currentLine? with
    | none =>
      rw [step_of_over hstack hrepetition hcurrent, step_of_over honto hrepetition hcurrent]
      rfl
    | some line =>
      have hat : machine.At frame rest line := ⟨hstack, hrepetition, hcurrent⟩
      have hatOnto : (machine.onto below).At frame (rest ++ below) line :=
        ⟨honto, hrepetition, hcurrent⟩
      cases haction : machine.program.action machine.store frame.context.block.stop line with
      | error fault =>
        rw [hat.step_of_error haction, hatOnto.step_of_error haction]
        rfl
      | ok action => rw [hat.step_of_ok haction, hatOnto.step_of_ok haction, perform_onto]

/-! ## Runs above and below -/

section Run

variable {m : Type → Type} [Monad m] [LawfulMonad m] [Host m]

/-- What is left of a run when the blocks above some others are done with. -/
def resume (program : Program) (below : List Frame) : Outcome → m Outcome
  | (last, .ok ()) => (⟨program, last.store, below⟩ : Machine).run
  | (last, .error fault) => pure (⟨program, last.store, []⟩, .error fault)

/-- **A run with frames above others runs those above and then the others.** -/
theorem run_onto (machine : Machine) :
    ((machine.onto below).run : m Outcome) = machine.run >>= resume machine.program below := by
  induction hweight : machine.weight using Nat.strongRecOn generalizing machine with
  | ind weight ih =>
    subst hweight
    -- Whatever a step leads to is lighter and has the same program.
    have hnext (next : Machine) (hleads : Leads machine.step next) :
        ((next.onto below).run : m Outcome) = next.run >>= resume machine.program below := by
      rw [← program_of_leads hleads]
      exact ih next.weight (weight_lt_of_leads hleads) next rfl
    by_cases hstack : machine.stack = []
    · rw [run_of_finished (step_of_stack_nil hstack), pure_bind, resume, onto, hstack,
        List.nil_append]
    · have honto := step_onto below hstack
      cases hstep : machine.step with
      | silent next =>
        rw [hstep] at honto hnext
        rw [run_of_silent honto, run_of_silent hstep, hnext next (.silent next)]
      | append text next =>
        rw [hstep] at honto hnext
        rw [run_of_append honto, run_of_append hstep, hnext next (.append text next), bind_assoc]
      | request prompt next =>
        rw [hstep] at honto hnext
        rw [run_of_request honto, run_of_request hstep, bind_assoc]
        exact bind_congr fun reply => hnext (next reply) (.request prompt next reply)
      | finished => exact absurd (stack_of_finished hstep) hstack
      | failed fault =>
        rw [hstep] at honto
        rw [run_of_failed honto, run_of_failed hstep, pure_bind]
        rfl

end Run

end Machine

/-! ## Blocks on their own -/

section Block

variable {m : Type → Type} [Monad m] [Host m]

/-- Executes the lines of a block, from the first one on, as if there were no other
block in execution. -/
def Block.execute (program : Program) (block : Block) : Execution m Unit :=
  ExceptT.mk fun store => do
    let (last, result) ← (⟨program, store, [.ofBlock block]⟩ : Machine).run
    return (result, last.store)

variable [LawfulMonad m] (program : Program) (block : Block) (below : List Frame) (store : Store)

/-- **A block that is entered is executed on its own**, and then the blocks below go on. -/
theorem Machine.run_ofBlock :
    ((⟨program, store, .ofBlock block :: below⟩ : Machine).run : m Outcome) =
      (block.execute program).runThen program
        (fun _ after => (⟨program, after, below⟩ : Machine).run) store := by
  have hexecute : (block.execute program : Execution m Unit).run.run store = (do
      let (last, result) ← (⟨program, store, [.ofBlock block]⟩ : Machine).run
      return (result, last.store)) := rfl
  rw [Execution.runThen, hexecute, bind_assoc]
  refine (run_onto below ⟨program, store, [.ofBlock block]⟩).trans (bind_congr ?_)
  rintro ⟨last, result⟩
  rw [pure_bind]
  cases result <;> rfl

/-- A header that enters a body a number of times acts as that body so many times over, and
then goes on with the line that it names. -/
theorem Machine.run_of_enter {machine : Machine} {frame : Frame} {times next : Nat}
    (hstep : machine.step = machine.perform frame below (.enter block times next)) :
    (machine.run : m Outcome) =
      ((block.execute machine.program).times times).runThen machine.program
        (fun _ after => (⟨machine.program, after, frame.jumpTo next :: below⟩ : Machine).run)
        machine.store := by
  rw [run_of_silent hstep]
  exact run_times below machine.store
    (fun below store => by
      rw [onLine, ← Frame.ofBlock_eq_onLine]
      exact run_ofBlock machine.program block below store)
    frame.context next times

end Block

/-! ## The header of a loop -/

namespace Machine

variable {m : Type → Type} [Monad m] [LawfulMonad m] [Host m] {machine : Machine} {frame : Frame}
  {below : List Frame} {line : Nat} {found : Line} {count : List Char}

section Header

variable (hat : machine.At frame below line) (hfound : machine.program[line]? = some found)
  (hloop : found.statement = .loop count)
include hat hfound hloop

theorem step_of_loop_none (hcount : Number.count? count = none) :
    machine.step = .failed ⟨line + 1, .invalidCount (String.ofList count)⟩ := by
  refine hat.step_of_error ?_
  simp only [Program.action, hfound, hloop, Program.actionOf, hcount, locate]

theorem step_of_loop_some {times : Nat} (hcount : Number.count? count = some times) :
    machine.step = machine.perform frame below
      (machine.program.iterate frame.context.block.stop line times) := by
  refine hat.step_of_actionOf hfound ?_
  simp only [hloop, Program.actionOf, hcount]

/-- A loop acts as its body several times over, and then goes on after the block. -/
theorem run_of_loop {times : Nat} (hcount : Number.count? count = some times) :
    (machine.run : m Outcome) =
      (((machine.program.body line frame.context.block.stop).execute machine.program).times
        times).runThen machine.program
        (fun _ after => (⟨machine.program, after,
          frame.jumpTo (machine.program.blockEnd line frame.context.block.stop + 1) :: below⟩ :
            Machine).run) machine.store :=
  run_of_enter _ below (step_of_loop_some hat hfound hloop hcount)

end Header

/-- **Loop counts are exact, and a loop is its body several times over.**  A text is a
count just if it is a run of digits that counts less than `2 ^ 64`, and it counts what
its digits do in their places.  A header whose count is none fails with that text on its
line, and the run ends with the store as it is and without a call to the host.  Any other
header acts as the body of its block, executed on its own from its first line as often as
the count says, until one execution fails, and then goes on right after the block. -/
theorem loop_times :
    (∀ (text : List Char) (n : Nat), Number.count? text = some n ↔
        text ≠ [] ∧ (∀ c ∈ text, c.isDigit = true) ∧ Number.placeValue text = n ∧ n < 2 ^ 64) ∧
      ∀ (machine : Machine) (frame : Frame) (below : List Frame) (line : Nat) (found : Line)
        (count : List Char), machine.At frame below line → machine.program[line]? = some found →
          found.statement = .loop count →
        (Number.count? count = none →
          let fault : Fault := ⟨line + 1, .invalidCount (String.ofList count)⟩
          machine.step = .failed fault ∧
            (machine.run : m Outcome) =
              pure (⟨machine.program, machine.store, []⟩, .error fault)) ∧
        ∀ times, Number.count? count = some times →
          let program := machine.program
          let limit := frame.context.block.stop
          let body : Execution m Unit := (program.body line limit).execute program
          (machine.run : m Outcome) = (body.times times).runThen program
            (fun _ after => (⟨program, after,
              frame.jumpTo (program.blockEnd line limit + 1) :: below⟩ : Machine).run)
            machine.store := by
  refine ⟨fun _ _ => Number.count?_eq_some_iff, ?_⟩
  intro machine frame below line found count hat hfound hloop
  refine ⟨fun hcount => ?_, fun times hcount => run_of_loop hat hfound hloop hcount⟩
  have hstep := step_of_loop_none hat hfound hloop hcount
  exact ⟨hstep, run_of_failed hstep⟩

/-- A loop whose body is executed twice, and one whose count is a word. -/
theorem loop_times_word :
    let header := Line.ofText "반복 2 \x7b".toList
    let program := [header, .ofText "출력(\"가\")".toList, .ofText ['\x7d']]
    let frame : Frame := .ofBlock ⟨0, 3⟩
    let machine : Machine := ⟨program, .empty, [frame]⟩
    let body : Execution (StateM Buffer) Unit := (⟨1, 2⟩ : Block).execute program
    let word := Line.ofText "반복 가 \x7b".toList
    let failing : Machine := ⟨[word], .empty, [.ofBlock ⟨0, 1⟩]⟩
    (machine.At frame [] 0 ∧ header.statement = .loop ['2'] ∧ Number.count? ['2'] = some 2 ∧
        (machine.run : StateM Buffer Outcome) = (body.times 2).runThen program
          (fun _ after => (⟨program, after, [frame.jumpTo 3]⟩ : Machine).run) .empty) ∧
      failing.At (.ofBlock ⟨0, 1⟩) [] 0 ∧ word.statement = .loop ['가'] ∧
        Number.count? ['가'] = none ∧
          (failing.run : StateM Buffer Outcome) =
            pure (⟨[word], .empty, []⟩, .error ⟨1, .invalidCount "가"⟩) := by
  intro header program frame machine body word failing
  have hat : machine.At frame [] 0 := ⟨rfl, rfl, rfl⟩
  have hloop : header.statement = .loop ['2'] := by decide
  have hcount : Number.count? ['2'] = some 2 := by decide
  have hfailing : failing.At (.ofBlock ⟨0, 1⟩) [] 0 := ⟨rfl, rfl, rfl⟩
  have hword : word.statement = .loop ['가'] := by decide
  have hnone : Number.count? ['가'] = none := by decide
  obtain ⟨-, hloops⟩ := loop_times (m := StateM Buffer)
  obtain ⟨-, htwice⟩ := hloops machine frame [] 0 header _ hat rfl hloop
  obtain ⟨hfails, -⟩ := hloops failing _ [] 0 word _ hfailing rfl hword
  exact ⟨⟨hat, hloop, hcount, htwice 2 hcount⟩, hfailing, hword, hnone, (hfails hnone).2⟩

end Machine
end KoreanScript
