import KoreanScript.Host.Buffer
import KoreanScript.Host.Transcript
import KoreanScript.Interpreter

/-!
# Runs of the machine

A step is the end of the run, a matter of blocks and repetitions, or one of the
actions of the line in execution.  The relation `Takes` lists the cases with all
that has led to them, so that whoever meets a step learns where it came from, and
`Statement.Acts` does the same for the actions of a line.  A run is unfolded one
step at a time, by one equation for each thing that a step can ask for.

What a run does can also be told without a host.  A machine reaches another by a
list of host calls when steps lead from the one to the other and the calls are
those the steps asked for, each request with some reply.  Whatever one step keeps
is kept by all that is reached.
-/

set_option autoImplicit false

namespace KoreanScript

/-! ## What a line does -/

section Actions

variable {program : Program} {store : Store} {limit line : Nat} {action : Action}

/-- The actions of statements, each with what has led to it. -/
inductive Statement.Acts (program : Program) (store : Store) (limit line : Nat) :
    Statement → Action → Prop where
  | empty : Acts program store limit line .empty (.proceed store (line + 1))
  | print {expression : List Char} {value : Value} (hvalue : evaluate store expression = .ok value) :
      Acts program store limit line (.print expression) (.print (value.render ++ "\n") (line + 1))
  | input (name prompt : String) :
      Acts program store limit line (.input name prompt) (.request prompt name (line + 1))
  | conditional {condition : List Char} {holds : Bool} {body : Block} {times next : Nat}
      (hholds : evaluateCondition store condition = .ok holds)
      (hbranch : program.branch limit line holds = .enter body times next) :
      Acts program store limit line (.conditional condition) (.enter body times next)
  | loop {count : List Char} {body : Block} {times next : Nat}
      (hcount : Number.count? count = some times)
      (hiterate : program.iterate limit line times = .enter body times next) :
      Acts program store limit line (.loop count) (.enter body times next)
  | assignment {name : String} {expression : List Char} {value : Value}
      (hvalue : evaluate store expression = .ok value) :
      Acts program store limit line (.assignment name expression)
        (.proceed (store.set name value) (line + 1))

/-- The headers of conditionals enter one of their blocks. -/
theorem branch_eq_enter (program : Program) (limit header : Nat) (holds : Bool) :
    ∃ body times next, program.branch limit header holds = .enter body times next := by
  unfold Program.branch
  simp only
  split <;> exact ⟨_, _, _, rfl⟩

/-- Every action of a statement is one of these. -/
theorem acts_of_actionOf {statement : Statement}
    (h : program.actionOf store limit line statement = .ok action) :
    statement.Acts program store limit line action := by
  cases statement with
  | empty =>
    cases h
    exact .empty
  | print expression =>
    obtain ⟨value, hvalue, rfl⟩ := map_eq_ok_iff.mp h
    exact .print hvalue
  | input name prompt =>
    cases h
    exact .input name prompt
  | conditional condition =>
    obtain ⟨holds, hholds, rfl⟩ := map_eq_ok_iff.mp h
    obtain ⟨body, times, next, henter⟩ := branch_eq_enter program limit line holds
    rw [henter]
    exact .conditional hholds henter
  | loop count =>
    simp only [Program.actionOf] at h
    split at h
    · next times hcount =>
      cases h
      exact .loop hcount rfl
    · cases h
  | assignment name expression =>
    obtain ⟨value, hvalue, rfl⟩ := map_eq_ok_iff.mp h
    exact .assignment hvalue
  | unrecognized code => cases h

/-- **What a line does, its statement does**, if there is a line. -/
theorem acts_of_action (h : program.action store limit line = .ok action) :
    action = .proceed store (line + 1) ∨ ∃ found, program[line]? = some found ∧
      found.statement.Acts program store limit line action := by
  unfold Program.action at h
  split at h
  · exact .inl (Except.ok.inj h).symm
  · next found hfound => exact .inr ⟨found, hfound, acts_of_actionOf (locate_eq_ok_iff.mp h)⟩

end Actions

namespace Machine

/-! ## The equations of a step -/

/-- A machine whose next step executes a line, in the block of the frame on top. -/
structure At (machine : Machine) (frame : Frame) (below : List Frame) (line : Nat) : Prop where
  stack : machine.stack = frame :: below
  repetition : frame.repetition = none
  current : frame.context.currentLine? = some line

section Step

variable {machine : Machine} {frame : Frame} {below : List Frame}

theorem step_of_stack_nil (hstack : machine.stack = []) : machine.step = .finished := by
  simp only [step, hstack]

theorem step_of_repetition {repetition : Repetition} (hstack : machine.stack = frame :: below)
    (hrepetition : frame.repetition = some repetition) :
    machine.step = .silent (machine.iterate frame below repetition) := by
  simp only [step, hstack, hrepetition]

theorem step_of_over (hstack : machine.stack = frame :: below)
    (hrepetition : frame.repetition = none) (hcurrent : frame.context.currentLine? = none) :
    machine.step = .silent { machine with stack := below } := by
  simp only [step, hstack, hrepetition, hcurrent]

theorem At.step_of_ok {line : Nat} {action : Action} (h : machine.At frame below line)
    (haction : machine.program.action machine.store frame.context.block.stop line = .ok action) :
    machine.step = machine.perform frame below action := by
  simp only [step, h.stack, h.repetition, h.current, haction]

theorem At.step_of_error {line : Nat} {fault : Fault} (h : machine.At frame below line)
    (hfault : machine.program.action machine.store frame.context.block.stop line = .error fault) :
    machine.step = .failed fault := by
  simp only [step, h.stack, h.repetition, h.current, hfault]

/-- What a line does whose statement has an action. -/
theorem At.step_of_actionOf {line : Nat} {found : Line} {action : Action}
    (h : machine.At frame below line) (hfound : machine.program[line]? = some found)
    (haction : machine.program.actionOf machine.store frame.context.block.stop line
      found.statement = .ok action) : machine.step = machine.perform frame below action := by
  refine h.step_of_ok ?_
  rw [Program.action, hfound]
  simp only [haction, locate]

/-- A machine whose block goes on further down, inside the block, is on that line. -/
theorem At.jumpTo {next : Machine} {line target : Nat} (h : machine.At frame below line)
    (hstack : next.stack = frame.jumpTo target :: below) (hlater : line ≤ target)
    (hstop : target < frame.context.block.stop) : next.At (frame.jumpTo target) below target where
  stack := hstack
  repetition := rfl
  current := by
    obtain ⟨hline, -⟩ := Context.currentLine?_eq_some_iff.mp h.current
    exact Context.currentLine?_jumpTo (by omega) hstop

end Step

/-! ## Whatever a step was -/

/-- The steps of a machine, each with all that has led to it. -/
inductive Takes (machine : Machine) : Step → Prop where
  | finish (hstack : machine.stack = []) : Takes machine .finished
  | iterate {frame : Frame} {below : List Frame} {repetition : Repetition}
      (hstack : machine.stack = frame :: below) (hrepetition : frame.repetition = some repetition) :
      Takes machine (.silent (machine.iterate frame below repetition))
  | leave {frame : Frame} {below : List Frame} (hstack : machine.stack = frame :: below)
      (hrepetition : frame.repetition = none) (hcurrent : frame.context.currentLine? = none) :
      Takes machine (.silent { machine with stack := below })
  | proceed {frame : Frame} {below : List Frame} {line next : Nat} {store : Store}
      (hat : machine.At frame below line)
      (haction : machine.program.action machine.store frame.context.block.stop line =
        .ok (.proceed store next)) :
      Takes machine (.silent { machine with store, stack := frame.jumpTo next :: below })
  | print {frame : Frame} {below : List Frame} {line next : Nat} {text : String}
      (hat : machine.At frame below line)
      (haction : machine.program.action machine.store frame.context.block.stop line =
        .ok (.print text next)) :
      Takes machine (.append text { machine with stack := frame.jumpTo next :: below })
  | request {frame : Frame} {below : List Frame} {line next : Nat} {prompt name : String}
      (hat : machine.At frame below line)
      (haction : machine.program.action machine.store frame.context.block.stop line =
        .ok (.request prompt name next)) :
      Takes machine (.request prompt fun reply =>
        { machine with
          store := machine.store.set name (.ofInput reply)
          stack := frame.jumpTo next :: below })
  | enter {frame : Frame} {below : List Frame} {line times next : Nat} {body : Block}
      (hat : machine.At frame below line)
      (haction : machine.program.action machine.store frame.context.block.stop line =
        .ok (.enter body times next)) :
      Takes machine (.silent
        { machine with
          stack := { frame with repetition := some ⟨body, times, next⟩ } :: below })
  | fail {frame : Frame} {below : List Frame} {line : Nat} {fault : Fault}
      (hat : machine.At frame below line)
      (hfault : machine.program.action machine.store frame.context.block.stop line =
        .error fault) :
      Takes machine (.failed fault)

/-- **Every step is one of these.** -/
theorem takes_step (machine : Machine) : machine.Takes machine.step := by
  cases hstack : machine.stack with
  | nil =>
    rw [step_of_stack_nil hstack]
    exact .finish hstack
  | cons frame below =>
    cases hrepetition : frame.repetition with
    | some repetition =>
      rw [step_of_repetition hstack hrepetition]
      exact .iterate hstack hrepetition
    | none =>
      cases hcurrent : frame.context.currentLine? with
      | none =>
        rw [step_of_over hstack hrepetition hcurrent]
        exact .leave hstack hrepetition hcurrent
      | some line =>
        have hat : machine.At frame below line := ⟨hstack, hrepetition, hcurrent⟩
        cases haction : machine.program.action machine.store frame.context.block.stop line with
        | error fault =>
          rw [hat.step_of_error haction]
          exact .fail hat haction
        | ok action =>
          rw [hat.step_of_ok haction]
          cases action with
          | proceed store next => exact .proceed hat haction
          | print text next => exact .print hat haction
          | request prompt name next => exact .request hat haction
          | enter body times next => exact .enter hat haction

theorem takes_of_step {machine : Machine} {step : Step} (h : machine.step = step) :
    machine.Takes step :=
  h ▸ machine.takes_step

/-- What a step can make of a machine, whatever a host replies. -/
inductive Moves (machine : Machine) : Machine → Prop where
  /-- The body of a repetition is executed once more. -/
  | again {frame : Frame} {below : List Frame} {body : Block} {more next : Nat}
      (hstack : machine.stack = frame :: below)
      (hrepetition : frame.repetition = some ⟨body, more + 1, next⟩) :
      Moves machine
        { machine with
          stack := .ofBlock body :: { frame with repetition := some ⟨body, more, next⟩ } :: below }
  /-- A repetition is over. -/
  | resume {frame : Frame} {below : List Frame} {body : Block} {next : Nat}
      (hstack : machine.stack = frame :: below)
      (hrepetition : frame.repetition = some ⟨body, 0, next⟩) :
      Moves machine { machine with stack := frame.jumpTo next :: below }
  /-- A block is over. -/
  | leave {frame : Frame} {below : List Frame} (hstack : machine.stack = frame :: below)
      (hrepetition : frame.repetition = none) (hcurrent : frame.context.currentLine? = none) :
      Moves machine { machine with stack := below }
  /-- A line is executed that enters no block. -/
  | pass {frame : Frame} {below : List Frame} {line : Nat} {action : Action} (store : Store)
      (hat : machine.At frame below line)
      (haction : machine.program.action machine.store frame.context.block.stop line = .ok action) :
      Moves machine { machine with store, stack := frame.jumpTo action.next :: below }
  /-- A header is executed. -/
  | enter {frame : Frame} {below : List Frame} {line times next : Nat} {body : Block}
      (hat : machine.At frame below line)
      (haction : machine.program.action machine.store frame.context.block.stop line =
        .ok (.enter body times next)) :
      Moves machine
        { machine with
          stack := { frame with repetition := some ⟨body, times, next⟩ } :: below }

theorem moves_iterate {machine : Machine} {frame : Frame} {below : List Frame}
    {repetition : Repetition} (hstack : machine.stack = frame :: below)
    (hrepetition : frame.repetition = some repetition) :
    machine.Moves (machine.iterate frame below repetition) := by
  obtain ⟨body, times, next⟩ := repetition
  cases times with
  | zero => exact .resume hstack hrepetition
  | succ more => exact .again hstack hrepetition

/-- **Whatever a step leads to is one of these.** -/
theorem moves_of_leads {machine next : Machine} (h : Leads machine.step next) :
    machine.Moves next := by
  have htakes := machine.takes_step
  generalize machine.step = step at h htakes
  cases htakes with
  | finish => cases h
  | iterate hstack hrepetition =>
    cases h
    exact moves_iterate hstack hrepetition
  | leave hstack hrepetition hcurrent =>
    cases h
    exact .leave hstack hrepetition hcurrent
  | proceed hat haction =>
    cases h
    exact .pass _ hat haction
  | print hat haction =>
    cases h
    exact .pass _ hat haction
  | request hat haction =>
    cases h
    exact .pass _ hat haction
  | enter hat haction =>
    cases h
    exact .enter hat haction
  | fail => cases h

/-! ## The equations of a run -/

section Equations

variable {m : Type → Type} [Monad m] [Host m] {machine : Machine}

theorem run_of_silent {next : Machine} (h : machine.step = .silent next) :
    (machine.run : m Outcome) = next.run := by
  rw [run]
  split <;> simp_all

theorem run_of_append {text : String} {next : Machine} (h : machine.step = .append text next) :
    (machine.run : m Outcome) = (do
      Host.append text
      next.run) := by
  rw [run]
  split <;> simp_all

theorem run_of_request {prompt : String} {next : String → Machine}
    (h : machine.step = .request prompt next) :
    (machine.run : m Outcome) = (do
      let reply ← Host.requestLine prompt
      (next reply).run) := by
  rw [run]
  split <;> simp_all

theorem run_of_finished (h : machine.step = .finished) :
    (machine.run : m Outcome) = pure (machine, .ok ()) := by
  rw [run]
  split <;> simp_all

theorem run_of_failed {fault : Fault} (h : machine.step = .failed fault) :
    (machine.run : m Outcome) = pure (machine.unwound, .error fault) := by
  rw [run]
  split <;> simp_all

end Equations

/-! ## What a machine reaches -/

/-- Steps that lead from one machine to another, with the host calls they make. -/
inductive Reaches : Machine → List HostCall → Machine → Prop where
  | refl (machine : Machine) : Reaches machine [] machine
  | silent {machine next last : Machine} {calls : List HostCall} (h : machine.step = .silent next)
      (rest : Reaches next calls last) : Reaches machine calls last
  | append {machine next last : Machine} {text : String} {calls : List HostCall}
      (h : machine.step = .append text next) (rest : Reaches next calls last) :
      Reaches machine (.append text :: calls) last
  | request {machine last : Machine} {prompt : String} {next : String → Machine} (reply : String)
      {calls : List HostCall} (h : machine.step = .request prompt next)
      (rest : Reaches (next reply) calls last) :
      Reaches machine (.request prompt reply :: calls) last

namespace Reaches

variable {machine last : Machine} {calls : List HostCall}

/-- What every step keeps, all that is reached has kept. -/
theorem keeps (property : Machine → Prop)
    (hstep : ∀ machine next, Leads machine.step next → property machine → property next)
    (h : Reaches machine calls last) (hmachine : property machine) : property last := by
  induction h with
  | refl => exact hmachine
  | @silent machine next _ _ h _ ih =>
    exact ih (hstep machine next (h ▸ .silent next) hmachine)
  | @append machine next _ text _ h _ ih =>
    exact ih (hstep machine next (h ▸ .append text next) hmachine)
  | @request machine _ prompt next reply _ h _ ih =>
    exact ih (hstep machine (next reply) (h ▸ .request prompt next reply) hmachine)

/-- Steps never mark a line. -/
theorem mark_not_mem (h : Reaches machine calls last) (line : Nat) : .mark line ∉ calls := by
  induction h with
  | refl => exact List.not_mem_nil
  | silent _ _ ih => exact ih
  | append _ _ ih => simpa using ih
  | request _ _ _ ih => simpa using ih

/-- A text that was appended was appended by one step, after the calls before it. -/
theorem exists_append {front later : List HostCall} {text : String}
    (h : Reaches machine (front ++ .append text :: later) last) :
    ∃ between next, Reaches machine front between ∧ between.step = .append text next ∧
      Reaches next later last := by
  generalize hcalls : front ++ .append text :: later = calls at h
  induction h generalizing front with
  | refl => simp at hcalls
  | silent h _ ih =>
    obtain ⟨between, next, hfront, hstep, hlater⟩ := ih hcalls
    exact ⟨between, next, .silent h hfront, hstep, hlater⟩
  | @append machine next _ _ _ h rest ih =>
    cases front with
    | nil =>
      obtain ⟨htext, rfl⟩ := List.cons.inj hcalls
      obtain rfl := HostCall.append.inj htext
      exact ⟨machine, next, .refl machine, h, rest⟩
    | cons call front =>
      obtain ⟨rfl, hrest⟩ := List.cons.inj hcalls
      obtain ⟨between, next, hfront, hstep, hlater⟩ := ih hrest
      exact ⟨between, next, .append h hfront, hstep, hlater⟩
  | request reply h _ ih =>
    cases front with
    | nil => cases (List.cons.inj hcalls).1
    | cons call front =>
      obtain ⟨rfl, hrest⟩ := List.cons.inj hcalls
      obtain ⟨between, next, hfront, hstep, hlater⟩ := ih hrest
      exact ⟨between, next, .request reply h hfront, hstep, hlater⟩

end Reaches

/-! ## Runs with a transcript -/

/-- How a run ends whose last machine takes no further step. -/
inductive Ends : Machine → Outcome → Prop where
  | finished {last : Machine} (h : last.step = .finished) : Ends last (last, .ok ())
  | failed {last : Machine} {fault : Fault} (h : last.step = .failed fault) :
      Ends last (last.unwound, .error fault)

/-- **A run reaches a machine that takes no further step**, and its calls are those
of the steps. -/
theorem run_reaches {σ : Type} [Host (StateM σ)] (machine : Machine) (transcript : Transcript)
    (host : σ) :
    ∃ calls last outcome host', Reaches machine calls last ∧ Ends last outcome ∧
      (machine.run : StateT Transcript (StateM σ) Outcome) transcript host =
        ((outcome, transcript ++ calls.toArray), host') := by
  induction hweight : machine.weight using Nat.strongRecOn generalizing machine transcript host with
  | ind weight ih =>
    subst hweight
    cases hstep : machine.step with
    | silent next =>
      have hless := weight_lt_of_leads (hstep ▸ .silent next : Leads machine.step next)
      obtain ⟨calls, last, outcome, host', hreaches, hends, hrun⟩ :=
        ih next.weight hless next transcript host rfl
      refine ⟨calls, last, outcome, host', .silent hstep hreaches, hends, ?_⟩
      rw [run_of_silent hstep, hrun]
    | append text next =>
      have hless := weight_lt_of_leads (hstep ▸ .append text next : Leads machine.step next)
      let told := (Host.append text : StateM σ Unit) host
      obtain ⟨calls, last, outcome, host', hreaches, hends, hrun⟩ :=
        ih next.weight hless next (transcript.push (.append text)) told.2 rfl
      refine ⟨.append text :: calls, last, outcome, host', .append hstep hreaches, hends, ?_⟩
      rw [run_of_append hstep]
      refine Eq.trans hrun ?_
      simp
    | request prompt next =>
      let asked := (Host.requestLine prompt : StateM σ String) host
      have hless := weight_lt_of_leads
        (hstep ▸ .request prompt next asked.1 : Leads machine.step (next asked.1))
      obtain ⟨calls, last, outcome, host', hreaches, hends, hrun⟩ :=
        ih (next asked.1).weight hless (next asked.1)
          (transcript.push (.request prompt asked.1)) asked.2 rfl
      refine ⟨.request prompt asked.1 :: calls, last, outcome, host',
        .request asked.1 hstep hreaches, hends, ?_⟩
      rw [run_of_request hstep]
      refine Eq.trans hrun ?_
      simp
    | finished =>
      refine ⟨[], machine, _, host, .refl machine, .finished hstep, ?_⟩
      rw [run_of_finished hstep, Array.append_empty]
      rfl
    | failed fault =>
      refine ⟨[], machine, _, host, .refl machine, .failed hstep, ?_⟩
      rw [run_of_failed hstep, Array.append_empty]
      rfl

end Machine
end KoreanScript
