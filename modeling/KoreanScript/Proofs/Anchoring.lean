import KoreanScript.Proofs.Runs

/-!
# Failing runs

A run that fails stops in front of the statement at fault.  The last machine that
it reaches is about to execute that statement, with the store that the statement
would have started from; the statement makes no host call of its own; and the
fault names its line.  All that follows is the report: one mark and one text.

Steps themselves never mark a line, and a text that a step appends is the value of
a printing statement.  So a run that does not fail leaves neither a mark nor a
diagnostic.
-/

set_option autoImplicit false

namespace KoreanScript

/-! ## What makes a statement fail -/

/-- Why a statement fails with the values of a store. -/
inductive Statement.Fails (store : Store) : Statement → Cause → Prop where
  | print {expression : List Char} {cause : Cause} (h : evaluate store expression = .error cause) :
      Fails store (.print expression) cause
  | assignment {name : String} {expression : List Char} {cause : Cause}
      (h : evaluate store expression = .error cause) :
      Fails store (.assignment name expression) cause
  | conditional {condition : List Char} {cause : Cause}
      (h : evaluateCondition store condition = .error cause) :
      Fails store (.conditional condition) cause
  | loop {count : List Char} (h : Number.count? count = none) :
      Fails store (.loop count) (.invalidCount (String.ofList count))
  | unrecognized (code : List Char) :
      Fails store (.unrecognized code) (.unrecognizedStatement (String.ofList code))

/-- A statement has no action only for such a reason. -/
theorem fails_of_actionOf {program : Program} {store : Store} {limit line : Nat}
    {statement : Statement} {cause : Cause}
    (h : program.actionOf store limit line statement = .error cause) :
    statement.Fails store cause := by
  cases statement with
  | empty => cases h
  | print expression => exact .print (map_eq_error_iff.mp h)
  | input name prompt => cases h
  | conditional condition => exact .conditional (map_eq_error_iff.mp h)
  | loop count =>
    simp only [Program.actionOf] at h
    split at h
    · cases h
    · next hcount =>
      cases h
      exact .loop hcount
  | assignment name expression => exact .assignment (map_eq_error_iff.mp h)
  | unrecognized code =>
    cases h
    exact .unrecognized code

/-- A fault of a line is that of its statement. -/
theorem actionOf_of_action_error {program : Program} {store : Store} {limit line : Nat}
    {fault : Fault} (h : program.action store limit line = .error fault) :
    ∃ found, program[line]? = some found ∧ fault.line = line + 1 ∧
      program.actionOf store limit line found.statement = .error fault.cause := by
  unfold Program.action at h
  split at h
  · cases h
  · next found hfound => exact ⟨found, hfound, locate_eq_error_iff.mp h⟩

namespace Machine

/-! ## The statement in execution -/

variable {machine next : Machine}

/-- A step that fails is at a statement that fails, and the fault is on its line. -/
theorem fails_of_step {fault : Fault} (h : machine.step = .failed fault) :
    ∃ frame below line found, machine.At frame below line ∧ machine.program[line]? = some found ∧
      found.statement.Fails machine.store fault.cause ∧ fault.line = line + 1 := by
  cases takes_of_step h with
  | @fail frame below line _ hat hfault =>
    obtain ⟨found, hfound, hnumber, hcause⟩ := actionOf_of_action_error hfault
    exact ⟨frame, below, line, found, hat, hfound, fails_of_actionOf hcause, hnumber⟩

/-- A step that appends a text executes a printing statement. -/
theorem prints_of_step {text : String} (h : machine.step = .append text next) :
    ∃ frame below line found expression value, machine.At frame below line ∧
      machine.program[line]? = some found ∧ found.statement = .print expression ∧
        evaluate machine.store expression = .ok value ∧ text = value.render ++ "\n" := by
  cases takes_of_step h with
  | @print frame below line _ _ hat haction =>
    rcases acts_of_action haction with hnothing | ⟨found, hfound, hacts⟩
    · cases hnothing
    · generalize hstatement : found.statement = statement at hacts
      cases hacts with
      | print hvalue =>
        exact ⟨frame, below, line, found, _, _, hat, hfound, hstatement, hvalue, rfl⟩

/-- A run is over when no block is left. -/
theorem stack_of_finished (h : machine.step = .finished) : machine.stack = [] := by
  cases takes_of_step h with
  | finish hstack => exact hstack

/-- No step changes the program. -/
theorem program_of_leads (h : Leads machine.step next) : next.program = machine.program := by
  cases moves_of_leads h <;> rfl

/-- A machine that executes a line of a source text as some statement. -/
def Executes (machine : Machine) (source : String) (line : Nat) (statement : Statement) : Prop :=
  (∃ frame below, machine.At frame below line) ∧
    ∃ text, (Text.lines source.toList)[line]? = some text ∧ Statement.ofLine text = statement

/-- A machine that executes a printing statement, whose text is the value of its expression. -/
def Prints (machine : Machine) (source : String) (text : String) : Prop :=
  ∃ line expression value, machine.Executes source line (.print expression) ∧
    evaluate machine.store expression = .ok value ∧ text = value.render ++ "\n"

/-- A machine that executes a failing statement, whose line is that of the fault. -/
def StopsAt (machine : Machine) (source : String) (fault : Fault) : Prop :=
  ∃ line statement, machine.Executes source line statement ∧
    statement.Fails machine.store fault.cause ∧ fault.line = line + 1

theorem StopsAt.line_bounds {source : String} {fault : Fault} (h : machine.StopsAt source fault) :
    1 ≤ fault.line ∧ fault.line ≤ (Text.lines source.toList).length := by
  obtain ⟨line, statement, ⟨-, text, htext, -⟩, -, hnumber⟩ := h
  obtain ⟨hline, -⟩ := List.getElem?_eq_some_iff.mp htext
  omega

/-- All that is reached from the start of a source text runs its program. -/
theorem program_of_reaches {source : String} {calls : List HostCall} {last : Machine}
    (h : (start source).Reaches calls last) : last.program = Program.ofSource source :=
  h.keeps (fun machine => machine.program = Program.ofSource source)
    (fun _ _ hleads hprogram => (program_of_leads hleads).trans hprogram) rfl

theorem At.executes {frame : Frame} {below : List Frame} {source : String} {line : Nat}
    {found : Line} (hat : machine.At frame below line)
    (hprogram : machine.program = Program.ofSource source)
    (hfound : machine.program[line]? = some found) :
    machine.Executes source line found.statement := by
  rw [hprogram, Program.ofSource, List.getElem?_map] at hfound
  obtain ⟨text, htext, rfl⟩ := Option.map_eq_some_iff.mp hfound
  exact ⟨⟨frame, below, hat⟩, text, htext, rfl⟩

end Machine

/-! ## Observed runs -/

/-- What there is to see of a run: its result, the machine it leaves to the
interpreter, the calls it made, and its host afterwards. -/
structure Observation (σ : Type) where
  result : Except Fault Unit
  machine : Machine
  calls : List HostCall
  host : σ

namespace Interpreter

variable {σ : Type} [Host (StateM σ)]

/-- Runs a program after another run, on a host of which everything is seen. -/
def observe (source : String) (previous : Machine) (host : σ) : Observation σ :=
  let execution : Interpreter (StateT Transcript (StateM σ)) (Except Fault Unit) := execute source
  let (((result, machine), transcript), host) := execution previous #[] host
  ⟨result, machine, transcript.toList, host⟩

variable {source : String} {host host' : σ} {last : Machine} {calls : List HostCall}

/-- A run that succeeds shows the calls of its steps. -/
theorem observe_of_ok (previous : Machine)
    (h : ((Machine.start source).run : StateT Transcript (StateM σ) Outcome) #[] host =
      (((last, .ok ()), calls.toArray), host')) :
    observe source previous host = ⟨.ok (), last, calls, host'⟩ := by
  unfold observe execute
  simp only [bind, StateT.bind, liftM, monadLift, MonadLift.monadLift, StateT.lift, h]
  rfl

/-- The calls that report a fault. -/
def reportCalls (fault : Fault) : List HostCall :=
  [.mark (fault.line - 1),
    .append ("❌ " ++ toString fault.line ++ "번째 줄에서 오류가 있어요" ++ "\n   " ++
      fault.message ++ "\n")]

/-- A run that fails shows the calls of its steps and those of the report. -/
theorem observe_of_error (previous : Machine) {fault : Fault}
    (h : ((Machine.start source).run : StateT Transcript (StateM σ) Outcome) #[] host =
      (((last, .error fault), calls.toArray), host')) :
    ∃ host'', observe source previous host =
      ⟨.error fault, last, calls ++ reportCalls fault, host''⟩ := by
  let marked := (Host.markErrorLine (fault.line - 1) : StateM σ Unit) host'
  let told := (Host.append ((Diagnostic.ofFault fault).render ++ "\n") : StateM σ Unit) marked.2
  refine ⟨told.2, ?_⟩
  have hcalls : ((calls.toArray.push (.mark (fault.line - 1))).push
      (.append ((Diagnostic.ofFault fault).render ++ "\n"))).toList =
        calls ++ reportCalls fault := by
    simp [reportCalls, Diagnostic.render, Diagnostic.banner, Diagnostic.ofFault]
  rw [← hcalls]
  unfold observe execute
  simp only [bind, StateT.bind, liftM, monadLift, MonadLift.monadLift, StateT.lift, h]
  rfl

/-- **Failing runs are anchored and reported once.**  Whatever a run did, it did by
the steps to some last machine, which marked nothing and appended what the program
prints.  If it succeeds, that was all.  If it fails, the last machine executes the
statement at fault, the fault names its line, the variables are left as they were
then, and the report is all that follows. -/
theorem observe_anchored (source : String) (previous : Machine) (host : σ) :
    let run := observe source previous host
    run.machine.depth = 0 ∧
      ∃ calls last, (Machine.start source).Reaches calls last ∧
        run.machine.store = last.store ∧ (∀ line, .mark line ∉ calls) ∧
        (∀ front text later, calls = front ++ .append text :: later →
          ∃ between, (Machine.start source).Reaches front between ∧ between.Prints source text) ∧
        match run.result with
        | .ok () => last.step = .finished ∧ run.calls = calls
        | .error fault =>
          last.step = .failed fault ∧ last.StopsAt source fault ∧
            (1 ≤ fault.line ∧ fault.line ≤ (Text.lines source.toList).length) ∧
            run.calls = calls ++ reportCalls fault := by
  obtain ⟨calls, last, outcome, host', hreaches, hends, hrun⟩ :=
    (Machine.start source).run_reaches #[] host
  rw [Array.empty_append] at hrun
  have hprogram := Machine.program_of_reaches hreaches
  have hprints : ∀ front text later, calls = front ++ .append text :: later →
      ∃ between, (Machine.start source).Reaches front between ∧ between.Prints source text := by
    rintro front text later rfl
    obtain ⟨between, next, hfront, hstep, -⟩ := hreaches.exists_append
    obtain ⟨frame, below, line, found, expression, value, hat, hfound, hstatement, hvalue, htext⟩ :=
      Machine.prints_of_step hstep
    have hexecutes := hat.executes (Machine.program_of_reaches hfront) hfound
    exact ⟨between, hfront, line, expression, value, hstatement ▸ hexecutes, hvalue, htext⟩
  cases hends with
  | finished hstep =>
    rw [observe_of_ok previous hrun]
    have hdepth : last.depth = 0 := congrArg List.length (Machine.stack_of_finished hstep)
    exact ⟨hdepth, calls, last, hreaches, rfl, hreaches.mark_not_mem, hprints, hstep, rfl⟩
  | @failed fault hstep =>
    obtain ⟨host'', hobserve⟩ := observe_of_error previous hrun
    rw [hobserve]
    obtain ⟨frame, below, line, found, hat, hfound, hfails, hnumber⟩ :=
      Machine.fails_of_step hstep
    have hstops : last.StopsAt source fault :=
      ⟨line, found.statement, hat.executes hprogram hfound, hfails, hnumber⟩
    exact ⟨rfl, calls, last, hreaches, rfl, hreaches.mark_not_mem, hprints, hstep, hstops,
      hstops.line_bounds, rfl⟩

end Interpreter

end KoreanScript
