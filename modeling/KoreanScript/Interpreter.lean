import KoreanScript.Diagnostic
import KoreanScript.Machine

/-!
# Running programs

A run takes steps until the machine has finished or failed, and performs with the
host whatever the steps ask for.  The interpreter keeps the machine of its last
run, so that variables can be looked at afterwards.  Each run starts from nothing;
a run that fails drops the blocks in execution, keeps the store, and is reported
to the host.
-/

set_option autoImplicit false

namespace KoreanScript

variable {m : Type → Type} [Monad m] [Host m]

/-- How a run ends: the last state of the machine, and the fault if there is one. -/
abbrev Outcome := Machine × Except Fault Unit

/-- **Takes steps to the end of a run.** -/
@[specialize]
def Machine.run (machine : Machine) : m Outcome :=
  match _hstep : machine.step with
  | .silent next => next.run
  | .append text next => do
    Host.append text
    next.run
  | .request prompt next => do
    let reply ← Host.requestLine prompt
    (next reply).run
  | .finished => pure (machine, .ok ())
  | .failed fault => pure (machine.unwound, .error fault)
termination_by machine.weight
decreasing_by
  · exact Machine.weight_lt_of_leads (_hstep ▸ .silent next)
  · exact Machine.weight_lt_of_leads (_hstep ▸ .append text next)
  · exact Machine.weight_lt_of_leads (_hstep ▸ .request prompt next reply)

/-- An interpreter over a host: what it keeps between runs is the machine of the
last one. -/
abbrev Interpreter (m : Type → Type) := StateT Machine m

namespace Interpreter

/-- Runs a program and reports the fault of a run that fails. -/
def execute (source : String) : Interpreter m (Except Fault Unit) := do
  let (machine, result) ← ((Machine.start source).run : m Outcome)
  set machine
  match result with
  | .ok () => return .ok ()
  | .error fault =>
    let _ ← (report fault : m Diagnostic)
    return .error fault

/-- Runs a program; a run that fails answers with what the user was shown. -/
def executeWithDiagnostic (source : String) : Interpreter m (Except Diagnostic Unit) := do
  return (← execute source).mapError Diagnostic.ofFault

/-- The variables of the last run. -/
def store : Interpreter m Store := do
  return (← get).store

/-- The number of blocks in execution. -/
def depth : Interpreter m Nat := do
  return (← get).depth

end Interpreter

/-- Runs a program on its own and answers with its fault, if there is one. -/
def runScript (source : String) : m (Except Fault Unit) :=
  StateT.run' (Interpreter.execute source) .idle

end KoreanScript
