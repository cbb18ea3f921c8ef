import KoreanScript.Host.Buffer
import KoreanScript.Proofs.Hosts

/-!
# Many runs on one interpreter

An interpreter can be used for one program after the other, on one buffer that goes
on collecting output and serving lines.  None of the runs makes a difference to the
others, whether it failed or not, but for the lines that it has used up.  Each run
gives what it gives on its own, with a new interpreter and a new buffer that has the
lines left, one fewer for each request so far; and the buffer that the runs share has
in the end, one after the other, what the buffers of their own have.

A shared buffer and a new one are related by what the shared one had at the start of
the run.  Each host call keeps the relation, so the run does; and as nothing is left of
a machine when the next run starts, the runs can be put together one by one.
-/

set_option autoImplicit false

namespace KoreanScript

/-! ## Calls of an interpreter -/

/-- The calls of an interpreter that run a program. -/
inductive Call where
  | execute (source : String)
  | executeWithDiagnostic (source : String)

/-- What can be seen of an interpreter after a call: the answer, the variables, and the
number of blocks in execution. -/
structure Ending where
  answer : Except Fault Unit ⊕ Except Diagnostic Unit
  store : Store
  depth : Nat

section Calls

variable {m : Type → Type} [Monad m] [Host m]

/-- The answer of a call. -/
def Call.answer : Call → Interpreter m (Except Fault Unit ⊕ Except Diagnostic Unit)
  | .execute source => return .inl (← Interpreter.execute source)
  | .executeWithDiagnostic source => return .inr (← Interpreter.executeWithDiagnostic source)

/-- Makes a call and looks at the interpreter. -/
def Call.perform (call : Call) : Interpreter m Ending := do
  let answer ← call.answer
  let store ← Interpreter.store
  let depth ← Interpreter.depth
  return ⟨answer, store, depth⟩

/-- Makes some calls, one after the other. -/
def session (calls : List Call) : Interpreter m (List Ending) :=
  calls.mapM Call.perform

end Calls

/-! ## Calls on their own -/

/-- The prompt of a request. -/
def HostCall.prompt? : HostCall → Option String
  | .request prompt _ => some prompt
  | .append _ | .mark _ => none

/-- The prompts of the requests among some calls. -/
def prompted (calls : List HostCall) : List String :=
  calls.filterMap HostCall.prompt?

theorem prompted_push (transcript : Transcript) (call : HostCall) :
    prompted (transcript.push call).toList =
      prompted transcript.toList ++ call.prompt?.toList := by
  rw [prompted, Array.toList_push, List.filterMap_append]
  cases call <;> rfl

/-- What there is to see of a call on its own. -/
structure Solo where
  ending : Ending
  calls : List HostCall
  host : Buffer

/-- Makes a call on a new interpreter with a new buffer. -/
def Call.alone (call : Call) (inputs : List String) : Solo :=
  let performance : Interpreter (StateT Transcript (StateM Buffer)) Ending := call.perform
  let (((ending, _), transcript), buffer) := performance .idle #[] (Buffer.ofInputs inputs)
  ⟨ending, transcript.toList, buffer⟩

/-- Some calls, each on its own.  Of the lines of input, one is dropped for each request of
the calls before. -/
def solos : List Call → List String → List Solo
  | [], _ => []
  | call :: others, inputs =>
    let solo := call.alone inputs
    solo :: solos others (inputs.drop (prompted solo.calls).length)

/-! ## Shared buffers and new ones -/

namespace Buffer

/-- A shared buffer in the same run as a new one: since its start, it has served the same
lines, and it has collected the same after what it had. -/
structure Continues (start shared : Buffer) (transcript : Transcript) (new : Buffer) : Prop where
  inputs : shared.inputs = new.inputs
  output : shared.output = start.output ++ new.output
  prompts : shared.prompts.toList = start.prompts.toList ++ new.prompts.toList
  drawn : new.inputs = start.inputs.drop (prompted transcript.toList).length

theorem continues_ofInputs (start : Buffer) :
    start.Continues start #[] (ofInputs start.inputs) where
  inputs := rfl
  output := String.append_empty.symm
  prompts := (List.append_nil _).symm
  drawn := rfl

variable {start shared new : Buffer} {transcript : Transcript}

/-- A request takes a line from both. -/
theorem Continues.requestLine (h : start.Continues shared transcript new) (prompt : String) :
    (shared.requestLine prompt).1 = (new.requestLine prompt).1 ∧
      start.Continues (shared.requestLine prompt).2
        (transcript.push (.request prompt (new.requestLine prompt).1))
        (new.requestLine prompt).2 := by
  rw [shared.requestLine_eq, new.requestLine_eq]
  refine ⟨congrArg (List.headD · "") h.inputs, congrArg List.tail h.inputs, h.output, ?_, ?_⟩
  · rw [Array.toList_push, Array.toList_push, h.prompts, List.append_assoc]
  · change new.inputs.tail = _
    rw [prompted_push, List.length_append, h.drawn, List.tail_drop]
    rfl

/-- What is not a request takes none. -/
theorem Continues.drawn_push (h : start.Continues shared transcript new) {call : HostCall}
    (hcall : call.prompt? = none) :
    new.inputs = start.inputs.drop (prompted (transcript.push call).toList).length := by
  rw [prompted_push, hcall, Option.toList_none, List.append_nil, h.drawn]

/-- **A shared buffer and a new one answer alike.** -/
theorem answersAlike (start : Buffer) : AnswersAlike start.Continues where
  append text := by
    intro shared transcript new h
    refine ⟨rfl, h.inputs, ?_, h.prompts, h.drawn_push rfl⟩
    change shared.output ++ text = start.output ++ (new.output ++ text)
    rw [h.output, String.append_assoc]
  requestLine prompt := fun _ _ _ h => h.requestLine prompt
  markErrorLine line := fun _ _ _ h => ⟨rfl, h.inputs, h.output, h.prompts, h.drawn_push rfl⟩

end Buffer

/-! ## Sessions -/

namespace AnswersAlike

variable {σ τ : Type} [Host (StateM σ)] [Host (StateM τ)] {Related : σ → Transcript → τ → Prop}

theorem answer (h : AnswersAlike Related) (call : Call) (previous other : Machine) :
    Follows Related (call.answer previous) (call.answer other) := by
  cases call with
  | execute source =>
    refine (h.execute source previous other).bindState fun result machine => ?_
    exact Follows.pure (Sum.inl result, machine)
  | executeWithDiagnostic source =>
    have hdiagnostic : Follows Related (Interpreter.executeWithDiagnostic source previous)
        (Interpreter.executeWithDiagnostic source other) := by
      refine (h.execute source previous other).bindState fun result machine => ?_
      exact Follows.pure (result.mapError Diagnostic.ofFault, machine)
    refine hdiagnostic.bindState fun result machine => ?_
    exact Follows.pure (Sum.inr result, machine)

/-- What is seen after a call does not depend on what ran before. -/
theorem perform (h : AnswersAlike Related) (call : Call) (previous other : Machine) :
    Follows Related (call.perform previous) (call.perform other) := by
  refine (h.answer call previous other).bindState fun answer machine => ?_
  exact Follows.pure (Ending.mk answer machine.store machine.depth, machine)

end AnswersAlike

/-- A call on a used interpreter ends as on its own, and goes on with the buffer. -/
theorem Call.perform_eq (call : Call) (previous : Machine) (buffer : Buffer) :
    let solo := call.alone buffer.inputs
    ∃ machine shared, (call.perform : Interpreter (StateM Buffer) Ending) previous buffer =
      ((solo.ending, machine), shared) ∧ buffer.Continues shared solo.calls.toArray solo.host := by
  obtain ⟨hended, hshared⟩ := buffer.answersAlike.perform call previous .idle buffer #[] _
    buffer.continues_ofInputs
  exact ⟨_, _, Prod.ext hended rfl, hshared⟩

theorem session_cons (call : Call) (others : List Call) {previous machine : Machine}
    {buffer shared : Buffer} {ending : Ending}
    (h : (call.perform : Interpreter (StateM Buffer) Ending) previous buffer =
      ((ending, machine), shared)) :
    (session (call :: others) : Interpreter (StateM Buffer) (List Ending)) previous buffer =
      let rest := (session others : Interpreter (StateM Buffer) (List Ending)) machine shared
      ((ending :: rest.1.1, rest.1.2), rest.2) := by
  rw [session, List.mapM_cons]
  simp only [bind, StateT.bind, h]
  rfl

/-- **Runs on one interpreter do not interfere.**  Whatever ran before and whatever the
buffer has, the calls of a session end as they do on their own, with the lines that the
requests of the calls before have left.  In the end the shared buffer has, after what it
had, the output and the prompts of all of them in order, and one line is gone for each
request. -/
theorem session_eq_solos (calls : List Call) (previous : Machine) (buffer : Buffer) :
    let own := solos calls buffer.inputs
    let ended := (session calls : Interpreter (StateM Buffer) (List Ending)) previous buffer
    ended.1.1 = own.map (·.ending) ∧
      ended.2.output = buffer.output ++ String.join (own.map (·.host.output)) ∧
      ended.2.prompts.toList = buffer.prompts.toList ++ own.flatMap (·.host.prompts.toList) ∧
      ended.2.inputs = buffer.inputs.drop (own.flatMap fun solo => prompted solo.calls).length := by
  induction calls generalizing previous buffer with
  | nil =>
    exact ⟨rfl, String.append_empty.symm, (List.append_nil _).symm, rfl⟩
  | cons call others ih =>
    obtain ⟨machine, shared, hperform, hshared⟩ := call.perform_eq previous buffer
    rw [session_cons call others hperform]
    obtain ⟨hendings, houtput, hprompts, hinputs⟩ := ih machine shared
    rw [hshared.inputs, hshared.drawn] at hendings houtput hprompts hinputs
    refine ⟨congrArg (_ :: ·) hendings, ?_, ?_, ?_⟩
    · refine houtput.trans ?_
      rw [hshared.output, solos, List.map_cons, String.join_cons, String.append_assoc]
    · refine hprompts.trans ?_
      rw [hshared.prompts, solos, List.flatMap_cons, List.append_assoc]
    · refine hinputs.trans ?_
      rw [solos, List.flatMap_cons, List.length_append, List.drop_drop]

end KoreanScript
