import KoreanScript.Proofs.Anchoring

/-!
# Hosts that answer alike

All that a program learns from its host are the lines that it asks for.  Two hosts
that give the same lines therefore serve the same run, whatever they make of the
texts that they take.  The second host keeps a transcript here, so that what the
first has made of a run can be told from the calls.

A relation between the states of the two hosts is kept by every run as soon as each
single host call keeps it and is answered alike.  The run lemma is an induction on
the weight of the machine, which every step decreases; all that surrounds a run is
put together from binds.
-/

set_option autoImplicit false

namespace KoreanScript

variable {σ τ : Type} {Related : σ → Transcript → τ → Prop}

/-! ## Computations that follow each other -/

/-- From related states, two computations give the same value and lead to related states. -/
def Follows (Related : σ → Transcript → τ → Prop) {α : Type} (first : StateM σ α)
    (second : StateT Transcript (StateM τ) α) : Prop :=
  ∀ host transcript other, Related host transcript other →
    (first host).1 = (second transcript other).1.1 ∧
      Related (first host).2 (second transcript other).1.2 (second transcript other).2

namespace Follows

variable {α β : Type}

theorem pure (value : α) : Follows Related (Pure.pure value) (Pure.pure value) :=
  fun _ _ _ hrelated => ⟨rfl, hrelated⟩

theorem bind {first : StateM σ α} {second : StateT Transcript (StateM τ) α}
    {firstRest : α → StateM σ β} {secondRest : α → StateT Transcript (StateM τ) β}
    (h : Follows Related first second)
    (hrest : ∀ value, Follows Related (firstRest value) (secondRest value)) :
    Follows Related (first >>= firstRest) (second >>= secondRest) := by
  intro host transcript other hrelated
  obtain ⟨hvalue, hafter⟩ := h host transcript other hrelated
  have hfollows := hrest (second transcript other).1.1 _ _ _ hafter
  change (firstRest (first host).1 (first host).2).1 = _ ∧
    Related (firstRest (first host).1 (first host).2).2 _ _
  rw [hvalue]
  exact hfollows

/-- The same for what an interpreter does from two machines, once they have become one. -/
theorem bindState {first : Interpreter (StateM σ) α}
    {second : Interpreter (StateT Transcript (StateM τ)) α}
    {firstRest : α → Interpreter (StateM σ) β}
    {secondRest : α → Interpreter (StateT Transcript (StateM τ)) β} {previous other : Machine}
    (h : Follows Related (first previous) (second other))
    (hrest : ∀ value machine,
      Follows Related (firstRest value machine) (secondRest value machine)) :
    Follows Related ((first >>= firstRest) previous) ((second >>= secondRest) other) := by
  change Follows Related (first previous >>= fun ended => firstRest ended.1 ended.2)
    (second other >>= fun ended => secondRest ended.1 ended.2)
  exact h.bind fun (value, machine) => hrest value machine

end Follows

/-! ## A run forgets the one before -/

namespace Interpreter

variable {m : Type → Type} [Monad m] [LawfulMonad m] [Host m]

/-- What follows the end of a run: the report of its fault, if there is one. -/
def conclude : Outcome → m (Except Fault Unit × Machine)
  | (machine, .ok ()) => pure (.ok (), machine)
  | (machine, .error fault) => do
    let _ ← report fault
    pure (.error fault, machine)

/-- **A run starts from nothing**: what an interpreter kept of the last one is not read. -/
theorem execute_apply (source : String) (previous : Machine) :
    (execute source : Interpreter m (Except Fault Unit)) previous =
      (Machine.start source).run >>= conclude := by
  simp only [execute, bind, StateT.bind, liftM, monadLift, MonadLift.monadLift, StateT.lift,
    bind_assoc, pure_bind]
  refine bind_congr fun ended => ?_
  obtain ⟨machine, result⟩ := ended
  -- the machine of this run takes the place of the one before
  refine (pure_bind _ _).trans ?_
  cases result with
  | ok value => rfl
  | error fault =>
    simp only [StateT.bind, StateT.lift, bind_assoc, pure_bind]
    rfl

end Interpreter

/-! ## Hosts -/

/-- Host calls that keep a relation and are answered alike. -/
structure AnswersAlike [Host (StateM σ)] [Host (StateM τ)] (Related : σ → Transcript → τ → Prop) :
    Prop where
  append (text : String) : Follows Related (Host.append text) (Host.append text)
  requestLine (prompt : String) :
    Follows Related (Host.requestLine prompt) (Host.requestLine prompt)
  markErrorLine (line : Nat) :
    Follows Related (Host.markErrorLine line) (Host.markErrorLine line)

namespace AnswersAlike

variable [Host (StateM σ)] [Host (StateM τ)]

/-- **A run on one host follows the run on the other.** -/
theorem run (h : AnswersAlike Related) (machine : Machine) :
    Follows Related machine.run machine.run := by
  induction hweight : machine.weight using Nat.strongRecOn generalizing machine with
  | ind weight ih =>
    subst hweight
    cases hstep : machine.step with
    | silent next =>
      rw [Machine.run_of_silent hstep, Machine.run_of_silent hstep]
      exact ih _ (Machine.weight_lt_of_leads (hstep ▸ .silent next)) next rfl
    | append text next =>
      rw [Machine.run_of_append hstep, Machine.run_of_append hstep]
      refine (h.append text).bind fun _ => ?_
      exact ih _ (Machine.weight_lt_of_leads (hstep ▸ .append text next)) next rfl
    | request prompt next =>
      rw [Machine.run_of_request hstep, Machine.run_of_request hstep]
      refine (h.requestLine prompt).bind fun reply => ?_
      exact ih _ (Machine.weight_lt_of_leads (hstep ▸ .request prompt next reply)) _ rfl
    | finished =>
      rw [Machine.run_of_finished hstep, Machine.run_of_finished hstep]
      exact .pure _
    | failed fault =>
      rw [Machine.run_of_failed hstep, Machine.run_of_failed hstep]
      exact .pure _

theorem report (h : AnswersAlike Related) (fault : Fault) :
    Follows Related (report fault) (report fault) :=
  (h.markErrorLine _).bind fun _ => (h.append _).bind fun _ => .pure _

/-- The same holds of a run with its report, whatever ran before on either side. -/
theorem execute (h : AnswersAlike Related) (source : String) (previous other : Machine) :
    Follows Related (Interpreter.execute source previous) (Interpreter.execute source other) := by
  rw [Interpreter.execute_apply, Interpreter.execute_apply]
  refine (h.run _).bind fun (machine, result) => ?_
  cases result with
  | ok value => exact .pure _
  | error fault => exact (h.report fault).bind fun _ => .pure _

/-- A run on the first host gives what is observed on the second. -/
theorem exists_execute_eq (h : AnswersAlike Related) (source : String) (previous other : Machine)
    {first : σ} {second : τ} (hrelated : Related first #[] second) :
    let run := Interpreter.observe source other second
    ∃ after, (Interpreter.execute source previous : StateM σ _) first =
      ((run.result, run.machine), after) ∧ Related after run.calls.toArray run.host := by
  obtain ⟨hended, hafter⟩ := h.execute source previous other first #[] second hrelated
  exact ⟨_, Prod.ext hended rfl, hafter⟩

end AnswersAlike

end KoreanScript
