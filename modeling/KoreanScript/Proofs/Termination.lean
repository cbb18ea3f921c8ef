import KoreanScript.Proofs.Nesting

/-!
# Every run ends

The weight of a machine bounds the steps that it can still take, whatever a host
replies: the machines of a path get lighter one after the other.  So a run from the
start of a source text ends, and how many steps it takes at most depends on the
number of lines alone.

Line by line this comes from what a header may do.  It goes on further down, and
the body that it enters lies between the header and the end of its block.  It
enters the body from its own frame, and each time one of the executions that it
asked for is used up.
-/

set_option autoImplicit false

namespace KoreanScript
namespace Machine

/-! ## Paths -/

/-- Machines of which each leads to the one after it. -/
def IsPath (path : List Machine) : Prop :=
  path.IsChain fun machine next => Leads machine.step next

/-- **A path has no more steps than its first machine weighs.** -/
theorem length_le_weight {machine : Machine} {path : List Machine} (h : IsPath (machine :: path)) :
    path.length ≤ machine.weight := by
  induction path generalizing machine with
  | nil => exact Nat.zero_le _
  | cons next rest ih =>
    obtain ⟨hleads, hrest⟩ := List.isChain_cons_cons.mp h
    exact (Nat.succ_le_succ (ih hrest)).trans (weight_lt_of_leads hleads)

/-- The weight at the start depends on the number of lines only. -/
theorem weight_start (source : String) :
    (start source).weight = passWeight (Text.lines source.toList).length := by
  have hlines : (Program.ofSource source).length = (Text.lines source.toList).length := by
    rw [Program.ofSource, List.length_map]
  rw [weight, start, stackWeight, stackWeight, Frame.weight_ofBlock, Block.length, hlines]
  rfl

/-! ## How often a body is entered -/

/-- A machine in which the header on top of some frames is still at work. -/
def Repeats (machine : Machine) (below : List Frame) : Prop :=
  ∃ above frame repetition, machine.stack = above ++ frame :: below ∧
    frame.repetition = some repetition

/-- The frame on top of the others is then that header's. -/
theorem Repeats.repetition {machine : Machine} {frame : Frame} {below : List Frame}
    (h : machine.Repeats below) (hstack : machine.stack = frame :: below) :
    ∃ repetition, frame.repetition = some repetition := by
  obtain ⟨above, waiting, repetition, hwaiting, hrepetition⟩ := h
  have hframes := hstack.symm.trans hwaiting
  have habove : above = [] := by
    have hlength := congrArg List.length hframes
    simp only [List.length_append, List.length_cons] at hlength
    exact List.eq_nil_of_length_eq_zero (by omega)
  subst habove
  obtain ⟨rfl, -⟩ := List.cons.inj hframes
  exact ⟨repetition, hrepetition⟩

/-- How often a path enters a block from `depth` blocks in execution. -/
def entries (depth : Nat) : List Machine → Nat
  | first :: second :: rest =>
    (if first.depth = depth ∧ second.depth = depth + 1 then 1 else 0) +
      entries depth (second :: rest)
  | _ => 0

theorem entries_le_succ (depth : Nat) (first second : Machine) (rest : List Machine) :
    entries depth (first :: second :: rest) ≤ entries depth (second :: rest) + 1 := by
  rw [entries]
  split <;> omega

theorem entries_of_ne {depth : Nat} {first : Machine} (h : first.depth ≠ depth) (second : Machine)
    (rest : List Machine) :
    entries depth (first :: second :: rest) = entries depth (second :: rest) := by
  rw [entries, if_neg (fun hdepths => h hdepths.1), Nat.zero_add]

/-- **A header enters its body at most as often as it has executions left.** -/
theorem entries_le {machine : Machine} {above below : List Frame} {frame : Frame}
    {repetition : Repetition} {path : List Machine} (hstack : machine.stack = above ++ frame :: below)
    (hrepetition : frame.repetition = some repetition) (hpath : IsPath (machine :: path))
    (hrepeats : ∀ later ∈ path, later.Repeats below) :
    entries (below.length + 1) (machine :: path) ≤ repetition.times := by
  induction path generalizing machine above frame repetition with
  | nil => exact Nat.zero_le _
  | cons next rest ih =>
    obtain ⟨hleads, hpath⟩ := List.isChain_cons_cons.mp hpath
    obtain ⟨hnext, hrest⟩ := List.forall_mem_cons.mp hrepeats
    cases above with
    | cons top above =>
      -- the header waits for what is above it
      obtain ⟨others, hothers⟩ := stack_of_leads hleads hstack
      have hdepth : machine.depth ≠ below.length + 1 := by
        simp only [depth, hstack, List.length_append, List.length_cons]
        omega
      rw [entries_of_ne hdepth]
      exact ih hothers hrepetition hpath hrest
    | nil =>
      cases moves_of_leads hleads with
      | again h hagain =>
        obtain ⟨rfl, rfl⟩ := List.cons.inj (h.symm.trans hstack)
        obtain rfl := Option.some.inj (hagain.symm.trans hrepetition)
        refine (entries_le_succ _ _ _ _).trans (Nat.succ_le_succ ?_)
        exact @ih _ [_] _ _ rfl rfl hpath hrest
      | resume h =>
        obtain ⟨rfl, rfl⟩ := List.cons.inj (h.symm.trans hstack)
        obtain ⟨left, hleft⟩ := hnext.repetition rfl
        cases hleft
      | leave h hnone =>
        obtain ⟨rfl, rfl⟩ := List.cons.inj (h.symm.trans hstack)
        rw [hnone] at hrepetition
        cases hrepetition
      | pass store hat =>
        obtain ⟨rfl, rfl⟩ := List.cons.inj (hat.stack.symm.trans hstack)
        rw [hat.repetition] at hrepetition
        cases hrepetition
      | enter hat =>
        obtain ⟨rfl, rfl⟩ := List.cons.inj (hat.stack.symm.trans hstack)
        rw [hat.repetition] at hrepetition
        cases hrepetition

/-! ## Every run ends -/

variable {machine : Machine} {frame : Frame} {below : List Frame} {line : Nat}

/-- The line in execution belongs to the program, and so does the block it is in. -/
theorem IsNested.line_lt (h : machine.IsNested) (hat : machine.At frame below line) :
    line < frame.context.block.stop ∧ frame.context.block.stop ≤ machine.program.length := by
  rw [IsNested, hat.stack] at h
  exact ⟨(Context.currentLine?_eq_some_iff.mp hat.current).2, h.stop_le⟩

/-- How often the statement of a header may have its body executed: as often as the
count of a loop says, and otherwise once. -/
def Allows (statement : Statement) (times : Nat) : Prop :=
  (∃ condition, statement = .conditional condition ∧ times ≤ 1) ∨
    ∃ count, statement = .loop count ∧ Number.count? count = some times ∧ times < Number.countLimit

/-- A header on `line` that enters a body, in the block of the frame on top of others.
The body has only lines between the header and the end of its block, and fewer than
that block has.  While the header is at work, the body is entered no more often than
its statement allows. -/
structure BoundedEntry (machine : Machine) (frame : Frame) (below : List Frame) (line : Nat)
    (body : Block) (times : Nat) : Prop where
  follows : body.Follows line frame.context.block.stop
  shorter : body.length < frame.context.length
  allowed : ∃ found, machine.program[line]? = some found ∧ Allows found.statement times
  entries_le : ∀ entered path, Leads machine.step entered → IsPath (entered :: path) →
    (∀ later ∈ path, later.Repeats below) → entries (below.length + 1) (entered :: path) ≤ times

/-- A header that enters a body has its statement's leave for it. -/
theorem allowed_of_action {program : Program} {store : Store} {limit : Nat} {body : Block}
    {times next : Nat} (h : program.action store limit line = .ok (.enter body times next)) :
    ∃ found, program[line]? = some found ∧ Allows found.statement times := by
  obtain ⟨found, hfound, ⟨condition, holds, hstatement, -, hbranch⟩ |
    ⟨count, hstatement, hcount, -⟩⟩ := Program.header_of_action h
  · refine ⟨found, hfound, .inl ⟨condition, hstatement, ?_⟩⟩
    unfold Program.branch at hbranch
    simp only at hbranch
    split at hbranch
    · obtain ⟨-, rfl, -⟩ := Action.enter.inj hbranch
      split <;> decide
    · obtain ⟨-, rfl, -⟩ := Action.enter.inj hbranch
      exact Nat.le_refl 1
  · exact ⟨found, hfound, .inr ⟨count, hstatement, hcount, Number.count?_lt hcount⟩⟩

/-- **What a header enters is bounded.** -/
theorem At.boundedEntry {body : Block} {times next : Nat} (hat : machine.At frame below line)
    (haction : machine.program.action machine.store frame.context.block.stop line =
      .ok (.enter body times next)) : machine.BoundedEntry frame below line body times := by
  obtain ⟨hline, hstop⟩ := Context.currentLine?_eq_some_iff.mp hat.current
  refine ⟨Program.action_follows hstop haction, ?_, allowed_of_action haction, ?_⟩
  · have hbody := (Program.action_within hstop haction).body_lt body times next rfl
    simp only [Context.length, Block.length] at hbody ⊢
    omega
  · intro entered path hleads hpath hrepeats
    rw [hat.step_of_ok haction] at hleads
    cases hleads
    exact @entries_le _ [] _ _ _ _ rfl rfl hpath hrepeats

/-- **Every run ends.**  Whatever the replies, a run from the start of a source text takes
no more steps than a bound for its number of lines, and with a host it reaches a machine
that takes no step.  On its way it executes lines of the program only, in blocks that
end within the program.  A line that succeeds goes on further down, and what it enters
is bounded. -/
theorem run_terminates {σ : Type} [Host (StateM σ)] (source : String) :
    (∀ path, IsPath (start source :: path) →
        path.length ≤ passWeight (Text.lines source.toList).length) ∧
      (∀ (transcript : Transcript) (host : σ), ∃ calls last outcome host',
        (start source).Reaches calls last ∧ Ends last outcome ∧
          ((start source).run : StateT Transcript (StateM σ) Outcome) transcript host =
            ((outcome, transcript ++ calls.toArray), host')) ∧
      ∀ calls machine, (start source).Reaches calls machine →
        ∀ frame below line, machine.At frame below line →
          (line < frame.context.block.stop ∧
            frame.context.block.stop ≤ (Text.lines source.toList).length) ∧
          ∀ action, machine.program.action machine.store frame.context.block.stop line =
              .ok action →
            line < action.next ∧
              ∀ body times next, action = .enter body times next →
                machine.BoundedEntry frame below line body times := by
  refine ⟨?_, fun transcript host => (start source).run_reaches transcript host, ?_⟩
  · intro path hpath
    rw [← weight_start]
    exact length_le_weight hpath
  · intro calls machine hreaches frame below line hat
    obtain ⟨hline, hstop⟩ := (isNested_of_reaches hreaches).line_lt hat
    rw [program_of_reaches hreaches, Program.ofSource, List.length_map] at hstop
    refine ⟨⟨hline, hstop⟩, fun action haction => ?_⟩
    refine ⟨(Program.action_within hline haction).next_gt, ?_⟩
    rintro body times next rfl
    exact hat.boundedEntry haction

/-- The inner of two loops enters its body once. -/
theorem run_terminates_loops :
    let machine := loopsAt [.ofBlock ⟨1, 3⟩, outerLoop]
    let entered := loopsAt [innerLoop 1, outerLoop]
    let path := [loopsAt [.ofBlock ⟨2, 2⟩, innerLoop 0, outerLoop], loopsAt [innerLoop 0, outerLoop]]
    (start nestedLoops).Reaches [] machine ∧ machine.At (.ofBlock ⟨1, 3⟩) [outerLoop] 1 ∧
      Leads machine.step entered ∧ IsPath (entered :: path) ∧
        (∀ later ∈ path, later.Repeats [outerLoop]) ∧
          machine.BoundedEntry (.ofBlock ⟨1, 3⟩) [outerLoop] 1 ⟨2, 2⟩ 1 ∧
            entries 2 (entered :: path) ≤ 1 := by
  intro machine entered path
  have hreaches : (start nestedLoops).Reaches [] machine :=
    .silent rfl (.silent rfl (.refl _))
  have hat : machine.At (.ofBlock ⟨1, 3⟩) [outerLoop] 1 := ⟨rfl, rfl, rfl⟩
  have hleads : Leads machine.step entered := .silent entered
  have hpath : IsPath (entered :: path) :=
    .cons_cons (.silent _) (.cons_cons (.silent _) (.singleton _))
  have hrepeats : ∀ later ∈ path, later.Repeats [outerLoop] :=
    List.forall_mem_cons.mpr ⟨⟨[_], _, _, rfl, rfl⟩,
      List.forall_mem_singleton.mpr ⟨[], _, _, rfl, rfl⟩⟩
  obtain ⟨-, -, hlines⟩ := run_terminates (σ := Buffer) nestedLoops
  obtain ⟨-, hactions⟩ := hlines [] machine hreaches _ _ 1 hat
  obtain ⟨-, hentries⟩ := hactions (.enter ⟨2, 2⟩ 1 3) rfl
  have hbounded := hentries ⟨2, 2⟩ 1 3 rfl
  exact ⟨hreaches, hat, hleads, hpath, hrepeats, hbounded,
    hbounded.entries_le entered path hleads hpath hrepeats⟩

end Machine
end KoreanScript
