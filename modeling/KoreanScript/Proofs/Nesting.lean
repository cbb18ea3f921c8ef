import Mathlib.Data.List.Chain
import KoreanScript.Proofs.Anchoring

/-!
# The nesting of blocks in execution

A header enters only lines that follow it and that still belong to its own block, or
a block without lines at the place where those would start.  So the blocks on the
stack lie one inside the other, each below the current line of the one it was
entered from, and the lowest of them is the whole program.  As the starts of
non-empty blocks go up with the stack, there are at most as many of them as
lines, and a block without lines can only be on top.

While a block is in execution nothing changes below it.  When it is over, the
contexts are therefore exactly those from which it was entered, and the block
underneath goes on where it was.
-/

set_option autoImplicit false

namespace KoreanScript

/-! ## Blocks that a header can enter -/

/-- A block that comes after a line and ends before a limit.  Without lines it may
start on that line. -/
structure Block.Follows (block : Block) (line limit : Nat) : Prop where
  start_le_stop : block.start ≤ block.stop
  stop_le : block.stop ≤ limit
  le_start : line ≤ block.start
  lt_start : block.start < block.stop → line < block.start

namespace Block.Follows

variable {block : Block} {line limit : Nat}

/-- What follows a line follows all lines before it. -/
theorem of_le {earlier : Nat} (h : block.Follows line limit) (hline : earlier ≤ line) :
    block.Follows earlier limit where
  start_le_stop := h.start_le_stop
  stop_le := h.stop_le
  le_start := hline.trans h.le_start
  lt_start hlines := hline.trans_lt (h.lt_start hlines)

end Block.Follows

namespace Program

variable {program : Program} {store : Store} {limit line : Nat}

/-- The body of a header follows it. -/
theorem body_follows (program : Program) {header : Nat} (h : header < limit) :
    (program.body header limit).Follows header limit := by
  have hstop := program.blockEnd_le (Nat.le_of_lt h)
  have hstart := program.le_blockEnd header limit
  refine ⟨?_, hstop, ?_, ?_⟩ <;> simp only [body] <;> omega

theorem branch_follows {holds : Bool} {body : Block} {times next : Nat} (hline : line < limit)
    (h : program.branch limit line holds = .enter body times next) : body.Follows line limit := by
  unfold branch at h
  simp only at h
  split at h
  · obtain ⟨rfl, -, -⟩ := Action.enter.inj h
    exact program.body_follows hline
  · next other hother =>
    obtain ⟨hafter, hlimit⟩ := elseHeader?_eq_some hother
    have hother : line ≤ other := by
      have := program.le_blockEnd line limit
      omega
    obtain ⟨rfl, -, -⟩ := Action.enter.inj h
    split
    · exact program.body_follows hline
    · exact (program.body_follows hlimit).of_le hother

/-- A line of the program that enters a body is the header of a conditional or of a loop. -/
theorem header_of_action {body : Block} {times next : Nat}
    (h : program.action store limit line = .ok (.enter body times next)) :
    ∃ found, program[line]? = some found ∧
      ((∃ condition holds, found.statement = .conditional condition ∧
          evaluateCondition store condition = .ok holds ∧
          program.branch limit line holds = .enter body times next) ∨
        ∃ count, found.statement = .loop count ∧ Number.count? count = some times ∧
          program.iterate limit line times = .enter body times next) := by
  rcases acts_of_action h with hnothing | ⟨found, hfound, hacts⟩
  · cases hnothing
  · refine ⟨found, hfound, ?_⟩
    generalize found.statement = statement at hacts
    cases hacts with
    | @conditional condition holds _ _ _ hholds hbranch =>
      exact .inl ⟨condition, holds, rfl, hholds, hbranch⟩
    | @loop count _ _ _ hcount hiterate => exact .inr ⟨count, rfl, hcount, hiterate⟩

/-- **A line enters only lines that follow it in its block.** -/
theorem action_follows {body : Block} {times next : Nat} (hline : line < limit)
    (h : program.action store limit line = .ok (.enter body times next)) :
    body.Follows line limit := by
  obtain ⟨found, -, ⟨condition, holds, -, -, hbranch⟩ | ⟨count, -, -, hiterate⟩⟩ :=
    header_of_action h
  · exact branch_follows hline hbranch
  · obtain ⟨rfl, -, -⟩ := Action.enter.inj hiterate
    exact program.body_follows hline

end Program

/-! ## Stacks of nested blocks -/

/-- A context with a current line that a block follows. -/
def Context.Encloses (outer : Context) (block : Block) : Prop :=
  ∃ line, outer.currentLine? = some line ∧ block.Follows line outer.block.stop

theorem Context.cursor_jumpTo_le (context : Context) (line : Nat) :
    (context.jumpTo line).cursor ≤ (context.jumpTo line).length := by
  simp only [jumpTo, length, Block.length]
  omega

/-- A frame whose cursor is in its block or at its end, and whose repetition is that of
a header on its current line. -/
structure Frame.Sound (frame : Frame) : Prop where
  cursor_le : frame.context.cursor ≤ frame.context.length
  encloses : ∀ repetition, frame.repetition = some repetition →
    frame.context.Encloses repetition.body

namespace Frame

theorem ofBlock_sound (block : Block) : (ofBlock block).Sound :=
  ⟨Nat.zero_le _, nofun⟩

theorem jumpTo_sound (frame : Frame) (line : Nat) : (frame.jumpTo line).Sound :=
  ⟨frame.context.cursor_jumpTo_le line, nofun⟩

end Frame

/-- Stacks in which every block but the lowest is enclosed by the context below it, and
the lowest is a program with some number of lines. -/
inductive Nested (lines : Nat) : List Frame → Prop where
  | nil : Nested lines []
  | whole {frame : Frame} (sound : frame.Sound) (block : frame.context.block = ⟨0, lines⟩) :
      Nested lines [frame]
  | inside {inner outer : Frame} {below : List Frame} (sound : inner.Sound)
      (encloses : outer.context.Encloses inner.context.block)
      (rest : Nested lines (outer :: below)) : Nested lines (inner :: outer :: below)

namespace Nested

variable {lines : Nat} {frame : Frame} {below : List Frame}

theorem sound (h : Nested lines (frame :: below)) : frame.Sound := by
  cases h with
  | whole sound _ => exact sound
  | inside sound _ _ => exact sound

theorem pop (h : Nested lines (frame :: below)) : Nested lines below := by
  cases h with
  | whole _ _ => exact .nil
  | inside _ _ rest => exact rest

/-- Another frame for the same block can take the place of the innermost. -/
theorem replace {other : Frame} (h : Nested lines (frame :: below)) (sound : other.Sound)
    (block : other.context.block = frame.context.block) : Nested lines (other :: below) := by
  cases h with
  | whole _ hblock => exact .whole sound (block.trans hblock)
  | inside _ encloses rest => exact .inside sound (block ▸ encloses) rest

theorem push {block : Block} (h : Nested lines (frame :: below))
    (encloses : frame.context.Encloses block) :
    Nested lines (Frame.ofBlock block :: frame :: below) :=
  .inside (Frame.ofBlock_sound block) encloses h

/-- No block ends beyond the program. -/
theorem stop_le (h : Nested lines (frame :: below)) : frame.context.block.stop ≤ lines := by
  generalize hstack : frame :: below = stack at h
  induction h generalizing frame below with
  | nil => cases hstack
  | whole _ hblock =>
    cases hstack
    rw [hblock]
  | inside _ encloses _ ih =>
    cases hstack
    obtain ⟨line, -, hfollows⟩ := encloses
    exact hfollows.stop_le.trans (ih rfl)

theorem cursor_le (h : Nested lines below) :
    ∀ context ∈ below.map Frame.context, context.cursor ≤ context.length := by
  induction h with
  | nil => simp
  | whole sound _ => simpa using sound.cursor_le
  | inside sound _ _ ih => exact List.forall_mem_cons.mpr ⟨sound.cursor_le, ih⟩

theorem isChain (h : Nested lines below) :
    (below.map Frame.context).IsChain fun inner outer => outer.Encloses inner.block := by
  induction h with
  | nil => exact .nil
  | whole => exact .singleton _
  | inside _ encloses _ ih => exact .cons_cons encloses ih

/-- A context with a current line has no more contexts below it than lines before its block. -/
theorem length_below_le (h : Nested lines (frame :: below)) {line : Nat}
    (hcurrent : frame.context.currentLine? = some line) :
    below.length ≤ frame.context.block.start := by
  generalize hstack : frame :: below = stack at h
  induction h generalizing frame below line with
  | nil => cases hstack
  | whole =>
    cases hstack
    exact Nat.zero_le _
  | inside _ encloses _ ih =>
    cases hstack
    obtain ⟨header, hheader, hfollows⟩ := encloses
    have houter := ih hheader rfl
    have hat := (Context.currentLine?_eq_some_iff.mp hheader).1
    have hinner := Context.currentLine?_eq_some_iff.mp hcurrent
    have hstart := hfollows.lt_start (by omega)
    rw [List.length_cons]
    omega

/-- **There are at most as many blocks in execution as lines, and one more.** -/
theorem length_le (h : Nested lines below) : below.length ≤ lines + 1 := by
  cases h with
  | nil => exact Nat.zero_le _
  | whole => simp
  | inside _ encloses rest =>
    obtain ⟨line, hcurrent, -⟩ := encloses
    have hbelow := rest.length_below_le hcurrent
    have hline := Context.currentLine?_eq_some_iff.mp hcurrent
    have hstop := rest.stop_le
    simp only [List.length_cons]
    omega

end Nested

namespace Machine

/-! ## Every step keeps the nesting -/

/-- A machine whose stack is nested in its program. -/
def IsNested (machine : Machine) : Prop :=
  Nested machine.program.length machine.stack

/-- The contexts of the blocks in execution, the innermost first. -/
def contexts (machine : Machine) : List Context :=
  machine.stack.map Frame.context

variable {machine next : Machine}

theorem start_isNested (source : String) : (start source).IsNested :=
  .whole (Frame.ofBlock_sound _) rfl

/-- **Every step keeps the nesting.** -/
theorem isNested_of_leads (hleads : Leads machine.step next) (h : machine.IsNested) :
    next.IsNested := by
  cases moves_of_leads hleads with
  | @again frame below body more line hstack hrepetition =>
    rw [IsNested, hstack] at h
    have hencloses := h.sound.encloses _ hrepetition
    refine Nested.push (h.replace ⟨h.sound.cursor_le, ?_⟩ rfl) hencloses
    rintro waiting hwaiting
    obtain rfl := Option.some.inj hwaiting
    exact hencloses
  | resume hstack hrepetition =>
    rw [IsNested, hstack] at h
    exact h.replace (Frame.jumpTo_sound _ _) rfl
  | leave hstack =>
    rw [IsNested, hstack] at h
    exact h.pop
  | pass store hat haction =>
    rw [IsNested, hat.stack] at h
    exact h.replace (Frame.jumpTo_sound _ _) rfl
  | @enter frame below line times next body hat haction =>
    rw [IsNested, hat.stack] at h
    refine h.replace ⟨h.sound.cursor_le, ?_⟩ rfl
    rintro repetition hrepetition
    obtain rfl := Option.some.inj hrepetition
    have hline := (Context.currentLine?_eq_some_iff.mp hat.current).2
    exact ⟨line, hat.current, Program.action_follows hline haction⟩

theorem isNested_of_reaches {source : String} {calls : List HostCall}
    (h : (start source).Reaches calls machine) : machine.IsNested :=
  h.keeps IsNested (fun _ _ => isNested_of_leads) (start_isNested source)

/-! ## What lies below a block in execution -/

/-- The steps of all blocks but the lowest `floor`, up to where they are over. -/
inductive Completes (floor : Nat) : Machine → Machine → Prop where
  | done {machine : Machine} (h : machine.depth ≤ floor) : Completes floor machine machine
  | step {machine next last : Machine} (h : floor < machine.depth)
      (hleads : Leads machine.step next) (rest : Completes floor next last) :
      Completes floor machine last

/-- A step changes nothing below the innermost block. -/
theorem stack_of_leads {frame : Frame} {above below : List Frame}
    (hleads : Leads machine.step next) (hstack : machine.stack = frame :: above ++ below) :
    ∃ others, next.stack = others ++ below := by
  cases moves_of_leads hleads with
  | again h =>
    obtain ⟨rfl, rfl⟩ := List.cons.inj (h.symm.trans hstack)
    exact ⟨_ :: _ :: above, rfl⟩
  | resume h =>
    obtain ⟨rfl, rfl⟩ := List.cons.inj (h.symm.trans hstack)
    exact ⟨_ :: above, rfl⟩
  | leave h =>
    obtain ⟨rfl, rfl⟩ := List.cons.inj (h.symm.trans hstack)
    exact ⟨above, rfl⟩
  | pass store hat =>
    obtain ⟨rfl, rfl⟩ := List.cons.inj (hat.stack.symm.trans hstack)
    exact ⟨_ :: above, rfl⟩
  | enter hat =>
    obtain ⟨rfl, rfl⟩ := List.cons.inj (hat.stack.symm.trans hstack)
    exact ⟨_ :: above, rfl⟩

/-- **When the blocks above some others are over, those others are as they were.** -/
theorem Completes.stack_eq {last : Machine} {above below : List Frame}
    (h : Completes below.length machine last) (hstack : machine.stack = above ++ below) :
    last.stack = below := by
  induction h generalizing above with
  | done hdepth =>
    rw [depth, hstack, List.length_append] at hdepth
    have habove : above = [] := List.eq_nil_of_length_eq_zero (by omega)
    rw [hstack, habove, List.nil_append]
  | step hdepth hleads _ ih =>
    cases above with
    | nil =>
      rw [depth, hstack, List.nil_append] at hdepth
      exact absurd hdepth (Nat.lt_irrefl _)
    | cons frame above =>
      obtain ⟨others, hnext⟩ := stack_of_leads hleads hstack
      exact ih hnext

/-- A step that enters a block puts its context on top of the others. -/
theorem contexts_of_deeper (hleads : Leads machine.step next) (hdeeper : machine.depth < next.depth) :
    ∃ body frames, next.stack = .ofBlock body :: frames ∧
      frames.map Frame.context = machine.contexts := by
  cases moves_of_leads hleads with
  | again hstack => exact ⟨_, _, rfl, by rw [contexts, hstack]; rfl⟩
  | resume hstack =>
    rw [depth, depth, hstack] at hdeeper
    exact absurd hdeeper (Nat.lt_irrefl _)
  | leave hstack =>
    simp only [depth, hstack, List.length_cons] at hdeeper
    omega
  | pass store hat =>
    rw [depth, depth, hat.stack] at hdeeper
    exact absurd hdeeper (Nat.lt_irrefl _)
  | enter hat =>
    rw [depth, depth, hat.stack] at hdeeper
    exact absurd hdeeper (Nat.lt_irrefl _)

/-- **The contexts of a run are nested, and blocks leave them as they were.**  In all
that a run reaches, no cursor is beyond the end of its block; every context but the
lowest follows the current line of the one below it, inside that one's block; and
there is at most one context more than there are lines.  A step that enters a block
puts its context on top, and when the block is over the contexts are those from
before that step. -/
theorem contexts_nested {source : String} {calls : List HostCall}
    (h : (start source).Reaches calls machine) :
    (∀ context ∈ machine.contexts, context.cursor ≤ context.length) ∧
      machine.contexts.IsChain (fun inner outer => outer.Encloses inner.block) ∧
      machine.depth ≤ (Text.lines source.toList).length + 1 ∧
      ∀ entered, Leads machine.step entered → machine.depth < entered.depth →
        (∃ body, entered.contexts = .ofBlock body :: machine.contexts) ∧
          ∀ last, entered.Completes machine.depth last → last.contexts = machine.contexts := by
  have hnested := isNested_of_reaches h
  have hlines : machine.program.length = (Text.lines source.toList).length := by
    rw [program_of_reaches h, Program.ofSource, List.length_map]
  refine ⟨hnested.cursor_le, hnested.isChain, hlines ▸ hnested.length_le, ?_⟩
  intro entered hleads hdeeper
  obtain ⟨body, frames, hstack, hframes⟩ := contexts_of_deeper hleads hdeeper
  constructor
  · exact ⟨body, by rw [contexts, hstack, ← hframes]; rfl⟩
  · intro last hcompletes
    have hdepth : machine.depth = frames.length := by
      have hlength := congrArg List.length hframes
      rw [contexts, List.length_map, List.length_map] at hlength
      exact hlength.symm
    have habove : entered.stack = [.ofBlock body] ++ frames := hstack
    rw [hdepth] at hcompletes
    rw [contexts, hcompletes.stack_eq habove, hframes]

/-- A loop in a loop.  The body of the inner one has no lines. -/
def nestedLoops : String := "반복 2 \x7b\n반복 1 \x7b\n\x7d\n\x7d"

/-- The whole program, with its loop at work for the first time. -/
def outerLoop : Frame := ⟨⟨⟨0, 4⟩, 0⟩, some ⟨⟨1, 3⟩, 1, 4⟩⟩

/-- The body of the outer loop, with the inner one at work some times more. -/
def innerLoop (times : Nat) : Frame := ⟨⟨⟨1, 3⟩, 0⟩, some ⟨⟨2, 2⟩, times, 3⟩⟩

/-- A machine that runs the two loops. -/
def loopsAt (stack : List Frame) : Machine := ⟨.ofSource nestedLoops, .empty, stack⟩

theorem reaches_innerLoop : (start nestedLoops).Reaches [] (loopsAt [innerLoop 1, outerLoop]) :=
  .silent rfl (.silent rfl (.silent rfl (.refl _)))

/-- The body of the inner loop is entered and left. -/
theorem contexts_nested_loops :
    let machine := loopsAt [innerLoop 1, outerLoop]
    let entered := loopsAt [.ofBlock ⟨2, 2⟩, innerLoop 0, outerLoop]
    let last := loopsAt [innerLoop 0, outerLoop]
    (start nestedLoops).Reaches [] machine ∧ Leads machine.step entered ∧
      machine.depth < entered.depth ∧ entered.Completes machine.depth last ∧
        machine.contexts.IsChain (fun inner outer => outer.Encloses inner.block) ∧
          machine.depth ≤ 5 ∧ last.contexts = machine.contexts := by
  intro machine entered last
  have hentered : Leads machine.step entered := .silent entered
  have hdeeper : machine.depth < entered.depth := Nat.lt_succ_self _
  have hcompletes : entered.Completes machine.depth last :=
    .step hdeeper (.silent last) (.done (Nat.le_refl _))
  obtain ⟨-, hchain, hdepth, hblocks⟩ := contexts_nested reaches_innerLoop
  obtain ⟨-, hleaves⟩ := hblocks entered hentered hdeeper
  exact ⟨reaches_innerLoop, hentered, hdeeper, hcompletes, hchain, hdepth,
    hleaves last hcompletes⟩

end Machine

end KoreanScript
