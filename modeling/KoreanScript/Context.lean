import KoreanScript.Program

/-!
# Execution contexts

A context is a block that is being executed together with a cursor.  The cursor
counts from the first line of the block; once it has reached the length of the
block there is no current line.  A jump goes to a line of the program, or to the
nearer end of the block if that line lies outside.
-/

set_option autoImplicit false

namespace KoreanScript

/-- A block being executed and how far it has come. -/
structure Context where
  block : Block
  cursor : Nat
  deriving DecidableEq

namespace Context

/-- The context of a block at its first line. -/
def ofBlock (block : Block) : Context :=
  ⟨block, 0⟩

/-- The number of lines of the block. -/
def length (context : Context) : Nat :=
  context.block.length

/-- Whether the block has no lines. -/
def isEmpty (context : Context) : Bool :=
  context.block.stop ≤ context.block.start

/-- The program line under the cursor, if the block is not over. -/
def currentLine? (context : Context) : Option Nat :=
  let line := context.block.start + context.cursor
  if line < context.block.stop then some line else none

/-- Moves the cursor to a line of the program, kept within the block. -/
def jumpTo (context : Context) (line : Nat) : Context where
  block := context.block
  cursor := min (max line context.block.start) context.block.stop - context.block.start

/-- The number of lines from the cursor on. -/
def remaining (context : Context) : Nat :=
  context.block.stop - (context.block.start + context.cursor)

@[simp] theorem block_jumpTo (context : Context) (line : Nat) :
    (context.jumpTo line).block = context.block := rfl

theorem currentLine?_eq_some_iff {context : Context} {line : Nat} :
    context.currentLine? = some line ↔
      line = context.block.start + context.cursor ∧ line < context.block.stop := by
  simp only [currentLine?, Option.ite_none_right_eq_some, Option.some.injEq]
  grind

theorem currentLine?_eq_none_iff {context : Context} :
    context.currentLine? = none ↔ context.block.stop ≤ context.block.start + context.cursor := by
  simp only [currentLine?]
  split <;> simp <;> omega

/-- A jump inside the block is to the line that it names. -/
theorem currentLine?_jumpTo {context : Context} {line : Nat} (hstart : context.block.start ≤ line)
    (hstop : line < context.block.stop) : (context.jumpTo line).currentLine? = some line := by
  refine currentLine?_eq_some_iff.mpr ⟨?_, hstop⟩
  simp only [jumpTo]
  omega

/-- A jump beyond the current line leaves fewer lines. -/
theorem remaining_jumpTo_lt {context : Context} {line next : Nat}
    (hcurrent : context.currentLine? = some line) (hnext : line < next) :
    (context.jumpTo next).remaining < context.remaining := by
  obtain ⟨rfl, hstop⟩ := currentLine?_eq_some_iff.mp hcurrent
  simp only [remaining, jumpTo]
  omega

end Context

end KoreanScript
