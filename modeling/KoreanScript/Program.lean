import KoreanScript.Statement
import KoreanScript.Text.Lines

/-!
# Programs and their blocks

A program is a list of lines.  All that execution needs of a line is its
statement, whether it contains an opening and a closing brace, and whether it can
follow the first block of a conditional.

Blocks are delimited by whole lines.  A line with an opening brace goes one level
in and a line with a closing brace one level out, wherever in the line the brace
stands, and a line with both stays on its level.  The block of a header ends on
the first line, the header included, that brings the level back to zero, or at
the end of the enclosing block if none does.
-/

set_option autoImplicit false

namespace KoreanScript

/-! ## Lines -/

/-- A line of a program, as far as execution depends on it. -/
structure Line where
  statement : Statement
  opens : Bool
  closes : Bool
  startsElse : Bool
  deriving DecidableEq

/-- Reads one line. -/
def Line.ofText (text : List Char) : Line where
  statement := .ofLine text
  opens := text.contains '{'
  closes := text.contains '}'
  startsElse := KoreanScript.startsElse text

/-- By how much a line changes the level of blocks. -/
def Line.balance (line : Line) : Int :=
  (if line.opens then 1 else 0) - (if line.closes then 1 else 0)

/-- The lines of a program. -/
abbrev Program := List Line

/-- Reads the source text of a program. -/
def Program.ofSource (source : String) : Program :=
  (Text.lines source.toList).map Line.ofText

/-! ## Blocks -/

/-- The lines from `start` up to, but without, `stop`. -/
structure Block where
  start : Nat
  stop : Nat
  deriving DecidableEq

/-- The number of lines in a block. -/
def Block.length (block : Block) : Nat :=
  block.stop - block.start

/-- How many lines pass, for a scan at a given level, before the level is zero or below. -/
def linesToClose (level : Int) : List Line → Nat
  | [] => 0
  | line :: rest =>
    if level + line.balance ≤ 0 then 0 else linesToClose (level + line.balance) rest + 1

/-- The line on which the block of the header at `header` ends, when only the lines
before `limit` are looked at. -/
def Program.blockEnd (program : Program) (header limit : Nat) : Nat :=
  header + linesToClose 0 ((program.take limit).drop header)

/-- The lines between the header at `header` and the end of its block. -/
def Program.body (program : Program) (header limit : Nat) : Block :=
  let stop := program.blockEnd header limit
  ⟨min (header + 1) stop, stop⟩

/-! ## Bounds -/

theorem linesToClose_le (level : Int) (lines : List Line) :
    linesToClose level lines ≤ lines.length := by
  fun_induction linesToClose level lines <;> simp_all

theorem Program.le_blockEnd (program : Program) (header limit : Nat) :
    header ≤ program.blockEnd header limit :=
  Nat.le_add_right _ _

/-- A block never ends beyond the limit of its scan. -/
theorem Program.blockEnd_le (program : Program) {header limit : Nat} (h : header ≤ limit) :
    program.blockEnd header limit ≤ limit := by
  have := linesToClose_le 0 ((program.take limit).drop header)
  simp only [List.length_drop, List.length_take] at this
  unfold Program.blockEnd
  omega

/-- The body of a block is shorter than what is left of the enclosing block. -/
theorem Program.length_body_lt (program : Program) {header limit : Nat} (h : header < limit) :
    (program.body header limit).length < limit - header := by
  have := program.blockEnd_le (Nat.le_of_lt h)
  have := program.le_blockEnd header limit
  simp only [Program.body, Block.length]
  omega

end KoreanScript
