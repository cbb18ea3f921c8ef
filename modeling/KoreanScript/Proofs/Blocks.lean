import Mathlib.Order.Bounds.Basic
import Mathlib.Data.List.TakeDrop
import KoreanScript.Proofs.Runs

/-!
# Where blocks end

The level of a line, counted from a header, is the number of lines with an opening
brace from the header to that line, less the number of those with a closing one.
The block of a header ends on the first line, the header included, whose level is
not positive, or where the scan ends if there is none.

Blocks are laminar.  A line changes the level by one at most, so the last line before
the end of a closed block has level one, while all lines before it have at least
that level.  Counted from a line inside, that last line has come down to zero or
below.  Hence a block that starts inside a closed one ends inside it too, and where
the scan is limited further out makes no difference.
-/

set_option autoImplicit false

namespace KoreanScript

/-! ## Levels -/

/-- By how much some lines change the level of blocks. -/
def rise : List Line → Int
  | [] => 0
  | line :: rest => line.balance + rise rest

@[simp] theorem rise_nil : rise [] = 0 := rfl

@[simp] theorem rise_cons (line : Line) (rest : List Line) :
    rise (line :: rest) = line.balance + rise rest := rfl

@[simp] theorem rise_append (first second : List Line) :
    rise (first ++ second) = rise first + rise second := by
  induction first with
  | nil => exact (Int.zero_add _).symm
  | cons line rest ih => rw [List.cons_append, rise_cons, rise_cons, ih, Int.add_assoc]

/-- A line goes one level down at most. -/
theorem Line.neg_one_le_balance (line : Line) : -1 ≤ line.balance := by
  unfold balance
  split <;> split <;> decide

/-! ## The scan for the end of a block -/

/-- Before the scan stops, the level is positive. -/
theorem rise_pos_of_lt_linesToClose {level : Int} {lines : List Line} {count : Nat}
    (h : count < linesToClose level lines) : 0 < level + rise (lines.take (count + 1)) := by
  induction lines generalizing level count with
  | nil => exact absurd h (Nat.not_lt_zero count)
  | cons line rest ih =>
    rw [linesToClose] at h
    split at h
    · exact absurd h (Nat.not_lt_zero count)
    · next hlevel =>
      rw [List.take_succ_cons, rise_cons, ← Int.add_assoc]
      cases count with
      | zero =>
        rw [List.take_zero, rise_nil]
        omega
      | succ count => exact ih (Nat.lt_of_succ_lt_succ h)

/-- Where the scan stops short of the last line, the level is not positive. -/
theorem rise_nonpos_of_linesToClose_lt {level : Int} {lines : List Line}
    (h : linesToClose level lines < lines.length) :
    level + rise (lines.take (linesToClose level lines + 1)) ≤ 0 := by
  induction lines generalizing level with
  | nil => exact absurd h (Nat.not_lt_zero _)
  | cons line rest ih =>
    rw [linesToClose] at h ⊢
    split
    · next hlevel => simpa using hlevel
    · next hlevel =>
      rw [if_neg hlevel, List.length_cons] at h
      have hrest := ih (Nat.lt_of_succ_lt_succ h)
      rw [List.take_succ_cons, rise_cons]
      omega

namespace Program

/-- The level of a line, counted from a header. -/
def level (program : Program) (header line : Nat) : Int :=
  rise ((program.take (line + 1)).drop header)

/-- A line before the limit of a scan, from the header on, whose level is not positive. -/
structure ClosesAt (program : Program) (header limit line : Nat) : Prop where
  header_le : header ≤ line
  lt_limit : line < min limit program.length
  level_nonpos : program.level header line ≤ 0

variable {program : Program} {header limit line : Nat}

/-- What a scan has seen when it has passed some lines. -/
theorem rise_take_scanned {passed : Nat} (h : header + passed < limit) :
    rise (((program.take limit).drop header).take (passed + 1)) =
      program.level header (header + passed) := by
  rw [level, List.take_drop, List.take_take]
  congr 3
  omega

/-- Before a block ends, the level is positive. -/
theorem level_pos_of_lt_blockEnd (hheader : header ≤ line)
    (h : line < program.blockEnd header limit) : 0 < program.level header line := by
  obtain ⟨passed, rfl⟩ := Nat.exists_eq_add_of_le hheader
  have hpassed : passed < linesToClose 0 ((program.take limit).drop header) := by
    unfold blockEnd at h
    omega
  have hlimit := linesToClose_le 0 ((program.take limit).drop header)
  rw [List.length_drop, List.length_take] at hlimit
  have hpos := rise_pos_of_lt_linesToClose hpassed
  rwa [rise_take_scanned (by omega), Int.zero_add] at hpos

/-- A block that ends before the limit of its scan ends on a line that closes it. -/
theorem closesAt_blockEnd (h : program.blockEnd header limit < min limit program.length) :
    program.ClosesAt header limit (program.blockEnd header limit) where
  header_le := program.le_blockEnd header limit
  lt_limit := h
  level_nonpos := by
    have hlength : ((program.take limit).drop header).length =
        min limit program.length - header := by
      rw [List.length_drop, List.length_take]
    have hstop : linesToClose 0 ((program.take limit).drop header) <
        ((program.take limit).drop header).length := by
      unfold blockEnd at h
      omega
    have hnonpos := rise_nonpos_of_linesToClose_lt hstop
    rw [rise_take_scanned, Int.zero_add] at hnonpos
    · exact hnonpos
    · unfold blockEnd at h
      omega

/-- No block ends after a line that closes it. -/
theorem ClosesAt.blockEnd_le (h : program.ClosesAt header limit line) :
    program.blockEnd header limit ≤ line := by
  by_contra hlate
  have hpos := level_pos_of_lt_blockEnd h.header_le (Nat.lt_of_not_le hlate)
  exact absurd h.level_nonpos (Int.not_le.mpr hpos)

/-- **A block ends on the first line that closes it**, if there is one. -/
theorem ClosesAt.isLeast (h : program.ClosesAt header limit line) :
    IsLeast {line | program.ClosesAt header limit line} (program.blockEnd header limit) where
  left := closesAt_blockEnd (h.blockEnd_le.trans_lt h.lt_limit)
  right := fun _ hother => hother.blockEnd_le

/-- A block that no line closes ends where its scan does. -/
theorem blockEnd_of_not_closes (h : ¬∃ line, program.ClosesAt header limit line) :
    program.blockEnd header limit = max header (min limit program.length) := by
  have hlate : min limit program.length ≤ program.blockEnd header limit := by
    by_contra hearly
    exact h ⟨_, closesAt_blockEnd (Nat.lt_of_not_le hearly)⟩
  have hle := linesToClose_le 0 ((program.take limit).drop header)
  rw [List.length_drop, List.length_take] at hle
  unfold blockEnd at hlate ⊢
  omega

/-- A scan that has found a line goes no further, whatever its limit is. -/
theorem ClosesAt.blockEnd_eq {wider : Nat} (h : program.ClosesAt header limit line)
    (hwider : limit ≤ wider) : program.blockEnd header wider = program.blockEnd header limit := by
  have hleast := h.isLeast
  have hfound : program.ClosesAt header wider (program.blockEnd header limit) :=
    { hleast.1 with lt_limit := hleast.1.lt_limit.trans_le (by omega) }
  refine hfound.isLeast.unique ⟨hfound, fun other hother => ?_⟩
  by_cases hnear : other < limit
  · have hroom := hother.lt_limit
    exact hleast.2 { hother with lt_limit := by omega }
  · have hroom := hleast.1.lt_limit
    omega

/-! ## Blocks inside blocks -/

/-- Counted from a header, a line has the level of an earlier line and the level counted
from the line after that one. -/
theorem level_eq_add (program : Program) {header inner line : Nat} (hheader : header ≤ inner)
    (hinner : inner ≤ line) :
    program.level header line = program.level header inner + program.level (inner + 1) line := by
  have hsplit := List.drop_take_append_drop (program.take (line + 1)) header (inner + 1 - header)
  have hfront : header + (inner + 1 - header) = inner + 1 := by omega
  rw [List.take_drop, hfront, List.take_take, Nat.min_eq_left (by omega)] at hsplit
  rw [level, level, level, ← rise_append, hsplit]

/-- One more line goes one level down at most. -/
theorem neg_one_le_level_self (program : Program) (line : Nat) :
    -1 ≤ program.level line line := by
  rw [level, List.drop_take, Nat.add_sub_cancel_left]
  cases program.drop line with
  | nil => decide
  | cons found rest =>
    rw [List.take_succ_cons, List.take_zero, rise_cons, rise_nil, Int.add_zero]
    exact found.neg_one_le_balance

/-- **A block inside a closed block is closed before its end**, by the last line inside
the outer block at the latest. -/
theorem ClosesAt.inside {inner : Nat} (h : program.ClosesAt header limit line)
    (hheader : header < inner) (hinner : inner < program.blockEnd header limit) :
    program.ClosesAt inner (program.blockEnd header limit)
      (program.blockEnd header limit - 1) := by
  have hclosed := h.isLeast.1
  have hopen : ∀ other, header ≤ other → other < program.blockEnd header limit →
      0 < program.level header other := fun _ => level_pos_of_lt_blockEnd
  generalize program.blockEnd header limit = stop at hclosed hopen hinner ⊢
  obtain ⟨last, rfl⟩ : ∃ last, stop = last + 1 := ⟨stop - 1, by omega⟩
  obtain ⟨before, rfl⟩ : ∃ before, inner = before + 1 := ⟨inner - 1, by omega⟩
  have hheaderBefore : header ≤ before := by omega
  have hbeforeLast : before ≤ last := by omega
  -- the last line inside is one line above the end, where the level is not positive
  have hlast : program.level header last ≤ 1 := by
    have hstep := level_eq_add program (hheaderBefore.trans hbeforeLast) (Nat.le_add_right last 1)
    have hdown := program.neg_one_le_level_self (last + 1)
    have hzero := hclosed.level_nonpos
    omega
  have hbefore := hopen before hheaderBefore (by omega)
  have hsplit := level_eq_add program hheaderBefore hbeforeLast
  have hroom := hclosed.lt_limit
  exact {
    header_le := by omega
    lt_limit := by omega
    level_nonpos := by
      rw [Nat.add_sub_cancel]
      omega }

end Program

/-! ## Blocks of a source text -/

/-- The depth of a line of a text, counted from a line on: how many lines with an opening
brace there are up to it, less the number of those with a closing brace. -/
def runningDepth (lines : List (List Char)) (start line : Nat) : Int :=
  let seen := (lines.take (line + 1)).drop start
  seen.countP (·.contains '{') - seen.countP (·.contains '}')

theorem rise_map_ofText (lines : List (List Char)) :
    rise (lines.map Line.ofText) =
      (lines.countP (·.contains '{') : Int) - lines.countP (·.contains '}') := by
  induction lines with
  | nil => rfl
  | cons line rest ih =>
    simp only [List.map_cons, rise_cons, ih, Line.balance, Line.ofText, List.countP_cons]
    cases line.contains '{' <;> cases line.contains '}' <;> simp <;> omega

theorem level_map_ofText (lines : List (List Char)) (start line : Nat) :
    Program.level (lines.map Line.ofText) start line = runningDepth lines start line := by
  rw [Program.level, ← List.map_take, ← List.map_drop, rise_map_ofText, runningDepth]

theorem closesAt_map_ofText_iff {lines : List (List Char)} {start limit line : Nat} :
    Program.ClosesAt (lines.map Line.ofText) start limit line ↔
      start ≤ line ∧ line < min limit lines.length ∧ runningDepth lines start line ≤ 0 := by
  rw [← level_map_ofText]
  constructor
  · rintro ⟨hstart, hlimit, hlevel⟩
    exact ⟨hstart, List.length_map Line.ofText ▸ hlimit, hlevel⟩
  · rintro ⟨hstart, hlimit, hlevel⟩
    exact ⟨hstart, (List.length_map Line.ofText).symm ▸ hlimit, hlevel⟩

/-- **Blocks are laminar.**  The block that starts on a line of a text ends on the first
line before the limit whose depth is not positive, and where the scan ends if there is
none; its body is what lies strictly between.  If there is such a line, then a block that
starts in the body ends in front of the outer end, and it is the same block for every
limit that is not before this end. -/
theorem blockEnd_laminar (lines : List (List Char)) (start limit : Nat) :
    let program : Program := lines.map Line.ofText
    let stop := program.blockEnd start limit
    let body := program.body start limit
    let closing : Set Nat := {line |
      start ≤ line ∧ line < min limit lines.length ∧ runningDepth lines start line ≤ 0}
    (closing.Nonempty → IsLeast closing stop) ∧
      (¬closing.Nonempty → stop = max start (min limit lines.length)) ∧
      (∀ line, body.start ≤ line ∧ line < body.stop ↔ start < line ∧ line < stop) ∧
      (closing.Nonempty → ∀ inner, body.start ≤ inner → inner < body.stop →
        ∀ wider, stop ≤ wider →
          program.blockEnd inner wider = program.blockEnd inner stop ∧
            program.body inner wider = program.body inner stop ∧
              program.blockEnd inner wider < stop) := by
  intro program stop body closing
  have hclosing : closing = {line | program.ClosesAt start limit line} :=
    Set.ext fun _ => closesAt_map_ofText_iff.symm
  have hbody : ∀ line, body.start ≤ line ∧ line < body.stop ↔ start < line ∧ line < stop := by
    intro line
    change min (start + 1) stop ≤ line ∧ line < stop ↔ start < line ∧ line < stop
    omega
  rw [hclosing]
  refine ⟨fun ⟨line, hline⟩ => hline.isLeast, fun hnone => ?_, hbody, ?_⟩
  · have hstop := Program.blockEnd_of_not_closes hnone
    rwa [List.length_map] at hstop
  · rintro ⟨line, hline⟩ inner hfirst hlast wider hwider
    obtain ⟨hafter, hbefore⟩ := (hbody inner).mp ⟨hfirst, hlast⟩
    have hinside := hline.inside hafter hbefore
    have hsame := hinside.blockEnd_eq hwider
    refine ⟨hsame, ?_, ?_⟩
    · rw [Program.body, Program.body, hsame]
    · have hend := hinside.blockEnd_le
      omega

/-- A loop inside a conditional, in a text that goes on after both. -/
theorem blockEnd_laminar_loop :
    let lines := ["만약 1 < 2 \x7b".toList, "반복 2 \x7b".toList, "\x7d".toList, "\x7d".toList,
      "출력(1)".toList, "\x7d".toList]
    let program : Program := lines.map Line.ofText
    (0 ≤ 3 ∧ 3 < min 9 lines.length ∧ runningDepth lines 0 3 ≤ 0) ∧
      (program.body 0 9).start ≤ 1 ∧ 1 < (program.body 0 9).stop ∧ program.blockEnd 0 9 ≤ 5 ∧
        program.blockEnd 1 5 = program.blockEnd 1 (program.blockEnd 0 9) ∧
          program.body 1 5 = program.body 1 (program.blockEnd 0 9) ∧
            program.blockEnd 1 5 < program.blockEnd 0 9 := by
  intro lines program
  have hclosed : 0 ≤ 3 ∧ 3 < min 9 lines.length ∧ runningDepth lines 0 3 ≤ 0 := by decide
  have hbody : (program.body 0 9).start ≤ 1 ∧ 1 < (program.body 0 9).stop := by decide
  have hroom : program.blockEnd 0 9 ≤ 5 := by decide
  obtain ⟨-, -, -, hinside⟩ := blockEnd_laminar lines 0 9
  exact ⟨hclosed, hbody.1, hbody.2, hroom, hinside ⟨3, hclosed⟩ 1 hbody.1 hbody.2 5 hroom⟩

end KoreanScript
