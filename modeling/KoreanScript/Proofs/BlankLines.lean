import Mathlib.Data.List.Forall2
import Mathlib.Data.List.InsertIdx
import KoreanScript.Proofs.Anchoring

/-!
# Inserting a blank line

A blank line in front of line `k` moves that line and all after it down by one and
changes nothing else, unless the line that moves starts the second block of a
conditional, which has to stand right after the first.

Two numberings of lines are in play.  A line `n` of the program is line `shift k n`
afterwards, and so is the end of a block, since blocks end at a line or with the
program.  A place where execution goes on is less definite: if that place is in front of
line `k`, it may be in front of the blank line or behind it.  The relation `Shifts`
allows both, and two machines are related when all their blocks, cursors and pending
repetitions are.

Of two related machines the one with the blank line may have to execute it, which takes
a step and leads to a related machine.  Otherwise both take the same step.  So the two
runs make the same calls, and a fault is the same fault on the line where its statement
now stands.
-/

set_option autoImplicit false

namespace KoreanScript

/-! ## Numbers of lines -/

/-- The number of line `n` after a line has been inserted in front of line `k`. -/
def shift (k n : Nat) : Nat :=
  if n < k then n else n + 1

/-- A place in front of line `n` is in front of line `n'` afterwards.  In front of line `k`
there are two places, before and after the new line. -/
def Shifts (k n n' : Nat) : Prop :=
  (n' = n ∧ n ≤ k) ∨ (n' = n + 1 ∧ k ≤ n)

section Shifts

variable {k : Nat}

theorem shift_of_lt {n : Nat} (h : n < k) : shift k n = n :=
  if_pos h

theorem shift_of_le {n : Nat} (h : k ≤ n) : shift k n = n + 1 :=
  if_neg (Nat.not_lt.mpr h)

theorem shift_cases (k n : Nat) : (n < k ∧ shift k n = n) ∨ (k ≤ n ∧ shift k n = n + 1) := by
  rcases Nat.lt_or_ge n k with h | h
  · exact .inl ⟨h, shift_of_lt h⟩
  · exact .inr ⟨h, shift_of_le h⟩

theorem shift_succ (k n : Nat) : shift (k + 1) (n + 1) = shift k n + 1 := by
  have := shift_cases k n
  have := shift_cases (k + 1) (n + 1)
  omega

/-- The place behind a line is behind that line. -/
theorem shifts_succ (k n : Nat) : Shifts k (n + 1) (shift k n + 1) := by
  have := shift_cases k n
  unfold Shifts
  omega

namespace Shifts

variable {a a' b b' : Nat}

theorem max (ha : Shifts k a a') (hb : Shifts k b b') : Shifts k (max a b) (max a' b') := by
  unfold Shifts at *
  omega

theorem min (ha : Shifts k a a') (hb : Shifts k b b') : Shifts k (min a b) (min a' b') := by
  unfold Shifts at *
  omega

end Shifts

theorem shifts_shift (k n : Nat) : Shifts k n (shift k n) := by
  have := shift_cases k n
  unfold Shifts
  omega

end Shifts

/-! ## The program with a blank line -/

/-- A line without text. -/
def Line.blank : Line :=
  .ofText []

/-- The program with a blank line in front of line `k`. -/
def Program.withBlank (program : Program) (k : Nat) : Program :=
  program.insertIdx k .blank

/-- Inside a block a scan passes over a blank line. -/
theorem linesToClose_blank {level : Int} (h : 0 < level) (lines : List Line) :
    linesToClose level (.blank :: lines) = linesToClose level lines + 1 := by
  have hbalance : Line.blank.balance = 0 := rfl
  rw [linesToClose, hbalance, Int.add_zero, if_neg (Int.not_le.mpr h)]

/-- A scan that starts inside a block, or in front of the lines before a blank line, finds
the same end with the blank line and without. -/
theorem linesToClose_insertIdx {level : Int} {lines : List Line} {j : Nat}
    (hlevel : 0 < level ∨ 0 < j) (hj : j ≤ lines.length) :
    linesToClose level (lines.insertIdx j .blank) = shift j (linesToClose level lines) := by
  induction lines generalizing level j with
  | nil =>
    obtain rfl : j = 0 := Nat.le_zero.mp hj
    exact linesToClose_blank (hlevel.resolve_right (Nat.lt_irrefl 0)) []
  | cons line rest ih =>
    cases j with
    | zero =>
      rw [List.insertIdx_zero, linesToClose_blank (hlevel.resolve_right (Nat.lt_irrefl 0)),
        shift_of_le (Nat.zero_le _)]
    | succ j =>
      rw [List.insertIdx_succ_cons, linesToClose, linesToClose]
      split
      · exact (shift_of_lt (Nat.succ_pos j)).symm
      · next hopen =>
        rw [ih (.inl (by omega)) (Nat.le_of_succ_le_succ hj), shift_succ]

namespace Program

variable {program : Program} {k : Nat}

theorem getElem?_withBlank_shift (program : Program) (k line : Nat) :
    (program.withBlank k)[shift k line]? = program[line]? := by
  rcases shift_cases k line with ⟨hline, heq⟩ | ⟨hline, heq⟩
  · rw [heq, withBlank, List.getElem?_insertIdx_of_lt hline]
  · rw [heq, withBlank, List.getElem?_insertIdx_of_gt (Nat.lt_succ_of_le hline)]
    rfl

theorem getElem?_withBlank_self (hk : k ≤ program.length) :
    (program.withBlank k)[k]? = some .blank := by
  rw [withBlank, List.getElem?_insertIdx_self, if_pos hk]

/-- What a scan looks at from a header behind the blank line. -/
theorem take_drop_withBlank_of_le {header : Nat} (h : k ≤ header) (limit : Nat) :
    ((program.withBlank k).take (limit + 1)).drop (header + 1) =
      (program.take limit).drop header := by
  apply List.ext_getElem?
  intro i
  simp only [withBlank, List.getElem?_drop, List.getElem?_take, List.getElem?_insertIdx]
  grind

theorem take_withBlank_of_lt {limit : Nat} (h : limit < k) :
    (program.withBlank k).take limit = program.take limit := by
  apply List.ext_getElem?
  intro i
  simp only [withBlank, List.getElem?_take, List.getElem?_insertIdx]
  grind

/-- What a scan looks at across the blank line. -/
theorem take_drop_withBlank (hk : k ≤ program.length) {header limit : Nat} (hheader : header < k)
    (hlimit : k ≤ limit) :
    ((program.withBlank k).take (limit + 1)).drop header =
      ((program.take limit).drop header).insertIdx (k - header) .blank := by
  apply List.ext_getElem?
  intro i
  simp only [withBlank, List.getElem?_drop, List.getElem?_take, List.getElem?_insertIdx,
    List.length_drop, List.length_take]
  grind

/-- **The end of a block moves with its line.** -/
theorem blockEnd_withBlank (hk : k ≤ program.length) {header limit : Nat} (h : header < limit) :
    (program.withBlank k).blockEnd (shift k header) (shift k limit) =
      shift k (program.blockEnd header limit) := by
  rcases Nat.lt_or_ge header k with hheader | hheader
  · rcases Nat.lt_or_ge limit k with hlimit | hlimit
    · have hend := program.blockEnd_le (Nat.le_of_lt h)
      rw [shift_of_lt hheader, shift_of_lt hlimit, shift_of_lt (by omega), blockEnd,
        take_withBlank_of_lt hlimit]
      rfl
    · have hlength : k - header ≤ ((program.take limit).drop header).length := by
        rw [List.length_drop, List.length_take]
        omega
      rw [shift_of_lt hheader, shift_of_le hlimit, blockEnd, blockEnd,
        take_drop_withBlank hk hheader hlimit,
        linesToClose_insertIdx (.inr (by omega)) hlength]
      have := shift_cases (k - header) (linesToClose 0 ((program.take limit).drop header))
      have := shift_cases k (header + linesToClose 0 ((program.take limit).drop header))
      omega
  · have hend := program.le_blockEnd header limit
    rw [shift_of_le hheader, shift_of_le (by omega), shift_of_le (by omega), blockEnd, blockEnd,
      take_drop_withBlank_of_le hheader]
    omega

/-- The line that a blank line is put in front of, if there is one, starts no second block. -/
def MaySplit (program : Program) (k : Nat) : Prop :=
  k ≤ program.length ∧ ∀ line ∈ program[k]?, line.startsElse = false

/-- **A second block is found where it was.** -/
theorem elseHeader?_withBlank (hsplit : program.MaySplit k) (stop limit : Nat) :
    (program.withBlank k).elseHeader? (shift k stop) (shift k limit) =
      (program.elseHeader? stop limit).map (shift k) := by
  obtain ⟨hk, hnoElse⟩ := hsplit
  have hstop := shift_cases k stop
  have hlimit := shift_cases k limit
  by_cases h : stop + 1 = k
  · have hat : shift k stop + 1 = k := by omega
    have hblank : Option.any Line.startsElse (some Line.blank) = false := rfl
    have hline : program[k]?.any Line.startsElse = false := by
      cases hfound : program[k]? with
      | none => rfl
      | some line => exact hnoElse line hfound
    rw [elseHeader?, elseHeader?, hat, getElem?_withBlank_self hk, h, hblank, hline,
      Bool.and_false, Bool.and_false]
    rfl
  · have hmoved := shift_cases k (stop + 1)
    have hnext : shift k (stop + 1) = shift k stop + 1 := by omega
    have hroom : shift k stop + 1 < shift k limit ↔ stop + 1 < limit := by omega
    rw [elseHeader?, elseHeader?, ← hnext, getElem?_withBlank_shift, hnext]
    simp only [hroom]
    split
    · rw [Option.map_some, hnext]
    · rfl

end Program

/-! ## What a line does -/

/-- A block and the block that it has become.  It ends at the line where it ended. -/
structure Block.Shifted (k : Nat) (block block' : Block) : Prop where
  start : Shifts k block.start block'.start
  stop : block'.stop = shift k block.stop
  start_le_stop : block.start ≤ block.stop

/-- An action and the action that it has become. -/
inductive Action.Shifted (k : Nat) : Action → Action → Prop where
  | proceed (store : Store) {next next' : Nat} (h : Shifts k next next') :
      Shifted k (.proceed store next) (.proceed store next')
  | print (text : String) {next next' : Nat} (h : Shifts k next next') :
      Shifted k (.print text next) (.print text next')
  | request (prompt name : String) {next next' : Nat} (h : Shifts k next next') :
      Shifted k (.request prompt name next) (.request prompt name next')
  | enter {body body' : Block} (times : Nat) {next next' : Nat} (hbody : body.Shifted k body')
      (h : Shifts k next next') : Shifted k (.enter body times next) (.enter body' times next')

/-- The fault on the line where its statement now stands.  Faults count lines from one. -/
def Fault.shift (k : Nat) (fault : Fault) : Fault :=
  { fault with line := if k < fault.line then fault.line + 1 else fault.line }

theorem Fault.shift_mk (k line : Nat) (cause : Cause) :
    Fault.shift k ⟨line + 1, cause⟩ = ⟨KoreanScript.shift k line + 1, cause⟩ := by
  have := shift_cases k line
  simp only [Fault.shift, Fault.mk.injEq, and_true]
  split <;> omega

/-- The results of executing a line, before and after. -/
inductive ResultsShifted (k : Nat) : Except Fault Action → Except Fault Action → Prop where
  | ok {action action' : Action} (h : action.Shifted k action') :
      ResultsShifted k (.ok action) (.ok action')
  | error (fault : Fault) : ResultsShifted k (.error fault) (.error (fault.shift k))

namespace Program

variable {program : Program} {k limit : Nat}

theorem body_withBlank (hk : k ≤ program.length) {header : Nat} (h : header < limit) :
    (program.body header limit).Shifted k
      ((program.withBlank k).body (shift k header) (shift k limit)) := by
  have hend := program.le_blockEnd header limit
  rw [body, body, blockEnd_withBlank hk h]
  exact ⟨(shifts_succ k header).min (shifts_shift k _), rfl, Nat.min_le_right _ _⟩

theorem branch_withBlank (hsplit : program.MaySplit k) {header : Nat} (h : header < limit)
    (holds : Bool) :
    (program.branch limit header holds).Shifted k
      ((program.withBlank k).branch (shift k limit) (shift k header) holds) := by
  rw [branch, branch]
  simp only [blockEnd_withBlank hsplit.1 h, elseHeader?_withBlank hsplit]
  cases hother : program.elseHeader? (program.blockEnd header limit) limit with
  | none => exact .enter _ (body_withBlank hsplit.1 h) (shifts_succ k _)
  | some other =>
    have hlimit := (elseHeader?_eq_some hother).2
    have hchosen : (if holds then header else other) < limit := by
      split
      · exact h
      · exact hlimit
    simp only [Option.map_some, blockEnd_withBlank hsplit.1 hlimit]
    rw [← apply_ite (shift k)]
    exact .enter 1 (body_withBlank hsplit.1 hchosen) (shifts_succ k _)

theorem iterate_withBlank (hk : k ≤ program.length) {header : Nat} (h : header < limit)
    (times : Nat) :
    (program.iterate limit header times).Shifted k
      ((program.withBlank k).iterate (shift k limit) (shift k header) times) := by
  rw [iterate, iterate, blockEnd_withBlank hk h]
  exact .enter times (body_withBlank hk h) (shifts_succ k _)

/-- **A statement does on its new line what it did on the old one.** -/
theorem actionOf_withBlank (hsplit : program.MaySplit k) {line : Nat} (h : line < limit)
    (store : Store) (statement : Statement) :
    ResultsShifted k (locate (line + 1) (program.actionOf store limit line statement))
      (locate (shift k line + 1)
        ((program.withBlank k).actionOf store (shift k limit) (shift k line) statement)) := by
  have herror (cause : Cause) :
      ResultsShifted k (.error ⟨line + 1, cause⟩) (.error ⟨shift k line + 1, cause⟩) :=
    Fault.shift_mk k line cause ▸ .error ⟨line + 1, cause⟩
  have hnext := shifts_succ k line
  cases statement with
  | empty => exact .ok (.proceed store hnext)
  | print expression =>
    simp only [actionOf]
    cases evaluate store expression with
    | error cause => exact herror cause
    | ok value => exact .ok (.print _ hnext)
  | input name prompt => exact .ok (.request prompt name hnext)
  | conditional condition =>
    simp only [actionOf]
    cases evaluateCondition store condition with
    | error cause => exact herror cause
    | ok holds => exact .ok (branch_withBlank hsplit h holds)
  | loop count =>
    simp only [actionOf]
    cases Number.count? count with
    | none => exact herror _
    | some times => exact .ok (iterate_withBlank hsplit.1 h times)
  | assignment name expression =>
    simp only [actionOf]
    cases evaluate store expression with
    | error cause => exact herror cause
    | ok value => exact .ok (.proceed _ hnext)
  | unrecognized code => exact herror _

theorem action_withBlank (hsplit : program.MaySplit k) {line : Nat} (h : line < limit)
    (store : Store) :
    ResultsShifted k (program.action store limit line)
      ((program.withBlank k).action store (shift k limit) (shift k line)) := by
  rw [action, action, getElem?_withBlank_shift]
  cases program[line]? with
  | none => exact .ok (.proceed store (shifts_succ k line))
  | some found => exact actionOf_withBlank hsplit h store found.statement

/-- The blank line does nothing. -/
theorem action_withBlank_self (hk : k ≤ program.length) (store : Store) (limit : Nat) :
    (program.withBlank k).action store limit k = .ok (.proceed store (k + 1)) := by
  rw [action, getElem?_withBlank_self hk]
  rfl

end Program

/-! ## Related machines -/

namespace Context

/-- A context and what it has become: the cursor stands at the same place. -/
structure Shifted (k : Nat) (context context' : Context) : Prop where
  block : context.block.Shifted k context'.block
  place : Shifts k (context.block.start + context.cursor) (context'.block.start + context'.cursor)

variable {k : Nat} {context context' : Context}

theorem shifted_ofBlock {block block' : Block} (h : block.Shifted k block') :
    (ofBlock block).Shifted k (ofBlock block') :=
  ⟨h, h.start⟩

theorem Shifted.jumpTo (h : context.Shifted k context') {next next' : Nat}
    (hnext : Shifts k next next') : (context.jumpTo next).Shifted k (context'.jumpTo next') := by
  refine ⟨h.block, ?_⟩
  have hplace := (hnext.max h.block.start).min (shifts_shift k context.block.stop)
  have hstart := h.block.start
  have hstop := h.block.stop
  have hle := h.block.start_le_stop
  have hmoved := shift_cases k context.block.stop
  rw [← hstop] at hplace
  have hroom : context'.block.start ≤ context'.block.stop := by
    unfold Shifts at hstart
    omega
  have hat {start stop : Nat} (h : start ≤ stop) (line : Nat) :
      start + (min (max line start) stop - start) = min (max line start) stop := by
    omega
  simpa only [Context.jumpTo, hat hle, hat hroom] using hplace

/-- The current line is the blank one, or it is where the current line has moved to. -/
theorem Shifted.currentLine? (h : context.Shifted k context') :
    context'.currentLine? = some k ∨
      context'.currentLine? = context.currentLine?.map (shift k) := by
  obtain ⟨⟨-, hstop, -⟩, hplace⟩ := h
  have hend := shift_cases k context.block.stop
  have hline := shift_cases k (context.block.start + context.cursor)
  unfold Shifts at hplace
  by_cases hblank : k = context'.block.start + context'.cursor ∧ k < context'.block.stop
  · exact .inl (currentLine?_eq_some_iff.mpr hblank)
  · right
    cases hcurrent : context.currentLine? with
    | none =>
      have hover := currentLine?_eq_none_iff.mp hcurrent
      rw [Option.map_none, currentLine?_eq_none_iff]
      omega
    | some line =>
      obtain ⟨rfl, hlt⟩ := currentLine?_eq_some_iff.mp hcurrent
      rw [Option.map_some, currentLine?_eq_some_iff]
      omega

/-- Behind the blank line the cursor still stands at the same place. -/
theorem Shifted.jumpTo_of_blank (h : context.Shifted k context')
    (hblank : context'.currentLine? = some k) :
    context.Shifted k (context'.jumpTo (k + 1)) := by
  obtain ⟨hat, hlt⟩ := currentLine?_eq_some_iff.mp hblank
  refine ⟨h.block, ?_⟩
  have hplace := h.place
  simp only [Context.jumpTo]
  unfold Shifts at *
  omega

end Context

/-- A repetition and what it has become. -/
structure Repetition.Shifted (k : Nat) (repetition repetition' : Repetition) : Prop where
  body : repetition.body.Shifted k repetition'.body
  times : repetition'.times = repetition.times
  next : Shifts k repetition.next repetition'.next

/-- A frame and what it has become. -/
structure Frame.Shifted (k : Nat) (frame frame' : Frame) : Prop where
  context : frame.context.Shifted k frame'.context
  repetition : Option.Rel (Repetition.Shifted k) frame.repetition frame'.repetition

namespace Frame

variable {k : Nat} {frame frame' : Frame}

theorem shifted_ofBlock {block block' : Block} (h : block.Shifted k block') :
    (ofBlock block).Shifted k (ofBlock block') :=
  ⟨Context.shifted_ofBlock h, .none⟩

theorem Shifted.jumpTo (h : frame.Shifted k frame') {next next' : Nat}
    (hnext : Shifts k next next') : (frame.jumpTo next).Shifted k (frame'.jumpTo next') :=
  ⟨h.context.jumpTo hnext, .none⟩

end Frame

/-- Machines that run a program without the blank line and with it. -/
structure Machine.Shifted (program : Program) (k : Nat) (machine machine' : Machine) : Prop where
  plain : machine.program = program
  spaced : machine'.program = program.withBlank k
  store : machine'.store = machine.store
  stack : List.Forall₂ (Frame.Shifted k) machine.stack machine'.stack

/-- Steps that make the same call and lead to related machines. -/
inductive Step.Shifted (program : Program) (k : Nat) : Step → Step → Prop where
  | silent {next next' : Machine} (h : next.Shifted program k next') :
      Shifted program k (.silent next) (.silent next')
  | append (text : String) {next next' : Machine} (h : next.Shifted program k next') :
      Shifted program k (.append text next) (.append text next')
  | request (prompt : String) {next next' : String → Machine}
      (h : ∀ reply, (next reply).Shifted program k (next' reply)) :
      Shifted program k (.request prompt next) (.request prompt next')
  | finished : Shifted program k .finished .finished
  | failed (fault : Fault) : Shifted program k (.failed fault) (.failed (fault.shift k))

namespace Machine.Shifted

variable {program : Program} {k : Nat} {machine machine' : Machine} {frame frame' : Frame}
  {below below' : List Frame}

theorem iterate (h : machine.Shifted program k machine') (hframe : frame.Shifted k frame')
    (hbelow : List.Forall₂ (Frame.Shifted k) below below') {repetition repetition' : Repetition}
    (hrepetition : repetition.Shifted k repetition') :
    (machine.iterate frame below repetition).Shifted program k
      (machine'.iterate frame' below' repetition') := by
  obtain ⟨body, times, next⟩ := repetition
  obtain ⟨body', times', next'⟩ := repetition'
  obtain ⟨hbody, rfl, hnext⟩ := hrepetition
  cases times' with
  | zero => exact ⟨h.plain, h.spaced, h.store, .cons (hframe.jumpTo hnext) hbelow⟩
  | succ more =>
    have hwaiting : Frame.Shifted k
        { frame with repetition := some ⟨body, more, next⟩ }
        { frame' with repetition := some ⟨body', more, next'⟩ } :=
      ⟨hframe.context, .some ⟨hbody, rfl, hnext⟩⟩
    exact ⟨h.plain, h.spaced, h.store,
      .cons (Frame.shifted_ofBlock hbody) (.cons hwaiting hbelow)⟩

theorem perform (h : machine.Shifted program k machine') (hframe : frame.Shifted k frame')
    (hbelow : List.Forall₂ (Frame.Shifted k) below below') {action action' : Action}
    (haction : action.Shifted k action') :
    Step.Shifted program k (machine.perform frame below action)
      (machine'.perform frame' below' action') := by
  cases haction with
  | proceed store hnext =>
    exact .silent ⟨h.plain, h.spaced, rfl, .cons (hframe.jumpTo hnext) hbelow⟩
  | print text hnext =>
    exact .append text ⟨h.plain, h.spaced, h.store, .cons (hframe.jumpTo hnext) hbelow⟩
  | request prompt name hnext =>
    exact .request prompt fun reply => ⟨h.plain, h.spaced,
      congrArg (·.set name (.ofInput reply)) h.store, .cons (hframe.jumpTo hnext) hbelow⟩
  | @enter body body' times next next' hbody hnext =>
    have hentered : Frame.Shifted k { frame with repetition := some ⟨body, times, next⟩ }
        { frame' with repetition := some ⟨body', times, next'⟩ } :=
      ⟨hframe.context, .some ⟨hbody, rfl, hnext⟩⟩
    exact .silent ⟨h.plain, h.spaced, h.store, .cons hentered hbelow⟩

/-- The second machine passes over the blank line. -/
theorem step_blank (hk : k ≤ program.length) (h : machine.Shifted program k machine')
    (hstack : machine.stack = frame :: below) (hrepetition : frame.repetition = none)
    (hframe : frame.Shifted k frame') (hbelow : List.Forall₂ (Frame.Shifted k) below below')
    (hat : machine'.At frame' below' k) :
    ∃ next', machine'.step = .silent next' ∧ machine.Shifted program k next' := by
  have haction := Program.action_withBlank_self hk machine'.store frame'.context.block.stop
  rw [← h.spaced] at haction
  have hpassed : frame.Shifted k (frame'.jumpTo (k + 1)) :=
    ⟨hframe.context.jumpTo_of_blank hat.current, hrepetition ▸ .none⟩
  exact ⟨_, hat.step_of_ok haction, h.plain, h.spaced, h.store,
    hstack ▸ .cons hpassed hbelow⟩

/-- Both machines execute a line of the program. -/
theorem step_line (hsplit : program.MaySplit k) (h : machine.Shifted program k machine')
    (hframe : frame.Shifted k frame') (hbelow : List.Forall₂ (Frame.Shifted k) below below')
    {line : Nat} (hat : machine.At frame below line)
    (hat' : machine'.At frame' below' (shift k line)) :
    Step.Shifted program k machine.step machine'.step := by
  have hline := (Context.currentLine?_eq_some_iff.mp hat.current).2
  have hresults := Program.action_withBlank hsplit hline machine.store
  rw [← hframe.context.block.stop, ← h.spaced, ← h.plain] at hresults
  generalize haction : machine.program.action machine.store frame.context.block.stop line =
    result at hresults
  generalize haction' : machine'.program.action machine.store frame'.context.block.stop
    (shift k line) = result' at hresults
  rw [← h.store] at haction'
  cases hresults with
  | ok hshifted =>
    rw [hat.step_of_ok haction, hat'.step_of_ok haction']
    exact h.perform hframe hbelow hshifted
  | error fault =>
    rw [hat.step_of_error haction, hat'.step_of_error haction']
    exact .failed fault

/-- **Related machines take the same step**, unless the second is at the blank line and
passes over it. -/
theorem step (hsplit : program.MaySplit k) (h : machine.Shifted program k machine') :
    (∃ next', machine'.step = .silent next' ∧ machine.Shifted program k next') ∨
      Step.Shifted program k machine.step machine'.step := by
  have hstacks := h.stack
  cases hstack : machine.stack with
  | nil =>
    rw [hstack] at hstacks
    rw [step_of_stack_nil hstack, step_of_stack_nil (List.forall₂_nil_left_iff.mp hstacks)]
    exact .inr .finished
  | cons frame below =>
    rw [hstack] at hstacks
    obtain ⟨frame', below', hframe, hbelow, hstack'⟩ := List.forall₂_cons_left_iff.mp hstacks
    have hrepetitions := hframe.repetition
    generalize hrepetition : frame.repetition = left at hrepetitions
    generalize hrepetition' : frame'.repetition = right at hrepetitions
    cases hrepetitions with
    | some hshifted =>
      rw [step_of_repetition hstack hrepetition, step_of_repetition hstack' hrepetition']
      exact .inr (.silent (h.iterate hframe hbelow hshifted))
    | none =>
      rcases hframe.context.currentLine? with hblank | hcurrent'
      · exact .inl (h.step_blank hsplit.1 hstack hrepetition hframe hbelow
          ⟨hstack', hrepetition', hblank⟩)
      · right
        cases hcurrent : frame.context.currentLine? with
        | none =>
          rw [hcurrent] at hcurrent'
          rw [step_of_over hstack hrepetition hcurrent,
            step_of_over hstack' hrepetition' hcurrent']
          exact .silent ⟨h.plain, h.spaced, h.store, hbelow⟩
        | some line =>
          rw [hcurrent] at hcurrent'
          exact h.step_line hsplit hframe hbelow ⟨hstack, hrepetition, hcurrent⟩
            ⟨hstack', hrepetition', hcurrent'⟩

end Machine.Shifted

/-! ## Related runs -/

namespace Machine

variable {program : Program} {k : Nat} {machine machine' : Machine}

/-- **Related machines have the same run** but for the lines of faults: in every host they
make the same calls, with the same variables in the end. -/
theorem Shifted.run_eq {m : Type → Type} [Monad m] [LawfulMonad m] [Host m]
    (hsplit : program.MaySplit k) (h : machine.Shifted program k machine') :
    Prod.map Machine.store id <$> (machine'.run : m Outcome) =
      Prod.map Machine.store (Except.mapError (Fault.shift k)) <$> machine.run := by
  induction hweight : machine'.weight using Nat.strongRecOn generalizing machine machine' with
  | ind weight ih =>
    subst hweight
    rcases h.step hsplit with ⟨next', hstep', hnext⟩ | hsteps
    · rw [run_of_silent hstep']
      exact ih _ (weight_lt_of_leads (hstep' ▸ .silent next')) hnext rfl
    · generalize hstep : machine.step = step at hsteps
      generalize hstep' : machine'.step = step' at hsteps
      cases hsteps with
      | @silent next next' hnext =>
        rw [run_of_silent hstep, run_of_silent hstep']
        exact ih _ (weight_lt_of_leads (hstep' ▸ .silent next')) hnext rfl
      | @append text next next' hnext =>
        rw [run_of_append hstep, run_of_append hstep', map_bind, map_bind]
        congr 1
        funext _
        exact ih _ (weight_lt_of_leads (hstep' ▸ .append text next')) hnext rfl
      | @request prompt next next' hnext =>
        rw [run_of_request hstep, run_of_request hstep', map_bind, map_bind]
        congr 1
        funext reply
        exact ih _ (weight_lt_of_leads (hstep' ▸ .request prompt next' reply)) (hnext reply) rfl
      | finished =>
        rw [run_of_finished hstep, run_of_finished hstep', map_pure, map_pure, Prod.map,
          Prod.map, h.store]
        rfl
      | failed fault =>
        rw [run_of_failed hstep, run_of_failed hstep', map_pure, map_pure, Prod.map, Prod.map,
          unwound, unwound, h.store]
        rfl

/-- A run on a host that keeps a transcript, and the run with the blank line. -/
theorem Shifted.exists_run_eq {σ : Type} [Host (StateM σ)] (hsplit : program.MaySplit k)
    (h : machine.Shifted program k machine') {host host' : σ} {transcript transcript' : Transcript}
    {last : Machine} {result : Except Fault Unit}
    (hrun : (machine.run : StateT Transcript (StateM σ) Outcome) transcript host =
      (((last, result), transcript'), host')) :
    ∃ last' : Machine, last'.store = last.store ∧
      (machine'.run : StateT Transcript (StateM σ) Outcome) transcript host =
        (((last', result.mapError (Fault.shift k)), transcript'), host') := by
  have hmap {α : Type} (view : Outcome → α) (run : StateT Transcript (StateM σ) Outcome) :
      (view <$> run) transcript host =
        Prod.map (Prod.map view id) id (run transcript host) := rfl
  have hruns := congrFun (congrFun
    (h.run_eq (m := StateT Transcript (StateM σ)) hsplit) transcript) host
  rw [hmap, hmap, hrun] at hruns
  generalize (machine'.run : StateT Transcript (StateM σ) Outcome) transcript host = ran at hruns ⊢
  obtain ⟨⟨⟨last', result'⟩, made⟩, after⟩ := ran
  have hparts : (((last'.store, result'), made), after) =
      (((last.store, result.mapError (Fault.shift k)), transcript'), host') := hruns
  simp only [Prod.mk.injEq] at hparts
  obtain ⟨⟨⟨hstore, rfl⟩, rfl⟩, rfl⟩ := hparts
  exact ⟨last', hstore, rfl⟩

/-- The machines at the start of a run are related. -/
theorem start_shifted {source spaced : String}
    (hspaced : Program.ofSource spaced = (Program.ofSource source).withBlank k)
    (hk : k ≤ (Program.ofSource source).length) :
    (start source).Shifted (Program.ofSource source) k (start spaced) := by
  have hlength : (Program.ofSource spaced).length = shift k (Program.ofSource source).length := by
    rw [hspaced, Program.withBlank, List.length_insertIdx_of_le_length hk, shift_of_le hk]
  have hwhole : Block.Shifted k ⟨0, (Program.ofSource source).length⟩
      ⟨0, (Program.ofSource spaced).length⟩ :=
    ⟨.inl ⟨rfl, Nat.zero_le k⟩, hlength, Nat.zero_le _⟩
  exact ⟨rfl, hspaced, rfl, .cons (Frame.shifted_ofBlock hwhole) .nil⟩

end Machine

/-! ## Sources with a blank line more -/

/-- A source with the lines of another and a blank line in front of line `k`. -/
def HasBlankAt (spaced source : String) (k : Nat) : Prop :=
  Text.lines spaced.toList = (Text.lines source.toList).insertIdx k []

/-- A blank line can be put in front of any line of a source, and after the last. -/
theorem exists_hasBlankAt (source : String) {k : Nat}
    (hk : k ≤ (Text.lines source.toList).length) : ∃ spaced, HasBlankAt spaced source k := by
  have hlines : ∀ line ∈ (Text.lines source.toList).insertIdx k [], '\n' ∉ line := by
    intro line hmem
    rcases (List.mem_insertIdx hk).mp hmem with rfl | hline
    · exact List.not_mem_nil
    · exact Text.newline_not_mem_of_mem_lines line hline
  obtain ⟨text, htext⟩ := Text.exists_lines_eq hlines
  exact ⟨String.ofList text, by rw [HasBlankAt, String.toList_ofList, htext]⟩

theorem HasBlankAt.ofSource_eq {spaced source : String} {k : Nat} (h : HasBlankAt spaced source k) :
    Program.ofSource spaced = (Program.ofSource source).withBlank k := by
  rw [Program.ofSource, Program.ofSource, h, List.map_insertIdx]
  rfl

/-- The program of a source may be split in front of a line that starts no second block. -/
theorem maySplit_ofSource {source : String} {k : Nat}
    (hk : k ≤ (Text.lines source.toList).length)
    (hnoElse : ∀ line ∈ (Text.lines source.toList)[k]?, startsElse line = false) :
    (Program.ofSource source).MaySplit k := by
  constructor
  · rwa [Program.ofSource, List.length_map]
  · intro line hline
    rw [Program.ofSource, List.getElem?_map] at hline
    obtain ⟨text, htext, rfl⟩ := Option.map_eq_some_iff.mp hline
    exact hnoElse text htext

namespace Interpreter

variable {σ : Type} [Host (StateM σ)]

/-- The calls that end a run: the report of its fault, if there is one. -/
def closingCalls : Except Fault Unit → List HostCall
  | .ok () => []
  | .error fault => reportCalls fault

/-- **A blank line only shifts the numbers of lines.**  It can be put in front of every
line and behind the last one.  If that line does not start the second block of a
conditional, then in every host the two runs make the same calls until they end, with the
same replies; the variables are the same; and both succeed, or both fail with the same
cause, on a line that has moved down by one if it stands behind the blank line.  What the
report marks and names has moved with it. -/
theorem observe_blankLine (source : String) {k : Nat}
    (hk : k ≤ (Text.lines source.toList).length)
    (hnoElse : ∀ line ∈ (Text.lines source.toList)[k]?, startsElse line = false)
    (previous : Machine) (host : σ) :
    (∃ spaced, HasBlankAt spaced source k) ∧
      ∀ spaced, HasBlankAt spaced source k →
        let plainRun := observe source previous host
        let spacedRun := observe spaced previous host
        spacedRun.result = plainRun.result.mapError (Fault.shift k) ∧
          spacedRun.machine.store = plainRun.machine.store ∧
          (plainRun.result = .ok () → spacedRun.host = plainRun.host) ∧
          ∃ calls, (∀ line, .mark line ∉ calls) ∧
            plainRun.calls = calls ++ closingCalls plainRun.result ∧
            spacedRun.calls = calls ++ closingCalls spacedRun.result := by
  refine ⟨exists_hasBlankAt source hk, fun spaced hspaced => ?_⟩
  have hsplit := maySplit_ofSource hk hnoElse
  have hstart := Machine.start_shifted hspaced.ofSource_eq hsplit.1
  obtain ⟨calls, last, ⟨final, result⟩, host', hreaches, -, hrun⟩ :=
    (Machine.start source).run_reaches #[] host
  rw [Array.empty_append] at hrun
  obtain ⟨final', hstore, hrun'⟩ := hstart.exists_run_eq hsplit hrun
  cases result with
  | ok _ =>
    rw [observe_of_ok previous hrun, observe_of_ok previous hrun']
    exact ⟨rfl, hstore, fun _ => rfl, calls, hreaches.mark_not_mem, (List.append_nil _).symm,
      (List.append_nil _).symm⟩
  | error fault =>
    obtain ⟨told, hobserve⟩ := observe_of_error previous hrun
    obtain ⟨told', hobserve'⟩ := observe_of_error previous hrun'
    rw [hobserve, hobserve']
    exact ⟨rfl, hstore, nofun, calls, hreaches.mark_not_mem, rfl, rfl⟩

/-- A blank line right below the header of a loop whose body fails. -/
theorem observe_blankLine_inLoop :
    let source := "반복 2 \x7b\n출력(1)\n없음\n\x7d"
    let spaced := "반복 2 \x7b\n\n출력(1)\n없음\n\x7d"
    let plainRun := observe source .idle (Buffer.ofInputs [])
    let spacedRun := observe spaced .idle (Buffer.ofInputs [])
    1 ≤ (Text.lines source.toList).length ∧
      (∀ line ∈ (Text.lines source.toList)[1]?, startsElse line = false) ∧
        HasBlankAt spaced source 1 ∧
          spacedRun.result = plainRun.result.mapError (Fault.shift 1) ∧
            spacedRun.machine.store = plainRun.machine.store := by
  intro source spaced plainRun spacedRun
  have hk : 1 ≤ (Text.lines source.toList).length := by decide
  have hnoElse : ∀ line ∈ (Text.lines source.toList)[1]?, startsElse line = false := by decide
  have hspaced : HasBlankAt spaced source 1 := by
    unfold HasBlankAt
    decide
  obtain ⟨-, hruns⟩ := observe_blankLine source hk hnoElse .idle (Buffer.ofInputs [])
  obtain ⟨hresult, hstore, -, -⟩ := hruns spaced hspaced
  exact ⟨hk, hnoElse, hspaced, hresult, hstore⟩

end Interpreter

end KoreanScript
