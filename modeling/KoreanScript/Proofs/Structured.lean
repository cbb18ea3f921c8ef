import KoreanScript.Proofs.Runs

/-!
# Structured programs

The machine never builds a tree: whenever a header is executed it looks again for
the end of its block.  This module shows that it always finds the block that the
nesting of the lines means.

A list of lines is structured when it is put together from lines without braces
and from blocks.  A block is a header with an opening brace, a structured body and
a closing line; a conditional may have a second block right after the first, and
one that has none is not followed by a line that could start it.  The tree of a
structured list has a meaning of its own, by recursion over the tree: statements
one after the other, one of two bodies, a body several times over.

The main theorem says that running the lines is that meaning.  In every host, and
so with every sequence of replies, it makes the same host calls, leaves the same
variables, and succeeds or fails with the same fault on the same line.
-/

set_option autoImplicit false

namespace KoreanScript

/-! ## Trees of lines -/

/-- A line that goes one level in and none out. -/
structure OpensBlock (line : List Char) : Prop where
  opening : '{' ∈ line
  noClosing : '}' ∉ line

/-- A line that goes one level out and none in. -/
structure ClosesBlock (line : List Char) : Prop where
  closing : '}' ∈ line
  noOpening : '{' ∉ line

/-- Whether a statement is executed without a block. -/
def Statement.isSimple : Statement → Bool
  | .conditional _ | .loop _ => false
  | .empty | .print _ | .input _ _ | .assignment _ _ | .unrecognized _ => true

/-- A line whose statement needs no block and that has no braces. -/
structure SimpleLine (line : List Char) : Prop where
  statement : (Statement.ofLine line).isSimple = true
  noOpening : '{' ∉ line
  noClosing : '}' ∉ line

instance (line : List Char) : Decidable (OpensBlock line) :=
  have hiff : ('{' ∈ line ∧ '}' ∉ line) ↔ OpensBlock line :=
    ⟨fun h => ⟨h.1, h.2⟩, fun h => ⟨h.opening, h.noClosing⟩⟩
  decidable_of_decidable_of_iff hiff

instance (line : List Char) : Decidable (ClosesBlock line) :=
  have hiff : ('}' ∈ line ∧ '{' ∉ line) ↔ ClosesBlock line :=
    ⟨fun h => ⟨h.1, h.2⟩, fun h => ⟨h.closing, h.noOpening⟩⟩
  decidable_of_decidable_of_iff hiff

instance (line : List Char) : Decidable (SimpleLine line) :=
  have hiff : ((Statement.ofLine line).isSimple = true ∧ '{' ∉ line ∧ '}' ∉ line) ↔
      SimpleLine line :=
    ⟨fun h => ⟨h.1, h.2.1, h.2.2⟩, fun h => ⟨h.statement, h.noOpening, h.noClosing⟩⟩
  decidable_of_decidable_of_iff hiff

/-- The trees of structured lists of lines. -/
inductive Structured : List (List Char) → Type where
  /-- No lines. -/
  | done : Structured []
  /-- A line without a block. -/
  | simple {rest : List (List Char)} (line : List Char) (isSimple : SimpleLine line)
      (tail : Structured rest) : Structured (line :: rest)
  /-- A conditional with one block, and after it no line that starts a second one. -/
  | conditional {body rest : List (List Char)} {header closing condition : List Char}
      (statement : Statement.ofLine header = .conditional condition)
      (opens : OpensBlock header) (first : Structured body) (closes : ClosesBlock closing)
      (noElse : ∀ line ∈ rest.head?, startsElse line = false)
      (tail : Structured rest) : Structured (header :: body ++ closing :: rest)
  /-- A conditional with two blocks. -/
  | alternative {body other rest : List (List Char)}
      {header closing middle last condition : List Char}
      (statement : Statement.ofLine header = .conditional condition)
      (opens : OpensBlock header) (first : Structured body) (closes : ClosesBlock closing)
      (isElse : startsElse middle = true) (opensElse : OpensBlock middle)
      (second : Structured other) (closesElse : ClosesBlock last)
      (tail : Structured rest) :
      Structured (header :: body ++ closing :: (middle :: other ++ last :: rest))
  /-- A loop. -/
  | loop {body rest : List (List Char)} {header closing count : List Char}
      (statement : Statement.ofLine header = .loop count)
      (opens : OpensBlock header) (first : Structured body) (closes : ClosesBlock closing)
      (tail : Structured rest) : Structured (header :: body ++ closing :: rest)

/-! ## The meaning of a tree -/

/-- Computations that read and write variables, call a host and may fail.  A failure
leaves the variables as they are. -/
abbrev Execution (m : Type → Type) := ExceptT Fault (StateT Store m)

namespace Execution

variable {m : Type → Type} [Monad m]

/-- Computes something from the variables; an error is a fault on line `number`. -/
def attempt {α : Type} (number : Nat) (compute : Store → Except Cause α) : Execution m α := do
  let store ← get
  MonadExcept.ofExcept (locate number (compute store))

/-- A computation several times over. -/
def times (body : Execution m Unit) : Nat → Execution m Unit
  | 0 => pure ()
  | count + 1 => do
    body
    body.times count

end Execution

section Meaning

variable {m : Type → Type} [Monad m] [Host m]

/-- The meaning of a statement on line `number`, the headers of blocks left out. -/
def Statement.execute (number : Nat) : Statement → Execution m Unit
  | .empty => pure ()
  | .print expression => do
    let value ← Execution.attempt number (evaluate · expression)
    (Host.append (value.render ++ "\n") : m Unit)
  | .input name prompt => do
    let reply ← (Host.requestLine prompt : m String)
    modify (·.set name (.ofInput reply))
  | .assignment name expression => do
    let value ← Execution.attempt number (evaluate · expression)
    modify (·.set name value)
  | .unrecognized code => throw ⟨number, .unrecognizedStatement (String.ofList code)⟩
  | .conditional _ | .loop _ => pure ()

/-- The number of iterations that the text of a count asks for. -/
def iterations (count : List Char) : Except Cause Nat :=
  match Number.count? count with
  | some times => .ok times
  | none => .error (.invalidCount (String.ofList count))

/-- **The meaning of a tree** whose first line is line `number` of the source. -/
def Structured.execute {lines : List (List Char)} (tree : Structured lines) (number : Nat) :
    Execution m Unit :=
  match tree with
  | .done => pure ()
  | .simple line _ tail => do
    (Statement.ofLine line).execute number
    tail.execute (number + 1)
  | @conditional body _ _ _ condition _ _ first _ _ tail => do
    let holds ← Execution.attempt number (evaluateCondition · condition)
    (if holds then first.execute (number + 1) else pure ())
    tail.execute (number + body.length + 2)
  | @alternative body other _ _ _ _ _ condition _ _ first _ _ _ second _ tail => do
    let holds ← Execution.attempt number (evaluateCondition · condition)
    (if holds then first.execute (number + 1) else second.execute (number + body.length + 3))
    tail.execute (number + body.length + other.length + 4)
  | @loop body _ _ _ count _ _ first _ tail => do
    let count ← Execution.attempt number fun _ => iterations count
    (first.execute (number + 1)).times count
    tail.execute (number + body.length + 2)

end Meaning

/-! ## Computations continued by a run -/

namespace Execution

variable {m : Type → Type} [Monad m] {α β : Type}

/-- A computation with what a run does after it; the run ends where it fails. -/
def runThen (execution : Execution m α) (program : Program) (next : α → Store → m Outcome)
    (store : Store) : m Outcome := do
  let (result, after) ← execution.run.run store
  match result with
  | .ok value => next value after
  | .error fault => pure (⟨program, after, []⟩, .error fault)

variable [LawfulMonad m] (program : Program) (store : Store)

theorem runThen_pure (value : α) (next : α → Store → m Outcome) :
    (pure value : Execution m α).runThen program next store = next value store := by
  simp [runThen]

theorem runThen_bind (first : Execution m α) (second : α → Execution m β)
    (next : β → Store → m Outcome) :
    (first >>= second).runThen program next store =
      first.runThen program (fun value => (second value).runThen program next) store := by
  simp only [runThen, ExceptT.run_bind, StateT.run_bind, bind_assoc]
  congr 1
  funext ⟨result, after⟩
  cases result with
  | ok value => rfl
  | error fault => simp

theorem runThen_throw (fault : Fault) (next : α → Store → m Outcome) :
    (throw fault : Execution m α).runThen program next store =
      pure (⟨program, store, []⟩, .error fault) := by
  simp [runThen]

theorem runThen_get (next : Store → Store → m Outcome) :
    (get : Execution m Store).runThen program next store = next store store := by
  have hrun : (get : Execution m Store).run = Except.ok <$> get := rfl
  simp [runThen, hrun]

theorem runThen_modify (change : Store → Store) (next : Unit → Store → m Outcome) :
    (modify change : Execution m Unit).runThen program next store = next () (change store) := by
  have hrun : (modify change : Execution m Unit).run = Except.ok <$> modify change := rfl
  simp [runThen, hrun]

theorem runThen_lift (action : m α) (next : α → Store → m Outcome) :
    (liftM action : Execution m α).runThen program next store =
      action >>= fun value => next value store := by
  have hrun : (liftM action : Execution m α).run = Except.ok <$> liftM action := rfl
  simp [runThen, hrun]

theorem runThen_attempt (number : Nat) (compute : Store → Except Cause α)
    (next : α → Store → m Outcome) :
    (attempt number compute).runThen program next store =
      match compute store with
      | .ok value => next value store
      | .error cause => pure (⟨program, store, []⟩, .error ⟨number, cause⟩) := by
  rw [attempt, runThen_bind, runThen_get]
  cases compute store with
  | ok value => exact runThen_pure program store value next
  | error cause => exact runThen_throw program store ⟨number, cause⟩ next

theorem runThen_times_one (body : Execution m Unit) (next : Unit → Store → m Outcome) :
    (body.times 1).runThen program next store = body.runThen program next store := by
  have hpure : (pure () : Execution m Unit).runThen program next = next () := by
    funext after
    exact runThen_pure program after () next
  simp only [times, runThen_bind, hpure]

/-- A body that is executed once or not at all. -/
theorem runThen_times_ite (body : Execution m Unit) (holds : Bool)
    (next : Unit → Store → m Outcome) :
    (body.times (if holds then 1 else 0)).runThen program next store =
      (if holds then body else pure ()).runThen program next store := by
  cases holds with
  | false => rfl
  | true => exact runThen_times_one program store body next

end Execution

/-! ## Where the lines of a tree stand -/

/-- The lines of a program from `start` on begin with some lines. -/
def Program.HasAt (program : Program) (start : Nat) (lines : List (List Char)) : Prop :=
  lines.map Line.ofText <+: program.drop start

namespace Program.HasAt

variable {program : Program} {start : Nat}

theorem left {lines more : List (List Char)} (h : program.HasAt start (lines ++ more)) :
    program.HasAt start lines := by
  rw [HasAt, List.map_append] at h
  exact (List.prefix_append _ _).trans h

theorem right {lines more : List (List Char)} (h : program.HasAt start (lines ++ more)) :
    program.HasAt (start + lines.length) more := by
  obtain ⟨rest, hrest⟩ := h
  refine ⟨rest, ?_⟩
  rw [← List.drop_drop, ← hrest]
  simp

theorem tail {line : List Char} {more : List (List Char)} (h : program.HasAt start (line :: more)) :
    program.HasAt (start + 1) more := by
  rw [← List.singleton_append] at h
  exact h.right

theorem getElem? {line : List Char} {more : List (List Char)}
    (h : program.HasAt start (line :: more)) : program[start]? = some (.ofText line) := by
  obtain ⟨rest, hrest⟩ := h
  rw [← List.head?_drop, ← hrest]
  rfl

/-- What a scan that ends with some lines looks at, from where they start. -/
theorem take_drop {lines : List (List Char)} (h : program.HasAt start lines) :
    (program.take (start + lines.length)).drop start = lines.map Line.ofText := by
  rw [List.drop_take, Nat.add_sub_cancel_left]
  simpa using (List.prefix_iff_eq_take.mp h).symm

end Program.HasAt

/-! ## The scan for the end of a block -/

theorem OpensBlock.balance {line : List Char} (h : OpensBlock line) :
    (Line.ofText line).balance = 1 := by
  simp [Line.ofText, Line.balance, h.opening, h.noClosing]

theorem ClosesBlock.balance {line : List Char} (h : ClosesBlock line) :
    (Line.ofText line).balance = -1 := by
  simp [Line.ofText, Line.balance, h.closing, h.noOpening]

theorem SimpleLine.balance {line : List Char} (h : SimpleLine line) :
    (Line.ofText line).balance = 0 := by
  simp [Line.ofText, Line.balance, h.noClosing, h.noOpening]

theorem linesToClose_of_pos {level : Int} {line : Line} (h : 0 < level + line.balance)
    (rest : List Line) :
    linesToClose level (line :: rest) = linesToClose (level + line.balance) rest + 1 := by
  rw [linesToClose, if_neg (by omega)]

theorem linesToClose_of_nonpos {level : Int} {line : Line} (h : level + line.balance ≤ 0)
    (rest : List Line) : linesToClose level (line :: rest) = 0 := by
  rw [linesToClose, if_pos h]

/-- Lines that a scan inside a block passes over, coming out on the level it came from. -/
def KeepsLevel (lines : List (List Char)) : Prop :=
  ∀ level : Int, 0 < level → ∀ rest : List Line,
    linesToClose level (lines.map Line.ofText ++ rest) = linesToClose level rest + lines.length

namespace KeepsLevel

theorem nil : KeepsLevel [] := fun _ _ _ => rfl

theorem append {lines more : List (List Char)} (h : KeepsLevel lines) (hmore : KeepsLevel more) :
    KeepsLevel (lines ++ more) := by
  intro level hlevel rest
  rw [List.map_append, List.append_assoc, h level hlevel, hmore level hlevel, List.length_append]
  omega

theorem simple {line : List Char} (h : SimpleLine line) : KeepsLevel [line] := by
  intro level hlevel rest
  have hbalance := h.balance
  rw [List.map_singleton, List.singleton_append, linesToClose_of_pos (by omega), hbalance,
    Int.add_zero]
  rfl

theorem block {header closing : List Char} {body : List (List Char)} (opens : OpensBlock header)
    (hbody : KeepsLevel body) (closes : ClosesBlock closing) :
    KeepsLevel (header :: body ++ [closing]) := by
  intro level hlevel rest
  have hopen := opens.balance
  have hclose := closes.balance
  have hlevels : level + 1 + -1 = level := by omega
  simp only [List.cons_append, List.map_cons, List.map_append, List.map_nil, List.append_assoc,
    List.nil_append]
  rw [linesToClose_of_pos (by omega), hopen, hbody _ (by omega), linesToClose_of_pos (by omega),
    hclose, hlevels]
  simp only [List.length_cons, List.length_append, List.length_nil]
  omega

end KeepsLevel

/-- **A scan inside a block passes over structured lines.** -/
theorem Structured.keepsLevel {lines : List (List Char)} (tree : Structured lines) :
    KeepsLevel lines := by
  induction tree with
  | done => exact .nil
  | simple line isSimple _ ih => exact (KeepsLevel.simple isSimple).append ih
  | conditional _ opens _ closes _ _ ihFirst ihTail =>
    simpa using (KeepsLevel.block opens ihFirst closes).append ihTail
  | alternative _ opens _ closes _ opensElse _ closesElse _ ihFirst ihSecond ihTail =>
    simpa using ((KeepsLevel.block opens ihFirst closes).append
      (KeepsLevel.block opensElse ihSecond closesElse)).append ihTail
  | loop _ opens _ closes _ ihFirst ihTail =>
    simpa using (KeepsLevel.block opens ihFirst closes).append ihTail

namespace Program

variable {program : Program} {start limit : Nat}

section Block

variable {header closing : List Char} {body rest : List (List Char)} (opens : OpensBlock header)
  (hbody : KeepsLevel body) (closes : ClosesBlock closing)
  (h : program.HasAt start (header :: body ++ closing :: rest))
  (hlimit : limit = start + (header :: body ++ closing :: rest).length)
include opens hbody closes h hlimit

/-- **The block of a header ends where its nesting says.** -/
theorem blockEnd_eq : program.blockEnd start limit = start + body.length + 1 := by
  have hopen := opens.balance
  have hclose := closes.balance
  rw [blockEnd, hlimit, h.take_drop]
  simp only [List.cons_append, List.map_cons, List.map_append]
  rw [linesToClose_of_pos (by omega), hopen, hbody _ (by omega),
    linesToClose_of_nonpos (by omega)]
  omega

theorem body_eq : program.body start limit = ⟨start + 1, start + 1 + body.length⟩ := by
  rw [Program.body, blockEnd_eq opens hbody closes h hlimit]
  simp only [Block.mk.injEq]
  omega

end Block

theorem elseHeader?_eq_none {stop : Nat} {rest : List (List Char)}
    (h : program.HasAt (stop + 1) rest) (hlimit : limit = stop + 1 + rest.length)
    (noElse : ∀ line ∈ rest.head?, startsElse line = false) :
    program.elseHeader? stop limit = none := by
  cases rest with
  | nil =>
    rw [elseHeader?, if_neg]
    simp only [List.length_nil] at hlimit
    simp [hlimit]
  | cons next more =>
    have hnext := noElse next (by simp)
    rw [elseHeader?, if_neg]
    simp [h.getElem?, Line.ofText, hnext]

theorem elseHeader?_eq_some_of_startsElse {stop : Nat} {middle : List Char}
    {rest : List (List Char)} (h : program.HasAt (stop + 1) (middle :: rest))
    (hlimit : limit = stop + 1 + (middle :: rest).length) (isElse : startsElse middle = true) :
    program.elseHeader? stop limit = some (stop + 1) := by
  rw [elseHeader?, if_pos]
  simp [h.getElem?, Line.ofText, isElse, hlimit]

end Program

/-! ## The machine on a line -/

/-- The frame of a block that goes on with a line. -/
def Frame.onLine (block : Block) (line : Nat) : Frame :=
  ⟨⟨block, line - block.start⟩, none⟩

theorem Frame.ofBlock_eq_onLine (block : Block) : ofBlock block = onLine block block.start := by
  simp [ofBlock, onLine, Context.ofBlock]

theorem Frame.jumpTo_eq_onLine {frame : Frame} {line : Nat}
    (hstart : frame.context.block.start ≤ line) (hstop : line ≤ frame.context.block.stop) :
    frame.jumpTo line = onLine frame.context.block line := by
  simp only [jumpTo, Context.jumpTo, onLine, Nat.max_eq_left hstart, Nat.min_eq_left hstop]

namespace Machine

/-- The machine that goes on with a line of a block, above some other frames. -/
def onLine (program : Program) (block : Block) (below : List Frame) (line : Nat) (store : Store) :
    Machine :=
  ⟨program, store, .onLine block line :: below⟩

variable {program : Program} {block : Block} {line : Nat} (below : List Frame) (store : Store)

theorem step_onLine_stop :
    (onLine program block below block.stop store).step = .silent ⟨program, store, below⟩ := by
  refine step_of_over rfl rfl (Context.currentLine?_eq_none_iff.mpr ?_)
  simp only [Frame.onLine]
  omega

section Line

variable (hstart : block.start ≤ line) (hstop : line < block.stop) {text : List Char}
  (htext : program[line]? = some (.ofText text))
include hstart hstop

theorem onLine_at :
    (onLine program block below line store).At (.onLine block line) below line where
  stack := rfl
  repetition := rfl
  current := Context.currentLine?_eq_some_iff.mpr ⟨(Nat.add_sub_of_le hstart).symm, hstop⟩

include htext

theorem step_onLine_of_ok {action : Action}
    (haction : program.actionOf store block.stop line (.ofLine text) = .ok action) :
    (onLine program block below line store).step =
      (onLine program block below line store).perform (.onLine block line) below action := by
  refine (onLine_at below store hstart hstop).step_of_ok ?_
  simp only [onLine, Frame.onLine, Program.action, htext, Line.ofText, haction, locate]

theorem step_onLine_of_error {cause : Cause}
    (hcause : program.actionOf store block.stop line (.ofLine text) = .error cause) :
    (onLine program block below line store).step = .failed ⟨line + 1, cause⟩ := by
  refine (onLine_at below store hstart hstop).step_of_error ?_
  simp only [onLine, Frame.onLine, Program.action, htext, Line.ofText, hcause, locate]

end Line

/-! ## Running a tree -/

section Run

variable {m : Type → Type} [Monad m] [LawfulMonad m] [Host m]

omit [LawfulMonad m] in
/-- A run ends at a statement that fails. -/
theorem run_onLine_of_error (hstart : block.start ≤ line) (hstop : line < block.stop)
    {text : List Char} (htext : program[line]? = some (.ofText text)) {cause : Cause}
    (hcause : program.actionOf store block.stop line (.ofLine text) = .error cause) :
    ((onLine program block below line store).run : m Outcome) =
      pure (⟨program, store, []⟩, .error ⟨line + 1, cause⟩) :=
  run_of_failed (step_onLine_of_error below store hstart hstop htext hcause)

/-- What a run does from a line of a block on. -/
theorem run_simple (hstart : block.start ≤ line) (hstop : line < block.stop) {text : List Char}
    (htext : program[line]? = some (.ofText text)) (isSimple : SimpleLine text) :
    ((onLine program block below line store).run : m Outcome) =
      ((Statement.ofLine text).execute (line + 1)).runThen program
        (fun _ after => (onLine program block below (line + 1) after).run) store := by
  have hok (action : Action)
      (haction : program.actionOf store block.stop line (.ofLine text) = .ok action) :=
    step_onLine_of_ok below store hstart hstop htext haction
  have herror (cause : Cause)
      (hcause : program.actionOf store block.stop line (.ofLine text) = .error cause) :=
    run_onLine_of_error (m := m) below store hstart hstop htext hcause
  have hjump : (Frame.onLine block line).jumpTo (line + 1) = .onLine block (line + 1) :=
    Frame.jumpTo_eq_onLine (Nat.le_succ_of_le hstart) hstop
  have hsimple := isSimple.statement
  cases hstatement : Statement.ofLine text with
  | empty =>
    rw [hstatement] at hok
    rw [run_of_silent (hok _ rfl), hjump, Statement.execute, Execution.runThen_pure]
    rfl
  | print expression =>
    rw [hstatement] at hok herror
    rw [Statement.execute, Execution.runThen_bind, Execution.runThen_attempt]
    cases hvalue : evaluate store expression with
    | error cause => exact herror cause (map_eq_error_iff.mpr hvalue)
    | ok value =>
      rw [run_of_append (hok _ (map_eq_ok_iff.mpr ⟨value, hvalue, rfl⟩)), hjump]
      refine Eq.trans ?_ (Execution.runThen_lift (m := m) program store _ _).symm
      rfl
  | input name prompt =>
    rw [hstatement] at hok
    rw [run_of_request (hok _ rfl), hjump, Statement.execute, Execution.runThen_bind]
    refine Eq.trans ?_ (Execution.runThen_lift (m := m) program store _ _).symm
    simp only [Execution.runThen_modify]
    rfl
  | assignment name expression =>
    rw [hstatement] at hok herror
    rw [Statement.execute, Execution.runThen_bind, Execution.runThen_attempt]
    cases hvalue : evaluate store expression with
    | error cause => exact herror cause (map_eq_error_iff.mpr hvalue)
    | ok value =>
      rw [run_of_silent (hok _ (map_eq_ok_iff.mpr ⟨value, hvalue, rfl⟩)), hjump]
      simp only [Execution.runThen_modify]
      rfl
  | unrecognized code =>
    rw [hstatement] at herror
    rw [herror _ rfl, Statement.execute, Execution.runThen_throw]
  | conditional condition => simp [hstatement, Statement.isSimple] at hsimple
  | loop count => simp [hstatement, Statement.isSimple] at hsimple

/-- A header at work executes its body as often as it still has to, and then goes on. -/
theorem run_times {body : Execution m Unit} {inner : Block}
    (hbody : ∀ (below : List Frame) (store : Store),
      ((onLine program inner below inner.start store).run : m Outcome) =
        body.runThen program (fun _ after => (⟨program, after, below⟩ : Machine).run) store)
    (context : Context) (next times : Nat) :
    ((⟨program, store, ⟨context, some ⟨inner, times, next⟩⟩ :: below⟩ : Machine).run : m Outcome) =
      (body.times times).runThen program
        (fun _ after => (⟨program, after, (⟨context, none⟩ : Frame).jumpTo next :: below⟩ :
          Machine).run) store := by
  induction times generalizing store with
  | zero =>
    rw [run_of_silent (step_of_repetition rfl rfl), Execution.times, Execution.runThen_pure]
    rfl
  | succ count ih =>
    have hrest : (fun _ : Unit => (body.times count).runThen program fun _ after =>
          (⟨program, after, (⟨context, none⟩ : Frame).jumpTo next :: below⟩ : Machine).run) =
        fun _ after =>
          ((⟨program, after, ⟨context, some ⟨inner, count, next⟩⟩ :: below⟩ : Machine).run :
            m Outcome) := by
      funext _ after
      exact (ih after).symm
    rw [run_of_silent (step_of_repetition rfl rfl), Execution.times, Execution.runThen_bind, hrest]
    simp only [iterate, Frame.ofBlock_eq_onLine]
    exact hbody _ store

/-- A header that enters a body as often as `times` says and then goes on with `next`. -/
theorem run_enter {body : Execution m Unit} {inner : Block} {text : List Char} {times next : Nat}
    (hstart : block.start ≤ line) (hstop : line < block.stop)
    (htext : program[line]? = some (.ofText text))
    (haction : program.actionOf store block.stop line (.ofLine text) =
      .ok (.enter inner times next))
    (hnext : line < next) (hlimit : next ≤ block.stop)
    (hbody : ∀ (below : List Frame) (store : Store),
      ((onLine program inner below inner.start store).run : m Outcome) =
        body.runThen program (fun _ after => (⟨program, after, below⟩ : Machine).run) store) :
    ((onLine program block below line store).run : m Outcome) =
      (body.times times).runThen program
        (fun _ after => (onLine program block below next after).run) store := by
  have hstep := step_onLine_of_ok below store hstart hstop htext haction
  have hjump : (⟨(Frame.onLine block line).context, none⟩ : Frame).jumpTo next =
      .onLine block next :=
    Frame.jumpTo_eq_onLine (by simp only [Frame.onLine]; omega) hlimit
  rw [run_of_silent hstep]
  have htimes := run_times below store hbody (Frame.onLine block line).context next times
  rw [hjump] at htimes
  exact htimes

variable (m) in
/-- Running the lines of a tree, in a block that ends with them, is its meaning. -/
def RunsAs {lines : List (List Char)} (tree : Structured lines) : Prop :=
  ∀ (program : Program) (block : Block) (start : Nat), block.start ≤ start →
    block.stop = start + lines.length → program.HasAt start lines →
    ∀ (below : List Frame) (store : Store),
      ((onLine program block below start store).run : m Outcome) =
        (tree.execute (start + 1)).runThen program
          (fun _ after => (⟨program, after, below⟩ : Machine).run) store

namespace RunsAs

theorem done : RunsAs m .done := by
  intro program block start _ hstop _ below store
  obtain rfl : start = block.stop := hstop.symm
  rw [run_of_silent (step_onLine_stop below store), Structured.execute, Execution.runThen_pure]

omit [LawfulMonad m] in
/-- What a run does from the lines of a tree on, as what follows something else. -/
theorem continues {rest : List (List Char)} {tail : Structured rest} (htail : RunsAs m tail)
    {program : Program} {block : Block} {next : Nat} (hstart : block.start ≤ next)
    (hstop : block.stop = next + rest.length) (hrest : program.HasAt next rest)
    (below : List Frame) :
    (fun (_ : Unit) after => ((onLine program block below next after).run : m Outcome)) =
      fun _ => (tail.execute (next + 1)).runThen program
        (fun _ after => (⟨program, after, below⟩ : Machine).run) := by
  funext _ after
  exact htail program block next hstart hstop hrest below after

theorem simple {rest : List (List Char)} {text : List Char} (isSimple : SimpleLine text)
    {tail : Structured rest} (htail : RunsAs m tail) :
    RunsAs m (.simple text isSimple tail) := by
  intro program block start hstart hstop hlines below store
  rw [List.length_cons] at hstop
  rw [run_simple below store hstart (by omega) hlines.getElem? isSimple, Structured.execute,
    Execution.runThen_bind, htail.continues (by omega) (by omega) hlines.tail below]

omit [LawfulMonad m] in
/-- A tree that stands below a header is run as the body of the block. -/
theorem inner {body more : List (List Char)} {header : List Char} {first : Structured body}
    (hfirst : RunsAs m first) {program : Program} {start : Nat}
    (hlines : program.HasAt start (header :: body ++ more)) (below : List Frame) (store : Store) :
    ((onLine program ⟨start + 1, start + 1 + body.length⟩ below (start + 1) store).run :
        m Outcome) =
      (first.execute (start + 1 + 1)).runThen program
        (fun _ after => (⟨program, after, below⟩ : Machine).run) store :=
  hfirst program ⟨start + 1, start + 1 + body.length⟩ (start + 1) (Nat.le_refl _) rfl
    hlines.left.tail below store

section Blocks

variable {body rest : List (List Char)} {header closing : List Char} {first : Structured body}
  {tail : Structured rest}

theorem conditional {condition : List Char}
    {statement : Statement.ofLine header = .conditional condition} {opens : OpensBlock header}
    (hfirst : RunsAs m first) {closes : ClosesBlock closing}
    {noElse : ∀ line ∈ rest.head?, startsElse line = false} (htail : RunsAs m tail) :
    RunsAs m (.conditional statement opens first closes noElse tail) := by
  intro program block start hstart hstop hlines below store
  have hend := Program.blockEnd_eq opens first.keepsLevel closes hlines hstop
  have hbody := Program.body_eq opens first.keepsLevel closes hlines hstop
  have hheader := hlines.left.getElem?
  have hrest : program.HasAt (start + body.length + 1 + 1) rest := by
    simpa [Nat.add_assoc] using hlines.right.tail
  simp only [List.length_append, List.length_cons] at hstop
  have helse : program.elseHeader? (start + body.length + 1) block.stop = none :=
    Program.elseHeader?_eq_none hrest (by omega) noElse
  have hnumber : start + 1 + body.length + 2 = start + body.length + 1 + 1 + 1 := by omega
  rw [Structured.execute, Execution.runThen_bind, Execution.runThen_attempt, hnumber]
  cases hholds : evaluateCondition store condition with
  | error cause =>
    refine run_onLine_of_error below store hstart (by omega) hheader ?_
    rw [statement]
    exact map_eq_error_iff.mpr hholds
  | ok holds =>
    have haction : program.actionOf store block.stop start (.ofLine header) =
        .ok (.enter ⟨start + 1, start + 1 + body.length⟩ (if holds then 1 else 0)
          (start + body.length + 1 + 1)) := by
      simp only [statement, Program.actionOf, hholds, bind, Except.bind, pure, Except.pure,
        Program.branch, hend, helse, hbody]
    rw [run_enter below store hstart (by omega) hheader haction (by omega) (by omega)
      (hfirst.inner hlines), Execution.runThen_times_ite,
      htail.continues (by omega) (by omega) hrest below]
    simp only [Execution.runThen_bind]

theorem alternative {other : List (List Char)} {middle last condition : List Char}
    {statement : Statement.ofLine header = .conditional condition} {opens : OpensBlock header}
    (hfirst : RunsAs m first) {closes : ClosesBlock closing} {isElse : startsElse middle = true}
    {opensElse : OpensBlock middle} {second : Structured other} (hsecond : RunsAs m second)
    {closesElse : ClosesBlock last} (htail : RunsAs m tail) :
    RunsAs m (.alternative statement opens first closes isElse opensElse second closesElse
      tail) := by
  intro program block start hstart hstop hlines below store
  have hend := Program.blockEnd_eq opens first.keepsLevel closes hlines hstop
  have hbody := Program.body_eq opens first.keepsLevel closes hlines hstop
  have hheader := hlines.left.getElem?
  have hmiddle : program.HasAt (start + body.length + 1 + 1) (middle :: other ++ last :: rest) := by
    simpa [Nat.add_assoc] using hlines.right.tail
  have hrest : program.HasAt (start + body.length + 1 + 1 + other.length + 1 + 1) rest := by
    simpa [Nat.add_assoc] using hmiddle.right.tail
  have hlimit : block.stop =
      start + body.length + 1 + 1 + (middle :: other ++ last :: rest).length := by
    simp only [List.length_append, List.length_cons] at hstop ⊢
    omega
  have helse := Program.elseHeader?_eq_some_of_startsElse hmiddle hlimit isElse
  have hendElse := Program.blockEnd_eq opensElse second.keepsLevel closesElse hmiddle hlimit
  have hbodyElse := Program.body_eq opensElse second.keepsLevel closesElse hmiddle hlimit
  simp only [List.length_append, List.length_cons] at hlimit
  have hnumber : start + 1 + body.length + other.length + 4 =
      start + body.length + 1 + 1 + other.length + 1 + 1 + 1 := by omega
  have hnumberElse : start + 1 + body.length + 3 = start + body.length + 1 + 1 + 1 + 1 := by omega
  rw [Structured.execute, Execution.runThen_bind, Execution.runThen_attempt, hnumber, hnumberElse]
  cases hholds : evaluateCondition store condition with
  | error cause =>
    refine run_onLine_of_error below store hstart (by omega) hheader ?_
    rw [statement]
    exact map_eq_error_iff.mpr hholds
  | ok holds =>
    have haction : program.actionOf store block.stop start (.ofLine header) =
        .ok (.enter (program.body (if holds then start else start + body.length + 1 + 1) block.stop)
          1 (start + body.length + 1 + 1 + other.length + 1 + 1)) := by
      simp only [statement, Program.actionOf, hholds, bind, Except.bind, pure, Except.pure,
        Program.branch, hend, helse, hendElse]
    have hchosen (below : List Frame) (store : Store) :
        ((onLine program (program.body (if holds then start else start + body.length + 1 + 1)
            block.stop) below (program.body (if holds then start else start + body.length + 1 + 1)
            block.stop).start store).run : m Outcome) =
          (if holds then first.execute (start + 1 + 1)
            else second.execute (start + body.length + 1 + 1 + 1 + 1)).runThen program
            (fun _ after => (⟨program, after, below⟩ : Machine).run) store := by
      cases holds with
      | false =>
        simp only [Bool.false_eq_true, if_false, hbodyElse]
        exact hsecond.inner hmiddle below store
      | true =>
        simp only [if_true, hbody]
        exact hfirst.inner hlines below store
    rw [run_enter below store hstart (by omega) hheader haction (by omega) (by omega) hchosen,
      Execution.runThen_times_one, htail.continues (by omega) (by omega) hrest below]
    simp only [Execution.runThen_bind]

theorem loop {count : List Char} {statement : Statement.ofLine header = .loop count}
    {opens : OpensBlock header} (hfirst : RunsAs m first) {closes : ClosesBlock closing}
    (htail : RunsAs m tail) : RunsAs m (.loop statement opens first closes tail) := by
  intro program block start hstart hstop hlines below store
  have hend := Program.blockEnd_eq opens first.keepsLevel closes hlines hstop
  have hbody := Program.body_eq opens first.keepsLevel closes hlines hstop
  have hheader := hlines.left.getElem?
  have hrest : program.HasAt (start + body.length + 1 + 1) rest := by
    simpa [Nat.add_assoc] using hlines.right.tail
  simp only [List.length_append, List.length_cons] at hstop
  have hnumber : start + 1 + body.length + 2 = start + body.length + 1 + 1 + 1 := by omega
  rw [Structured.execute, Execution.runThen_bind, Execution.runThen_attempt, hnumber]
  cases hcount : Number.count? count with
  | none =>
    simp only [iterations, hcount]
    refine run_onLine_of_error below store hstart (by omega) hheader ?_
    simp only [statement, Program.actionOf, hcount]
  | some times =>
    have haction : program.actionOf store block.stop start (.ofLine header) =
        .ok (.enter ⟨start + 1, start + 1 + body.length⟩ times (start + body.length + 1 + 1)) := by
      simp only [statement, Program.actionOf, hcount, Program.iterate, hend, hbody]
    rw [run_enter below store hstart (by omega) hheader haction (by omega) (by omega)
      (hfirst.inner hlines), htail.continues (by omega) (by omega) hrest below]
    simp only [iterations, hcount, Execution.runThen_bind]

end Blocks

end RunsAs

/-- **Running the lines of a tree is its meaning**, in a block that ends with them. -/
theorem runsAs_structured {lines : List (List Char)} (tree : Structured lines) :
    RunsAs m tree := by
  induction tree with
  | done => exact .done
  | simple _ isSimple _ ih => exact .simple isSimple ih
  | conditional _ _ _ _ _ _ ihFirst ihTail => exact .conditional ihFirst ihTail
  | alternative _ _ _ _ _ _ _ _ _ ihFirst ihSecond ihTail =>
    exact .alternative ihFirst ihSecond ihTail
  | loop _ _ _ _ _ ihFirst ihTail => exact .loop ihFirst ihTail

end Run

end Machine

/-! ## Programs -/

variable {m : Type → Type} [Monad m] [LawfulMonad m] [Host m]

/-- The run of a program whose lines have a tree. -/
theorem run_start_of_structured {source : String} {lines : List (List Char)}
    (tree : Structured lines) (hsource : Text.lines source.toList = lines) :
    ((Machine.start source).run : m Outcome) = (do
      let (result, store) ← (tree.execute 1).run.run Store.empty
      return (⟨Program.ofSource source, store, []⟩, result)) := by
  subst hsource
  have hlines : (Program.ofSource source).HasAt 0 (Text.lines source.toList) :=
    List.prefix_refl _
  have hlength : (Program.ofSource source).length = 0 + (Text.lines source.toList).length := by
    simp [Program.ofSource]
  have hrun : ((Machine.start source).run : m Outcome) = _ :=
    Machine.runsAs_structured tree (Program.ofSource source)
      ⟨0, (Program.ofSource source).length⟩ 0 (Nat.le_refl 0) hlength hlines [] Store.empty
  rw [hrun, Execution.runThen]
  congr 1
  funext ⟨result, store⟩
  cases result with
  | ok _ => exact Machine.run_of_finished (Machine.step_of_stack_nil rfl)
  | error fault => rfl

/-- **Structured programs mean what their nesting says.**  In every host, a program
whose lines have a tree makes the calls of the tree's meaning, ends with its variables
and with no block in execution, and succeeds or fails as it does; a fault is reported
and names the line that the meaning gives it. -/
theorem execute_eq_meaning {source : String} {lines : List (List Char)}
    (tree : Structured lines) (hsource : Text.lines source.toList = lines) (previous : Machine) :
    (Interpreter.execute source : Interpreter m (Except Fault Unit)).run previous = (do
      let (result, store) ← (tree.execute 1).run.run Store.empty
      let last : Machine := ⟨Program.ofSource source, store, []⟩
      match result with
      | .ok () => return (.ok (), last)
      | .error fault =>
        let _ ← (report fault : m Diagnostic)
        return (.error fault, last)) := by
  simp only [Interpreter.execute, StateT.run_bind, StateT.run_monadLift, monadLift_self,
    run_start_of_structured tree hsource, bind_assoc, pure_bind]
  congr 1
  funext run
  obtain ⟨result, store⟩ := run
  cases result with
  | ok _ => simp
  | error fault => simp

/-- A loop around a conditional with two blocks, and a line of no form after it. -/
def nestedTree : Structured
    ["반복 2 \x7b".toList, "만약 1 < 2 \x7b".toList, "출력(\"가\")".toList, "\x7d".toList,
      "아니면 \x7b".toList, "\x7d".toList, "\x7d".toList, "없음".toList] :=
  let printing : Structured ["출력(\"가\")".toList] := .simple _ (by decide) .done
  let choice : Structured
      ["만약 1 < 2 \x7b".toList, "출력(\"가\")".toList, "\x7d".toList, "아니면 \x7b".toList,
        "\x7d".toList] :=
    @Structured.alternative ["출력(\"가\")".toList] [] [] _ _ _ _ "1 < 2".toList (by decide)
      (by decide) printing (by decide) (by decide) (by decide) .done (by decide) .done
  @Structured.loop _ ["없음".toList] _ _ "2".toList (by decide) (by decide) choice (by decide)
    (.simple _ (by decide) .done)

/-- What the loop above prints, and the fault of its last line. -/
theorem execute_eq_meaning_nested :
    ((((Interpreter.execute "반복 2 \x7b\n만약 1 < 2 \x7b\n출력(\"가\")\n\x7d\n아니면 \x7b\n\x7d\n\x7d\n없음" :
        Interpreter (StateT Transcript (StateM Buffer)) (Except Fault Unit)).run .idle).run
        #[]).run (.ofInputs [])).1.2.toList =
      [.append "가\n", .append "가\n", .mark 7,
        .append "❌ 8번째 줄에서 오류가 있어요\n   이 문장은 이해할 수 없어요\n"] := by
  rw [execute_eq_meaning nestedTree (by decide)]
  decide +kernel

end KoreanScript
