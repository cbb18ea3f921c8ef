import KoreanScript.Proofs.OneLine
import KoreanScript.Proofs.Variables

/-!
# The lines of the output

A run whose replies have no line feed keeps its variables on one line each.  Then every
text that a printing statement appends is one line with its end, and the report of a fault
is two.  As nothing else is appended, the output is as many lines as values were printed,
and two more if the run has failed.
-/

set_option autoImplicit false

namespace KoreanScript

/-! ## The texts that statements read -/

/-- The part of its line that a statement reads when it is executed. -/
def Statement.argument : Statement → List Char
  | .empty | .input _ _ => []
  | .print expression | .assignment _ expression => expression
  | .conditional condition => condition
  | .loop count => count
  | .unrecognized code => code

theorem subset_of_splitAtEquals? {text target request : List Char}
    (h : splitAtEquals? text = some (target, request)) : request ⊆ text := by
  unfold splitAtEquals? at h
  split at h
  · cases h
  · next equals after heq =>
    obtain ⟨-, rfl⟩ := Prod.mk.inj (Option.some.inj h)
    intro c hc
    have hrest : c ∈ text.dropWhile (· != '=') := heq ▸ List.mem_cons_of_mem equals hc
    exact (List.dropWhile_sublist _).mem hrest

theorem subset_of_afterKeyword? {keyword text rest : List Char}
    (h : afterKeyword? keyword text = some rest) : rest ⊆ text := by
  obtain ⟨-, hrest⟩ := Option.ite_none_right_eq_some.mp h
  exact Option.some.inj hrest ▸ List.drop_subset _ _

namespace Statement

theorem argument_ofInputCode_subset (code : List Char) : (ofInputCode code).argument ⊆ code := by
  unfold ofInputCode
  split
  · exact List.Subset.refl code
  · split
    · exact List.Subset.refl code
    · exact List.nil_subset code

theorem argument_ofOtherCode_subset (code : List Char) : (ofOtherCode code).argument ⊆ code := by
  unfold ofOtherCode
  split
  · exact List.Subset.refl code
  · next hsplit =>
    split
    · exact List.Subset.refl code
    · exact List.Subset.trans (Text.trim_subset _) (subset_of_splitAtEquals? hsplit)

theorem argument_ofCode_subset (code : List Char) : (ofCode code).argument ⊆ code := by
  unfold ofCode
  split
  · exact List.nil_subset code
  split
  · exact List.Subset.trans (fun _ => List.mem_of_mem_dropLast) (List.drop_subset _ code)
  split
  · exact argument_ofInputCode_subset code
  split
  · next rest hrest =>
    have herase : rest.erase '\x7b' ⊆ rest := List.erase_subset
    exact List.Subset.trans (Text.trim_subset _)
      (List.Subset.trans herase (subset_of_afterKeyword? hrest))
  split
  · next rest hrest =>
    have htake : rest.takeWhile (· != '\x7b') ⊆ rest := (List.takeWhile_sublist _).subset
    exact List.Subset.trans (Text.trim_subset _)
      (List.Subset.trans htake (subset_of_afterKeyword? hrest))
  · exact argument_ofOtherCode_subset code

/-- What a statement reads are characters of its line. -/
theorem argument_ofLine_subset (line : List Char) : (ofLine line).argument ⊆ line :=
  List.Subset.trans (argument_ofCode_subset _) (Text.stripComment_subset line)

/-- A statement on one line fails with a message on one line. -/
theorem Fails.oneLine {store : Store} {statement : Statement} {cause : Cause}
    (h : statement.Fails store cause) (hstore : store.OneLine)
    (hargument : '\n' ∉ statement.argument) : cause.OneLine := by
  cases h with
  | print h => exact (hstore.yields_evaluate hargument).error h
  | assignment h => exact (hstore.yields_evaluate hargument).error h
  | conditional h => exact (hstore.yields_evaluateCondition hargument).error h
  | loop h => exact Cause.oneLine_invalidCount (isLine_ofList hargument)
  | unrecognized code => exact show IsLine "이 문장은 이해할 수 없어요" by decide

end Statement

/-! ## Lines with their ends -/

/-- A text that is some number of lines, each with a line feed at its end. -/
def IsLines (count : Nat) (text : List Char) : Prop :=
  ∃ lines : List (List Char), lines.length = count ∧ (∀ line ∈ lines, '\n' ∉ line) ∧
    text = lines.flatMap (· ++ ['\n'])

namespace IsLines

variable {count more : Nat} {text rest : List Char}

theorem nil : IsLines 0 [] :=
  ⟨[], rfl, List.forall_mem_nil _, rfl⟩

theorem ofLine {line : String} (h : IsLine line) : IsLines 1 (line ++ "\n").toList := by
  refine ⟨[line.toList], rfl, List.forall_mem_singleton.mpr h, ?_⟩
  rw [String.toList_append, List.flatMap_singleton]
  rfl

theorem append (h : IsLines count text) (hrest : IsLines more rest) :
    IsLines (count + more) (text ++ rest) := by
  obtain ⟨lines, hlength, hlines, rfl⟩ := h
  obtain ⟨later, hlater, hlines', rfl⟩ := hrest
  exact ⟨lines ++ later, by rw [List.length_append, hlength, hlater],
    List.forall_mem_append.mpr ⟨hlines, hlines'⟩, List.flatMap_append.symm⟩

/-- There are as many line feeds as lines. -/
theorem count_eq (h : IsLines count text) : text.count '\n' = count := by
  obtain ⟨lines, rfl, hlines, rfl⟩ := h
  induction lines with
  | nil => rfl
  | cons line others ih =>
    obtain ⟨hline, hothers⟩ := List.forall_mem_cons.mp hlines
    rw [List.flatMap_cons, List.count_append, List.count_append, List.count_eq_zero.mpr hline,
      ih hothers, List.length_cons]
    simp only [List.count_singleton_self]
    omega

/-- Unless there is no line, the last character is a line feed. -/
theorem getLast?_eq (h : IsLines (count + 1) text) : text.getLast? = some '\n' := by
  obtain ⟨lines, hlength, -, rfl⟩ := h
  obtain rfl | ⟨front, last, rfl⟩ := List.eq_nil_or_concat lines
  · cases hlength
  · simp

end IsLines

/-! ## What calls append -/

/-- The text that a call appends, if it does. -/
def HostCall.text? : HostCall → Option String
  | .append text => some text
  | .request _ _ | .mark _ => none

/-- The texts that some calls append, in their order. -/
def appended (calls : List HostCall) : List String :=
  calls.filterMap HostCall.text?

/-- The output of some calls: all that they append, put together. -/
def output (calls : List HostCall) : List Char :=
  (appended calls).flatMap String.toList

theorem mem_appended {calls : List HostCall} {text : String} (h : text ∈ appended calls) :
    ∃ front later, calls = front ++ .append text :: later := by
  obtain ⟨call, hcall, htext⟩ := List.mem_filterMap.mp h
  cases call with
  | append other =>
    obtain rfl := Option.some.inj htext
    exact List.append_of_mem hcall
  | request prompt reply => cases htext
  | mark line => cases htext

theorem output_append (front later : List HostCall) :
    output (front ++ later) = output front ++ output later := by
  rw [output, appended, List.filterMap_append, List.flatMap_append]
  rfl

/-- Calls that append one line each have as many lines of output as they append texts. -/
theorem isLines_output {calls : List HostCall}
    (h : ∀ text ∈ appended calls, IsLines 1 text.toList) :
    IsLines (appended calls).length (output calls) := by
  unfold output
  generalize appended calls = texts at h
  induction texts with
  | nil => exact .nil
  | cons text others ih =>
    obtain ⟨htext, hothers⟩ := List.forall_mem_cons.mp h
    rw [List.flatMap_cons, List.length_cons, Nat.add_comm]
    exact htext.append (ih hothers)

/-! ## The report of a fault -/

theorem isLine_toString (n : Nat) : IsLine (toString n) := by
  intro hfeed
  have hdigit := Nat.isDigit_of_mem_toDigits (by decide) (by decide)
    (show '\n' ∈ Nat.toDigits 10 n by simpa using hfeed)
  cases hdigit

theorem Diagnostic.isLine_banner (diagnostic : Diagnostic) : IsLine diagnostic.banner :=
  IsLine.between (by decide) (isLine_toString _) (by decide)

/-- The text that reports a fault. -/
def reportText (fault : Fault) : String :=
  (Diagnostic.ofFault fault).render ++ "\n"

theorem reportCalls_eq (fault : Fault) :
    Interpreter.reportCalls fault = [.mark (fault.line - 1), .append (reportText fault)] :=
  rfl

/-- A report is two lines if the message is one. -/
theorem isLines_reportText {fault : Fault} (h : fault.cause.OneLine) :
    IsLines 2 (reportText fault).toList := by
  have hmessage : IsLine ("   " ++ (Diagnostic.ofFault fault).message) :=
    IsLine.append (by decide) h
  have hlines := (IsLines.ofLine (Diagnostic.isLine_banner (.ofFault fault))).append
    (IsLines.ofLine hmessage)
  have hindent : "\n   " = "\n" ++ "   " := by decide
  rw [← String.toList_append] at hlines
  rw [reportText, Diagnostic.render, hindent]
  simpa only [String.append_assoc] using hlines

theorem output_reportCalls (fault : Fault) :
    output (Interpreter.reportCalls fault) = (reportText fault).toList :=
  List.flatMap_singleton String.toList (reportText fault)

/-! ## Machines on one line -/

/-- Calls whose requests have been answered by one line each. -/
def OneLineReplies (calls : List HostCall) : Prop :=
  ∀ prompt reply, HostCall.request prompt reply ∈ calls → IsLine reply

theorem OneLineReplies.left {front later : List HostCall} (h : OneLineReplies (front ++ later)) :
    OneLineReplies front :=
  fun prompt reply hmem => h prompt reply (List.mem_append_left later hmem)

namespace Machine

variable {machine next : Machine}

/-- A machine all of whose values and statements are on one line. -/
structure OneLine (machine : Machine) : Prop where
  store : machine.store.OneLine
  program : ∀ statement, machine.HasStatement statement → '\n' ∉ statement.argument

/-- No line of a source text has a line feed, whatever the text is. -/
theorem start_oneLine (source : String) : (start source).OneLine where
  store := Store.oneLine_empty
  program := by
    rintro _ ⟨line, hline, rfl⟩ hfeed
    obtain ⟨text, htext, rfl⟩ := List.mem_map.mp hline
    exact Text.newline_not_mem_of_mem_lines text htext (Statement.argument_ofLine_subset text hfeed)

namespace OneLine

theorem of_leads (h : machine.OneLine) (hleads : Leads machine.step next)
    (hstore : next.store.OneLine) : next.OneLine where
  store := hstore
  program := by
    rintro statement ⟨line, hline, hstatement⟩
    exact h.program statement ⟨line, program_of_leads hleads ▸ hline, hstatement⟩

theorem of_silent (h : machine.OneLine) (hstep : machine.step = .silent next) : next.OneLine := by
  refine h.of_leads (hstep ▸ .silent next) ?_
  rcases store_of_silent hstep with hsame | ⟨name, expression, value, hstatement, hvalue, hset⟩
  · exact hsame ▸ h.store
  · have hyields := h.store.yields_evaluate (h.program _ hstatement)
    exact hset ▸ h.store.set (hyields.value hvalue)

theorem of_append {text : String} (h : machine.OneLine) (hstep : machine.step = .append text next) :
    next.OneLine :=
  h.of_leads (hstep ▸ .append text next) (store_of_append hstep ▸ h.store)

/-- A reply on one line is stored as a value on one line. -/
theorem of_request {prompt reply : String} {next : String → Machine} (h : machine.OneLine)
    (hstep : machine.step = .request prompt next) (hreply : IsLine reply) :
    (next reply).OneLine := by
  obtain ⟨name, -, hset⟩ := store_of_request hstep
  refine h.of_leads (hstep ▸ .request prompt next reply) ?_
  exact hset reply ▸ h.store.set (Value.oneLine_ofInput hreply)

/-- **All that is reached with replies on one line is on one line.** -/
theorem of_reaches {calls : List HostCall} (h : machine.OneLine)
    (hreaches : machine.Reaches calls next) (hreplies : OneLineReplies calls) : next.OneLine := by
  induction hreaches with
  | refl => exact h
  | silent hstep _ ih => exact ih (h.of_silent hstep) hreplies
  | append hstep _ ih =>
    exact ih (h.of_append hstep) fun prompt reply hmem =>
      hreplies prompt reply (List.mem_cons_of_mem _ hmem)
  | request reply hstep _ ih =>
    have hreply := hreplies _ reply List.mem_cons_self
    exact ih (h.of_request hstep hreply) fun prompt reply hmem =>
      hreplies prompt reply (List.mem_cons_of_mem _ hmem)

end OneLine

/-! ## Printing and failing on one line -/

section Source

variable {source text : String}

theorem Executes.argument {line : Nat} {statement : Statement}
    (h : machine.Executes source line statement) : '\n' ∉ statement.argument := by
  obtain ⟨-, text, htext, rfl⟩ := h
  intro hfeed
  exact Text.newline_not_mem_of_mem_lines text (List.mem_of_getElem? htext)
    (Statement.argument_ofLine_subset text hfeed)

theorem OneLine.of_executes {line : Nat} {expression : List Char} {value : Value}
    (h : machine.OneLine) (hexecutes : machine.Executes source line (.print expression))
    (hvalue : evaluate machine.store expression = .ok value) : IsLine value.render :=
  (h.store.yields_evaluate hexecutes.argument).value hvalue

/-- What is printed is one line with its end. -/
theorem OneLine.of_prints (h : machine.OneLine) (hprints : machine.Prints source text) :
    IsLines 1 text.toList := by
  obtain ⟨line, expression, value, hexecutes, hvalue, rfl⟩ := hprints
  exact .ofLine (h.of_executes hexecutes hvalue)

theorem OneLine.of_stopsAt {fault : Fault} (h : machine.OneLine)
    (hstops : machine.StopsAt source fault) : fault.cause.OneLine := by
  obtain ⟨line, statement, hexecutes, hfails, -⟩ := hstops
  exact hfails.oneLine h.store hexecutes.argument

/-- A machine that prints a text appends it in its next step, and only then. -/
theorem prints_iff (hprogram : machine.program = Program.ofSource source) :
    machine.Prints source text ↔ ∃ next, machine.step = .append text next := by
  constructor
  · rintro ⟨line, expression, value, ⟨⟨frame, below, hat⟩, found, hfound, hstatement⟩, hvalue, rfl⟩
    have hline : machine.program[line]? = some (.ofText found) := by
      rw [hprogram, Program.ofSource, List.getElem?_map, hfound, Option.map_some]
    have haction : machine.program.action machine.store frame.context.block.stop line =
        .ok (.print (value.render ++ "\n") (line + 1)) := by
      rw [Program.action, hline]
      simp only [Line.ofText, hstatement, Program.actionOf, hvalue]
      rfl
    exact ⟨_, hat.step_of_ok haction⟩
  · rintro ⟨next, hstep⟩
    obtain ⟨frame, below, line, found, expression, value, hat, hfound, hstatement, hvalue, htext⟩ :=
      prints_of_step hstep
    have hexecutes := hat.executes hprogram hfound
    exact ⟨line, expression, value, hstatement ▸ hexecutes, hvalue, htext⟩

/-- What steps append is printed, by the machine that they have led to until then. -/
theorem Reaches.exists_prints {front later : List HostCall} {last : Machine}
    (h : (start source).Reaches (front ++ .append text :: later) last) :
    ∃ between, (start source).Reaches front between ∧ between.Prints source text := by
  obtain ⟨between, next, hfront, hstep, -⟩ := h.exists_append
  exact ⟨between, hfront, (prints_iff (program_of_reaches hfront)).mpr ⟨next, hstep⟩⟩

theorem Reaches.stopsAt {calls : List HostCall} {fault : Fault}
    (h : (start source).Reaches calls machine) (hstep : machine.step = .failed fault) :
    machine.StopsAt source fault := by
  obtain ⟨frame, below, line, found, hat, hfound, hfails, hnumber⟩ := fails_of_step hstep
  exact ⟨line, found.statement, hat.executes (program_of_reaches h) hfound, hfails, hnumber⟩

end Source

/-! ## Runs line by line -/

/-- Calls of a run all of whose texts are lines: the values of variables and those that
are printed have no line feed in any state up to these calls, and whatever is appended is
printed, with a single line feed at its end. -/
structure LineByLine (source : String) (calls : List HostCall) : Prop where
  stored : ∀ front later machine, calls = front ++ later → (start source).Reaches front machine →
    ∀ name content, machine.store.get? name = some (.text content) → IsLine content
  printed : ∀ front later machine, calls = front ++ later → (start source).Reaches front machine →
    ∀ line expression value, machine.Executes source line (.print expression) →
      evaluate machine.store expression = .ok value →
        IsLine value.render ∧ ∃ next, machine.step = .append (value.render ++ "\n") next
  appended : ∀ front text later, calls = front ++ .append text :: later →
    ∃ between, (start source).Reaches front between ∧ between.Prints source text ∧
      text.toList.count '\n' = 1 ∧ text.toList.getLast? = some '\n'

theorem oneLine_of_reaches {source : String} {front later : List HostCall}
    (hreplies : OneLineReplies (front ++ later)) (h : (start source).Reaches front machine) :
    machine.OneLine :=
  (start_oneLine source).of_reaches h hreplies.left

/-- **A run with replies on one line is line by line.** -/
theorem Reaches.lineByLine {source : String} {calls : List HostCall}
    (h : (start source).Reaches calls machine) (hreplies : OneLineReplies calls) :
    LineByLine source calls where
  stored := by
    rintro front later machine rfl hmachine name content hvalue
    exact (oneLine_of_reaches hreplies hmachine).store name _ hvalue
  printed := by
    rintro front later machine rfl hmachine line expression value hexecutes hvalue
    refine ⟨(oneLine_of_reaches hreplies hmachine).of_executes hexecutes hvalue, ?_⟩
    exact (prints_iff (program_of_reaches hmachine)).mp
      ⟨line, expression, value, hexecutes, hvalue, rfl⟩
  appended := by
    rintro front text later rfl
    obtain ⟨between, hbetween, hprints⟩ := h.exists_prints
    have hlines := (oneLine_of_reaches hreplies hbetween).of_prints hprints
    exact ⟨between, hbetween, hprints, hlines.count_eq, hlines.getLast?_eq⟩

theorem Reaches.isLines_output {source : String} {calls : List HostCall}
    (h : (start source).Reaches calls machine) (hreplies : OneLineReplies calls) :
    IsLines (appended calls).length (output calls) := by
  refine KoreanScript.isLines_output fun text htext => ?_
  obtain ⟨front, later, rfl⟩ := mem_appended htext
  obtain ⟨between, hbetween, hprints⟩ := h.exists_prints
  exact (oneLine_of_reaches hreplies hbetween).of_prints hprints

end Machine

namespace Interpreter

variable {σ : Type} [Host (StateM σ)]

/-- **The output is made of lines.**  In a run whose replies have no line feed, no text
that is the value of a variable has one, in no state of the run, and no value that is
printed has one.  A printing statement appends a single line feed, at the end of its text;
the report of a fault has two, one of them at its end; and the output is one line with its
end for each text that has been printed, and two more after a failure. -/
theorem observe_lines (source : String) (previous : Machine) (host : σ)
    (hreplies : OneLineReplies (observe source previous host).calls) :
    let run := observe source previous host
    ∃ calls last, (Machine.start source).Reaches calls last ∧ run.machine.store = last.store ∧
      Machine.LineByLine source calls ∧
      match run.result with
      | .ok () => run.calls = calls ∧ IsLines (appended calls).length (output run.calls)
      | .error fault => ∃ report,
          run.calls = calls ++ [.mark (fault.line - 1), .append report] ∧
            report.toList.count '\n' = 2 ∧ report.toList.getLast? = some '\n' ∧
              IsLines ((appended calls).length + 2) (output run.calls) := by
  obtain ⟨calls, last, outcome, host', hreaches, hends, hrun⟩ :=
    (Machine.start source).run_reaches #[] host
  rw [Array.empty_append] at hrun
  cases hends with
  | finished hstep =>
    rw [observe_of_ok previous hrun] at hreplies ⊢
    exact ⟨calls, last, hreaches, rfl, hreaches.lineByLine hreplies, rfl,
      hreaches.isLines_output hreplies⟩
  | @failed fault hstep =>
    obtain ⟨host'', hobserve⟩ := observe_of_error previous hrun
    rw [hobserve] at hreplies ⊢
    have hcalls : OneLineReplies calls := hreplies.left
    have hlast := Machine.oneLine_of_reaches hreplies hreaches
    have hreport := isLines_reportText (hlast.of_stopsAt (hreaches.stopsAt hstep))
    refine ⟨calls, last, hreaches, rfl, hreaches.lineByLine hcalls, reportText fault, ?_,
      hreport.count_eq, hreport.getLast?_eq, ?_⟩
    · rw [reportCalls_eq]
    · rw [output_append, output_reportCalls]
      exact (hreaches.isLines_output hcalls).append hreport

/-- A reply is printed, and then it is shown in the message of a fault. -/
theorem observe_lines_failing :
    let source := "답 = 입력()\n출력(답 + 1)\n출력(1 답)"
    let run := observe source .idle (Buffer.ofInputs ["한 줄"])
    OneLineReplies run.calls ∧ ∃ calls report, Machine.LineByLine source calls ∧
      run.calls = calls ++ [.mark 2, .append report] ∧ report.toList.count '\n' = 2 ∧
        report.toList.getLast? = some '\n' ∧ IsLines 3 (output run.calls) := by
  intro source run
  have hcalls : run.calls = [.request "" "한 줄", .append "한 줄1\n"] ++ [.mark 2,
      .append "❌ 3번째 줄에서 오류가 있어요\n   식이 올바르지 않아요: '\"한 줄\"' 앞에 연산자가 필요해요\n"] := by
    decide +kernel
  have hresult : run.result =
      .error ⟨3, .malformedExpression "'\"한 줄\"' 앞에 연산자가 필요해요"⟩ := by
    decide +kernel
  have hreplies : OneLineReplies run.calls := by
    intro prompt reply hmem
    obtain ⟨-, rfl⟩ : prompt = "" ∧ reply = "한 줄" := by simpa [hcalls] using hmem
    decide
  obtain ⟨calls, last, -, -, hlines, hend⟩ := observe_lines source .idle _ hreplies
  -- the report of this fault, once the result is known
  change match run.result with | .ok () => _ | .error fault => _ at hend
  rw [hresult] at hend
  obtain ⟨report, heq, hcount, hlast, houtput⟩ := hend
  refine ⟨hreplies, calls, report, hlines, heq, hcount, hlast, ?_⟩
  have hfront : calls = [.request "" "한 줄", .append "한 줄1\n"] :=
    (List.append_inj' (hcalls.symm.trans heq) rfl).1.symm
  rwa [hfront] at houtput

end Interpreter

end KoreanScript
