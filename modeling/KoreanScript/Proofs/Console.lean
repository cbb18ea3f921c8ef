import Mathlib.Data.List.SplitBy
import Mathlib.Data.List.TakeWhile
import KoreanScript.CommandLine
import KoreanScript.Host.Buffer
import KoreanScript.Proofs.Hosts

/-!
# The console and the buffer

A call of the command runs its script on the console, and the script could as well
have been run on a buffer.  The console reads bytes; what it reads one request after
the other are the lines that these bytes have if they are cut after each line feed,
and when no bytes are left, it reads the empty line, as a dry buffer serves it.  What
the console shows can be told from the calls that the run on the buffer made: the
texts that were appended, and the prompts, each with a space after it unless it is
empty.

The relation between the two hosts has one part for the input and one for the
output, and each host call keeps it.
-/

set_option autoImplicit false

namespace KoreanScript

/-! ## Lines of input -/

section Lines

variable {bytes front : List UInt8}

theorem bne_lineFeed (h : lineFeed ∉ bytes) : ∀ byte ∈ bytes, (byte != lineFeed) = true := by
  intro byte hbyte
  rw [bne_iff_ne]
  rintro rfl
  exact h hbyte

theorem splitLine_append (h : lineFeed ∉ front) (rest : List UInt8) :
    splitLine (front ++ lineFeed :: rest) = (front ++ [lineFeed], rest) := by
  have hfront := bne_lineFeed h
  simp only [splitLine, List.dropWhile_append_of_pos hfront, List.takeWhile_append_of_pos hfront,
    List.dropWhile_cons, List.takeWhile_cons, bne_self_eq_false, Bool.false_eq_true, if_false,
    List.append_nil]

theorem splitLine_of_not_mem (h : lineFeed ∉ bytes) : splitLine bytes = (bytes, []) := by
  have hnone : bytes.dropWhile (· != lineFeed) = [] :=
    List.dropWhile_eq_nil_iff.mpr (bne_lineFeed h)
  rw [splitLine, hnone]

/-- The lines of some bytes, which are cut after each line feed. -/
def inputLines (bytes : List UInt8) : List String :=
  (bytes.splitBy fun byte _ => byte != lineFeed).map decodeLine

/-- Nothing is cut before the last byte if no line feed comes before it. -/
theorem splitBy_line (h : lineFeed ∉ front) (last : UInt8) :
    (front ++ [last]).splitBy (fun byte _ => byte != lineFeed) = [front ++ [last]] := by
  refine List.splitBy_of_isChain (by simp) (List.Pairwise.isChain ?_)
  have hfront := bne_lineFeed h
  rw [List.pairwise_append]
  refine ⟨?_, List.pairwise_singleton _ _, fun byte hbyte _ _ => hfront byte hbyte⟩
  exact List.pairwise_iff_forall_sublist.mpr fun hpair => hfront _ (hpair.subset (by simp))

/-- **The first line is what is read first**, and the others are those of the bytes left. -/
theorem inputLines_of_ne_nil (h : bytes ≠ []) :
    inputLines bytes = decodeLine (splitLine bytes).1 :: inputLines (splitLine bytes).2 := by
  by_cases hfeed : lineFeed ∈ bytes
  · obtain ⟨front, rest, rfl, hfront⟩ := List.eq_append_cons_of_mem hfeed
    rw [splitLine_append hfront, inputLines, List.append_cons, List.splitBy_append]
    · rw [splitBy_line hfront]
      rfl
    · simp
  · rw [splitLine_of_not_mem hfeed]
    obtain rfl | ⟨front, last, rfl⟩ := List.eq_nil_or_concat bytes
    · exact absurd rfl h
    · rw [List.concat_eq_append] at hfeed ⊢
      rw [inputLines, splitBy_line (fun hmem => hfeed (List.mem_append_left _ hmem))]
      rfl

theorem headD_inputLines (bytes : List UInt8) :
    (inputLines bytes).headD "" = decodeLine (splitLine bytes).1 := by
  obtain rfl | h := eq_or_ne bytes []
  · rfl
  · rw [inputLines_of_ne_nil h, List.headD_cons]

theorem tail_inputLines (bytes : List UInt8) :
    (inputLines bytes).tail = inputLines (splitLine bytes).2 := by
  obtain rfl | h := eq_or_ne bytes []
  · rfl
  · rw [inputLines_of_ne_nil h, List.tail_cons]

end Lines

/-! ## What a console shows -/

/-- What a call adds to the output of a console. -/
def HostCall.shown : HostCall → String
  | .append text => text
  | .request prompt _ => if prompt = "" then "" else prompt ++ " "
  | .mark _ => ""

/-- What some calls add to the output of a console, in their order. -/
def shown (calls : List HostCall) : String :=
  String.join (calls.map HostCall.shown)

theorem shown_append (calls later : List HostCall) :
    shown (calls ++ later) = shown calls ++ shown later := by
  rw [shown, List.map_append, String.join_append]
  rfl

theorem shown_push (transcript : Transcript) (call : HostCall) :
    shown (transcript.push call).toList = shown transcript.toList ++ call.shown := by
  have hcall : shown [call] = call.shown := String.join_cons.trans String.append_empty
  rw [Array.toList_push, shown_append, hcall]

theorem promptText_eq (prompt reply : String) :
    promptText prompt = (HostCall.request prompt reply).shown := by
  simp only [promptText, HostCall.shown, String.isEmpty_iff]

/-- A console and a buffer in the same run: the lines left are the same, and since some
earlier state the console has shown what the calls in the transcript show. -/
structure Console.Mirrors (start console : Console) (transcript : Transcript) (buffer : Buffer) :
    Prop where
  input : inputLines console.input = buffer.inputs
  output : console.output = start.output ++ shown transcript.toList
  complaints : console.complaints = start.complaints

namespace Console

variable {start console : Console} {transcript : Transcript} {buffer : Buffer}

theorem mirrors_ofInputs (console : Console) :
    console.Mirrors console #[] (Buffer.ofInputs (inputLines console.input)) where
  input := rfl
  output := (String.append_empty).symm
  complaints := rfl

/-- A request is answered alike, also when nothing is left. -/
theorem Mirrors.requestLine (h : start.Mirrors console transcript buffer) (prompt : String) :
    (console.requestLine prompt).1 = (buffer.requestLine prompt).1 ∧
      start.Mirrors (console.requestLine prompt).2
        (transcript.push (.request prompt (buffer.requestLine prompt).1))
        (buffer.requestLine prompt).2 := by
  rw [buffer.requestLine_eq, ← h.input]
  refine ⟨(headD_inputLines _).symm, (tail_inputLines _).symm, ?_, h.complaints⟩
  change console.output ++ promptText prompt = _
  rw [h.output, shown_push, promptText_eq, String.append_assoc]

/-- **The console and the buffer answer alike**, and the console shows the calls. -/
theorem answersAlike (start : Console) : AnswersAlike start.Mirrors where
  append text := by
    intro console transcript buffer h
    refine ⟨rfl, h.input, ?_, h.complaints⟩
    change console.output ++ text = start.output ++ shown (transcript.push (.append text)).toList
    rw [h.output, shown_push, String.append_assoc]
    rfl
  requestLine prompt := fun _ _ _ h => h.requestLine prompt
  markErrorLine line := by
    intro console transcript buffer h
    refine ⟨rfl, h.input, ?_, h.complaints⟩
    change console.output = start.output ++ shown (transcript.push (.mark line)).toList
    rw [h.output, shown_push]
    exact congrArg _ String.append_empty.symm

end Console

/-! ## Calls of the command -/

/-- Parsed arguments that ask for the run of a source text, which is given as it is or in a
file. -/
def Console.Runs (console : Console) (parsed : Except Refusal Invocation) (source : String)
    (dumpVariables : Bool) : Prop :=
  ∃ invocation, parsed = .ok invocation ∧ invocation.dumpVariables = dumpVariables ∧
    if invocation.file then console.readFile invocation.contents = .ok source
    else invocation.contents = source

namespace Console

variable {console : Console} {source : String} {dumpVariables : Bool}

/-- Every text can be run, with the variables after it or without. -/
theorem runs_text (console : Console) (source : String) (dumpVariables : Bool) :
    console.Runs (parseArguments ((if dumpVariables then ["-d"] else []) ++ ["--", source])) source
      dumpVariables := by
  refine ⟨⟨false, dumpVariables, source⟩, ?_, rfl, rfl⟩
  cases dumpVariables <;> rfl

/-- Every file that can be read can be run. -/
theorem runs_file (name : String) (dumpVariables : Bool) (h : console.readFile name = .ok source) :
    console.Runs (parseArguments ((if dumpVariables then ["-d"] else []) ++ ["-f", "--", name]))
      source dumpVariables := by
  refine ⟨⟨true, dumpVariables, name⟩, ?_, rfl, h⟩
  cases dumpVariables <;> rfl

theorem Runs.runCommandWith_eq {parse : List String → Except Refusal Invocation}
    {arguments : List String} (h : console.Runs (parse arguments) source dumpVariables) :
    (runCommandWith parse arguments : StateM Console UInt32) console =
      (runSource source dumpVariables : StateM Console UInt32) console := by
  obtain ⟨⟨file, _, contents⟩, hparse, rfl, hsource⟩ := h
  rw [runCommandWith, hparse]
  cases file with
  | true =>
    have hread : (Terminal.readFile contents : StateM Console (Except String String)) console =
        (.ok source, console) := Prod.ext hsource rfl
    simp only [Invocation.run, if_true, bind, StateT.bind, hread]
  | false =>
    obtain rfl : contents = source := hsource
    rfl

/-- After a run there may be a dump, and the result decides the exit code. -/
theorem runSource_of_execute (dumpVariables : Bool) {result : Except Fault Unit}
    {machine : Machine} {after : Console}
    (h : (Interpreter.execute source .idle : StateM Console _) console = ((result, machine), after)) :
    ∃ code, (runSource source dumpVariables : StateM Console UInt32) console =
        (code, if dumpVariables then after.append (dumpText machine.store) else after) ∧
      (code = 1 ↔ ∃ fault, result = .error fault) ∧ (code = 0 ↔ result = .ok ()) := by
  simp only [runSource, bind, StateT.bind, StateT.run, h]
  cases result with
  | ok value => exact ⟨exitSuccess, by cases dumpVariables <;> rfl, by simp [exitSuccess]⟩
  | error fault => exact ⟨exitFailure, by cases dumpVariables <;> rfl, by simp [exitFailure]⟩

end Console

/-- **A call of the command on the console is a run on the buffer** that serves the lines
of the input, whatever parser the arguments have gone through.  The output grows by what
the calls of that run show and then, if this is asked for, by one line for each variable
that the run leaves, in the ascending order of the names.  Nothing is complained of.  The
exit code is 1 just if the run fails, and 0 just if it does not. -/
theorem runCommand_mirrors_observe (parse : List String → Except Refusal Invocation)
    (console : Console) (arguments : List String) (source : String) (dumpVariables : Bool)
    (h : console.Runs (parse arguments) source dumpVariables) :
    let run := Interpreter.observe source .idle (Buffer.ofInputs (inputLines console.input))
    let ended := (runCommandWith parse arguments : StateM Console UInt32) console
    (∃ bindings : List (String × Value),
      bindings.Pairwise (fun earlier later => earlier.1 < later.1) ∧
      (∀ name value, (name, value) ∈ bindings ↔ run.machine.store.get? name = some value) ∧
      ended.2.output = console.output ++ shown run.calls ++
        if dumpVariables then
          String.join (bindings.map fun (name, value) => name ++ " = " ++ value.render ++ "\n")
        else "") ∧
    ended.2.complaints = console.complaints ∧
    (ended.1 = 1 ↔ ∃ fault, run.result = .error fault) ∧
    (ended.1 = 0 ↔ run.result = .ok ()) := by
  intro run ended
  obtain ⟨after, hexecute, hmirrors⟩ := (Console.answersAlike console).exists_execute_eq source
    .idle .idle console.mirrors_ofInputs
  obtain ⟨code, hrunSource, hcode⟩ := Console.runSource_of_execute dumpVariables hexecute
  have hended : ended = _ := h.runCommandWith_eq.trans hrunSource
  have houtput : after.output = console.output ++ shown run.calls := hmirrors.output
  rw [hended]
  refine ⟨⟨run.machine.store.toList, run.machine.store.toList_ascending,
    fun _ _ => Store.mem_toList, ?_⟩, ?_, hcode⟩
  · cases dumpVariables with
    | true => exact congrArg (· ++ _) houtput
    | false => exact houtput.trans String.append_empty.symm
  · cases dumpVariables <;> exact hmirrors.complaints

/-- A failing run with a dump.  The input is a line with a carriage return at its end,
bytes that are not UTF-8, and a line that nothing ends. -/
theorem runCommand_mirrors_observe_failing :
    let console : Console := ⟨fun _ => none, [51, 13, 10, 255, 10, 52], "", ""⟩
    let source := "가 = 입력(\"수?\")\n나 = 입력()\n다 = 입력(\"\")\n출력(가 + 나)\n출력(라)"
    let run := Interpreter.observe source .idle (Buffer.ofInputs (inputLines console.input))
    let ended := (runCommand ["-d", "--", source] : StateM Console UInt32) console
    inputLines console.input = ["3", "", "4"] ∧
      console.Runs (parseArguments ["-d", "--", source]) source true ∧ ended.1 = 1 ∧ ∃ bindings : List (String × Value),
        (∀ name value, (name, value) ∈ bindings ↔ run.machine.store.get? name = some value) ∧
        ended.2.output =
          "수? 3\n❌ 5번째 줄에서 오류가 있어요\n   '라' 이라는 변수는 아직 없어요\n" ++
          String.join (bindings.map fun (name, value) => name ++ " = " ++ value.render ++ "\n") := by
  -- without the abbreviations, what is left to decide are closed terms
  dsimp only
  have hruns := Console.runs_text ⟨fun _ => none, [51, 13, 10, 255, 10, 52], "", ""⟩
    "가 = 입력(\"수?\")\n나 = 입력()\n다 = 입력(\"\")\n출력(가 + 나)\n출력(라)" true
  obtain ⟨⟨bindings, -, hbindings, houtput⟩, -, hcode, -⟩ :=
    runCommand_mirrors_observe parseArguments _ _ _ _ hruns
  refine ⟨by decide +kernel, hruns, hcode.mpr ⟨⟨5, .undefinedVariable "라"⟩, ?_⟩, bindings,
    hbindings, houtput.trans ?_⟩
  · decide +kernel
  · rw [String.empty_append]
    refine congrArg (· ++ _) ?_
    decide +kernel

end KoreanScript
