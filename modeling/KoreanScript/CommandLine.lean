import KoreanScript.Host.Console
import KoreanScript.Interpreter

/-!
# The command line

A call names one script, given as its text or as the name of a file that holds it,
and may ask for the variables after the run.  What the arguments of a call say is up
to a parser, and the command is there for every parser (`runCommandWith`).

The parser that comes with the command, `parseArguments`, stands in for a library
and keeps to the usual conventions.  It has flags for files, for the variables and
for the version, but none for help.  Flags have a long name and a letter, and letters
may be joined.  A lone dash and the empty text are ordinary arguments, and after two
dashes every argument is one.  Arguments are taken from left to right.  The first one
that is wrong, or that asks for the version, decides the call.
-/

set_option autoImplicit false

namespace KoreanScript

/-! ## Parsed arguments -/

/-- What a call of the command asks for. -/
structure Invocation where
  /-- Whether `contents` is the name of a file instead of a script. -/
  file : Bool
  dumpVariables : Bool
  contents : String

/-- Why a call does not lead to a run. -/
inductive Refusal where
  /-- Something about the command is asked for. -/
  | answer (text : String)
  /-- The call is wrong. -/
  | misuse (complaint : String)

/-! ## Parsing arguments -/

/-- What the command answers when it is asked for its version. -/
def versionText : String := "ks 0.1.0\n"

/-- The flags of the command. -/
inductive Flag where
  | file
  | dumpVariables
  | version
  deriving DecidableEq

/-- The flag with a given letter. -/
def Flag.ofLetter? : Char → Option Flag
  | 'f' => some .file
  | 'd' => some .dumpVariables
  | 'V' => some .version
  | _ => none

/-- The flag with a given long name. -/
def Flag.ofName? : String → Option Flag
  | "file" => some .file
  | "dump-variables" => some .dumpVariables
  | "version" => some .version
  | _ => none

/-- What has been said so far. -/
structure Options where
  file : Bool
  dumpVariables : Bool
  script : Option String

/-- Nothing said yet. -/
def Options.none : Options := ⟨false, false, Option.none⟩

namespace Options

/-- Takes a flag; only the version may be asked for together with itself. -/
def setFlag (options : Options) : Flag → Except Refusal Options
  | .version => .error (.answer versionText)
  | .file =>
    if options.file then .error (.misuse "the argument '--file' cannot be used multiple times")
    else .ok { options with file := true }
  | .dumpVariables =>
    if options.dumpVariables then
      .error (.misuse "the argument '--dump-variables' cannot be used multiple times")
    else .ok { options with dumpVariables := true }

/-- Takes an ordinary argument, of which there can be one. -/
def setScript (options : Options) (argument : String) : Except Refusal Options :=
  match options.script with
  | some _ => .error (.misuse ("unexpected argument '" ++ argument ++ "' found"))
  | Option.none => .ok { options with script := some argument }

/-- Takes a flag by its long name; flags have no values. -/
def setName (options : Options) (name : List Char) : Except Refusal Options :=
  match Flag.ofName? (String.ofList name) with
  | some flag => options.setFlag flag
  | Option.none => .error (.misuse ("unexpected argument '--" ++ String.ofList name ++ "' found"))

/-- Takes flags by their letters. -/
def setLetters (options : Options) : List Char → Except Refusal Options
  | [] => .ok options
  | letter :: others =>
    match Flag.ofLetter? letter with
    | some flag => do
      let options ← options.setFlag flag
      options.setLetters others
    | Option.none =>
      .error (.misuse ("unexpected argument '-" ++ String.ofList [letter] ++ "' found"))

/-- Takes the arguments of a call. -/
def take (options : Options) : List String → Except Refusal Options
  | [] => .ok options
  | argument :: others =>
    match argument.toList with
    | ['-', '-'] => others.foldlM setScript options
    | '-' :: '-' :: name => do
      let options ← options.setName name
      options.take others
    | '-' :: letter :: letters => do
      let options ← options.setLetters (letter :: letters)
      options.take others
    | _ => do
      let options ← options.setScript argument
      options.take others

/-- What the options ask for, if there is a script among them. -/
def complete (options : Options) : Except Refusal Invocation :=
  match options.script with
  | some script => .ok ⟨options.file, options.dumpVariables, script⟩
  | Option.none =>
    .error (.misuse "the following required arguments were not provided: <CONTENTS>")

end Options

/-- Parses the arguments of a call. -/
def parseArguments (arguments : List String) : Except Refusal Invocation := do
  (← Options.none.take arguments).complete

/-! ## Calls -/

/-- The exit code of a call that went well. -/
def exitSuccess : UInt32 := 0

/-- The exit code of a run that failed or could not start. -/
def exitFailure : UInt32 := 1

/-- The exit code of a wrong call. -/
def exitMisuse : UInt32 := 2

variable {m : Type → Type} [Monad m] [Terminal m]

/-- One line for each variable, in the order of their names. -/
def dumpText (store : Store) : String :=
  String.join (store.toList.map fun (name, value) => name ++ " = " ++ value.render ++ "\n")

/-- Runs a script and answers with the exit code. -/
def runSource (source : String) (dumpVariables : Bool) : m UInt32 := do
  let (result, machine) ← StateT.run (Interpreter.execute source : Interpreter m _) .idle
  if dumpVariables then
    Host.append (dumpText machine.store)
  match result with
  | .ok () => return exitSuccess
  | .error _ => return exitFailure

/-- Runs the script that is asked for. -/
def Invocation.run (invocation : Invocation) : m UInt32 := do
  if invocation.file then
    match ← Terminal.readFile invocation.contents with
    | .ok source => runSource source invocation.dumpVariables
    | .error reason =>
      Terminal.complain
        ("Failed to read the input file '" ++ invocation.contents ++ "': " ++ reason ++ "\n")
      return exitFailure
  else runSource invocation.contents invocation.dumpVariables

/-- **A call of the command** with a parser for its arguments, answered with the exit code. -/
def runCommandWith (parse : List String → Except Refusal Invocation) (arguments : List String) :
    m UInt32 := do
  match parse arguments with
  | .ok invocation => invocation.run
  | .error (.answer text) =>
    Host.append text
    return exitSuccess
  | .error (.misuse complaint) =>
    Terminal.complain ("error: " ++ complaint ++ "\n")
    return exitMisuse

/-- A call of the command with its own parser. -/
def runCommand (arguments : List String) : m UInt32 :=
  runCommandWith parseArguments arguments

end KoreanScript
