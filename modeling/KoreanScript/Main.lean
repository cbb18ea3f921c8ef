import KoreanScript.CommandLine

/-!
# The program

The command line on the real console.  Output is flushed after every text, so
that prompts are seen before their line is read.
-/

set_option autoImplicit false

namespace KoreanScript

/-- Reads the bytes of one line, with its end. -/
partial def readLineBytes (stream : IO.FS.Stream) (line : Array UInt8) : IO (Array UInt8) := do
  let bytes ← stream.read 1
  match bytes.data[0]? with
  | none => return line
  | some byte =>
    if byte == lineFeed then return line.push byte else readLineBytes stream (line.push byte)

/-- Writes a text to the standard output. -/
def writeOutput (text : String) : IO Unit := do
  let stdout ← IO.getStdout
  stdout.putStr text
  stdout.flush

/-- The reason why a file cannot be read, as the system gives it. -/
def readError : IO.Error → String
  | .noFileOrDirectory _ code description => systemError description code
  | .permissionDenied _ code description => systemError description code
  | .inappropriateType _ code description => systemError description code
  | other => toString other

instance : Terminal IO where
  append := writeOutput
  requestLine prompt := do
    writeOutput (promptText prompt)
    let line ← readLineBytes (← IO.getStdin) #[]
    return decodeLine line.toList
  markErrorLine _ := pure ()
  readFile name := do
    try
      return decodeFile (← IO.FS.readBinFile name).data.toList
    catch error => return .error (readError error)
  complain := IO.eprint

end KoreanScript

/-- Runs the command. -/
def main (arguments : List String) : IO UInt32 :=
  KoreanScript.runCommand arguments
