import KoreanScript.Host

/-!
# The console

A console shows prompts in its output, each followed by a space, and reads lines
of input as bytes.  A line ends with a line feed or with the input; line feeds and
carriage returns at its end are removed.  Bytes that are not UTF-8 are read up to
the end of their line and count as an empty line, and so does the end of input.

A terminal is a console with files and with a second output for complaints, and
what is here is all of it as one value.
-/

set_option autoImplicit false

namespace KoreanScript

/-! ## Lines of bytes -/

/-- The byte of a line feed. -/
def lineFeed : UInt8 := 10

/-- The first line of some bytes with its end, and the bytes after it. -/
def splitLine (bytes : List UInt8) : List UInt8 × List UInt8 :=
  match bytes.dropWhile (· != lineFeed) with
  | [] => (bytes, [])
  | last :: rest => (bytes.takeWhile (· != lineFeed) ++ [last], rest)

/-- A text without line feeds and carriage returns at its end. -/
def withoutLineEnd (text : List Char) : List Char :=
  (text.reverse.dropWhile fun c => c == '\n' || c == '\r').reverse

/-- The line of input that some bytes are. -/
def decodeLine (bytes : List UInt8) : String :=
  match String.fromUTF8? ⟨bytes.toArray⟩ with
  | some text => String.ofList (withoutLineEnd text.toList)
  | none => ""

/-- An error of the system, with its number. -/
def systemError (description : String) (code : UInt32) : String :=
  description ++ " (os error " ++ toString code ++ ")"

/-- The text of a file that some bytes are. -/
def decodeFile (bytes : List UInt8) : Except String String :=
  match String.fromUTF8? ⟨bytes.toArray⟩ with
  | some text => .ok text
  | none => .error "stream did not contain valid UTF-8"

/-- What the output shows of a prompt. -/
def promptText (prompt : String) : String :=
  if prompt.isEmpty then "" else prompt ++ " "

/-! ## Terminals -/

/-- A host that also gives the contents of files and takes complaints. -/
class Terminal (m : Type → Type) extends Host m where
  /-- The text of a file, or the reason why there is none. -/
  readFile : String → m (Except String String)
  /-- Takes a text for the second output. -/
  complain : String → m Unit

/-- A terminal as a value. -/
structure Console where
  files : String → Option (List UInt8)
  input : List UInt8
  output : String
  complaints : String

namespace Console

/-- Adds a text to the output. -/
def append (console : Console) (text : String) : Console :=
  { console with output := console.output ++ text }

/-- Shows a prompt and reads a line. -/
def requestLine (console : Console) (prompt : String) : String × Console :=
  let (line, rest) := splitLine console.input
  (decodeLine line, { console.append (promptText prompt) with input := rest })

/-- The text of a file, which has to exist and to be UTF-8. -/
def readFile (console : Console) (name : String) : Except String String :=
  match console.files name with
  | some bytes => decodeFile bytes
  | none => .error (systemError "No such file or directory" 2)

/-- Adds a text to the second output. -/
def complain (console : Console) (text : String) : Console :=
  { console with complaints := console.complaints ++ text }

end Console

instance : Terminal (StateM Console) where
  append text := modify (·.append text)
  requestLine prompt := modifyGet (·.requestLine prompt)
  markErrorLine _ := pure ()
  readFile name := do return (← get).readFile name
  complain text := modify (·.complain text)

end KoreanScript
