import KoreanScript.Host
import KoreanScript.Text.Lines

/-!
# The buffer host

A buffer keeps everything in memory.  The output is collected in one text, lines
of input are served from a queue and are empty once it has run dry, and prompts
and the line of the last fault are kept for inspection.
-/

set_option autoImplicit false

namespace KoreanScript

/-- A host in memory. -/
structure Buffer where
  output : String
  inputs : List String
  prompts : Array String
  errorLine : Option Nat

namespace Buffer

/-- A buffer that will serve some lines of input. -/
def ofInputs (inputs : List String) : Buffer :=
  ⟨"", inputs, #[], none⟩

/-- Adds a text to the output. -/
def append (buffer : Buffer) (text : String) : Buffer :=
  { buffer with output := buffer.output ++ text }

/-- Serves a line of input for a prompt. -/
def requestLine (buffer : Buffer) (prompt : String) : String × Buffer :=
  let asked := { buffer with prompts := buffer.prompts.push prompt }
  match buffer.inputs with
  | [] => ("", asked)
  | line :: others => (line, { asked with inputs := others })

theorem requestLine_eq (buffer : Buffer) (prompt : String) :
    buffer.requestLine prompt =
      (buffer.inputs.headD "",
        { buffer with prompts := buffer.prompts.push prompt, inputs := buffer.inputs.tail }) := by
  obtain ⟨output, inputs, prompts, errorLine⟩ := buffer
  cases inputs <;> rfl

/-- Keeps the line of a fault. -/
def markErrorLine (buffer : Buffer) (line : Nat) : Buffer :=
  { buffer with errorLine := some line }

/-- The lines of the output. -/
def lines (buffer : Buffer) : List String :=
  (Text.lines buffer.output.toList).map String.ofList

end Buffer

instance : Host (StateM Buffer) where
  append text := modify (·.append text)
  requestLine prompt := modifyGet (·.requestLine prompt)
  markErrorLine line := modify (·.markErrorLine line)

end KoreanScript
