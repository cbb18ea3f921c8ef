import KoreanScript.Fault
import KoreanScript.Host

/-!
# Diagnostics

A fault is shown to the user as two lines: a banner that names the source line,
and the indented message.  Reporting a fault first marks its line with the host
and then appends the two lines as one text.
-/

set_option autoImplicit false

namespace KoreanScript

/-- What the user is shown of a fault. -/
structure Diagnostic where
  line : Nat
  message : String
  deriving DecidableEq

namespace Diagnostic

/-- The diagnostic of a fault. -/
def ofFault (fault : Fault) : Diagnostic :=
  ⟨fault.line, fault.message⟩

/-- The line that names the source line at fault. -/
def banner (diagnostic : Diagnostic) : String :=
  "❌ " ++ toString diagnostic.line ++ "번째 줄에서 오류가 있어요"

/-- The banner and the indented message below it. -/
def render (diagnostic : Diagnostic) : String :=
  diagnostic.banner ++ "\n   " ++ diagnostic.message

end Diagnostic

/-- Reports a fault to the host. -/
def report {m : Type → Type} [Monad m] [Host m] (fault : Fault) : m Diagnostic := do
  let diagnostic := Diagnostic.ofFault fault
  Host.markErrorLine (fault.line - 1)
  Host.append (diagnostic.render ++ "\n")
  return diagnostic

end KoreanScript
