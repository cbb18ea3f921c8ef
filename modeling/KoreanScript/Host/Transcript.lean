import KoreanScript.Host

/-!
# Transcripts

A transcript is the list of all calls that a program made to its host, in order,
each request with the line that was given in reply.  Any host becomes one that
keeps a transcript, and the program cannot tell the difference.
-/

set_option autoImplicit false

namespace KoreanScript

/-- One call of a program to its host. -/
inductive HostCall where
  | append (text : String)
  | request (prompt reply : String)
  | mark (line : Nat)
  deriving DecidableEq

/-- The calls made so far. -/
abbrev Transcript := Array HostCall

instance {m : Type → Type} [Monad m] [Host m] : Host (StateT Transcript m) where
  append text := do
    (Host.append text : m Unit)
    modify (·.push (.append text))
  requestLine prompt := do
    let reply ← (Host.requestLine prompt : m String)
    modify (·.push (.request prompt reply))
    return reply
  markErrorLine line := do
    (Host.markErrorLine line : m Unit)
    modify (·.push (.mark line))

end KoreanScript
