/-!
# Hosts

A program talks to the outside world through its host: it appends texts to the
output, asks for lines of input, and points at the line of a fault.  Hosts are
monads, so the same interpreter serves a terminal, an editor and a scripted
conversation.
-/

set_option autoImplicit false

namespace KoreanScript

/-- The environment that programs run in. -/
class Host (m : Type → Type) where
  /-- Takes a text for the output. -/
  append : String → m Unit
  /-- Gives one line of input, without its end, for a prompt that may be empty. -/
  requestLine : String → m String
  /-- Learns the line of the fault being reported, counted from zero. -/
  markErrorLine : Nat → m Unit

end KoreanScript
