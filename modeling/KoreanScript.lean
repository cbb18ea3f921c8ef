import KoreanScript.Main
import KoreanScript.Host.Buffer
import KoreanScript.Host.Transcript
import KoreanScript.Proofs.Runs
import KoreanScript.Proofs.Structured
import KoreanScript.Proofs.Grammar
import KoreanScript.Proofs.Composition
import KoreanScript.Proofs.Anchoring
import KoreanScript.Proofs.Nesting
import KoreanScript.Proofs.Termination
import KoreanScript.Proofs.Lexing
import KoreanScript.Proofs.Binary64
import KoreanScript.Proofs.Rounding
import KoreanScript.Proofs.ReadBack
import KoreanScript.Proofs.Formatting
import KoreanScript.Proofs.BlankLines
import KoreanScript.Proofs.Blocks
import KoreanScript.Proofs.Comparison
import KoreanScript.Proofs.Hosts
import KoreanScript.Proofs.Console
import KoreanScript.Proofs.Sessions
import KoreanScript.Proofs.Variables
import KoreanScript.Proofs.OneLine
import KoreanScript.Proofs.Output
import KoreanScript.Proofs.Replacement
import KoreanScript.Proofs.Causes
import KoreanScript.Proofs.Spacing
import KoreanScript.Proofs.Outcomes
import KoreanScript.Proofs.Offsets
import KoreanScript.Proofs.Cuts
import KoreanScript.Proofs.Digits
import KoreanScript.Proofs.Loops
import KoreanScript.Proofs.Literals
import KoreanScript.Proofs.Nearest
import KoreanScript.Proofs.Numerals
import KoreanScript.Proofs.Assignments
import KoreanScript.Proofs.Spans
import KoreanScript.Proofs.Branches
import KoreanScript.Proofs.Forms
import KoreanScript.Proofs.Encoding
import KoreanScript.Proofs.Bindings
import KoreanScript.Proofs.Collapsing
import KoreanScript.Proofs.Guarded
import KoreanScript.Proofs.Shortest
import KoreanScript.Proofs.Layouts
