/-!
What can go wrong when markup is read or written.
-/

namespace Overseer.Markup

/-- Offsets and limits count UTF-8 bytes. -/
inductive Error where
  | unexpectedEnd
  | malformed (offset : Nat) (reason : String)
  | mismatchedTag (offset : Nat) (expected found : String)
  | bufferExceeded (limit : Nat)
  deriving DecidableEq, Repr

def Error.message : Error → String
  | .unexpectedEnd => "unexpected end of input"
  | .malformed offset reason => s!"malformed markup at offset {offset}: {reason}"
  | .mismatchedTag offset expected found =>
    s!"mismatched closing tag at offset {offset}: expected </{expected}>, found </{found}>"
  | .bufferExceeded limit => s!"generated output exceeds buffer of {limit} bytes"

end Overseer.Markup
