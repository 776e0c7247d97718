/-!
# What can be wrong with bytes on the wire

`Playhead.Wire.Fault` lists the causes for which a value cannot be written or read, and
`Playhead.Wire.Fault.message` gives the one line that is shown for each.
-/

namespace Playhead.Wire

/-- What the bytes of a text fail on: a sequence that no continuation could save, with the number
of its bytes that were still acceptable, or one that the end of the text cuts off. -/
inductive BrokenText where
  | malformed (length : Nat)
  | cutOff
  deriving DecidableEq, Repr

/-- Why a value could not be written to, or read from, a byte string. -/
inductive Fault where
  /-- The bytes end inside a value. -/
  | endOfInput
  /-- A compressed stream ends before its checksum does. -/
  | incompleteStream
  /-- A compressed stream breaks the format's rules or its checksum. -/
  | corruptStream
  /-- A number does not fit its form: too many groups, too large, or a length below zero. -/
  | oversizedNumber
  /-- A text announces more bytes than any text may have. -/
  | oversizedText (length limit : Nat)
  /-- No variant has this number. -/
  | unknownVariant (tag : Int32)
  /-- The bytes of a text are well formed up to the given place and broken there. -/
  | brokenText (validUpTo : Nat) (cause : BrokenText)
  /-- A run of bytes has another length than was announced. -/
  | lengthMismatch (expected actual : Nat)
  deriving DecidableEq, Repr

/-- The line shown for a broken text. -/
def BrokenText.message (validUpTo : Nat) : BrokenText → String
  | .malformed length => s!"invalid utf-8 sequence of {length} bytes from index {validUpTo}"
  | .cutOff => s!"incomplete utf-8 byte sequence from index {validUpTo}"

/-- What is said of input that ends too early, whoever was reading it. -/
def endOfInputMessage : String := "failed to fill whole buffer"

/-- The line shown for a fault. -/
def Fault.message : Fault → String
  | .endOfInput => s!"IO error: {endOfInputMessage}"
  | .incompleteStream => "IO error: incomplete deflate stream"
  | .corruptStream => "IO error: corrupt deflate stream"
  | .oversizedNumber => "VarInt too large"
  | .oversizedText length limit => s!"String too long: {length} > {limit}"
  | .unknownVariant tag => s!"Invalid enum variant: {tag}"
  | .brokenText validUpTo cause => s!"UTF-8 error: {cause.message validUpTo}"
  | .lengthMismatch expected actual =>
    s!"Frame length mismatch: expected {expected} bytes, got {actual}"

end Playhead.Wire
