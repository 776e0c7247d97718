import Playhead.Wire.Fault

/-!
# Why an index cannot be built, loaded or played

`Playhead.Failure` lists the causes and `Playhead.Failure.message` gives the line that is shown for
each. Where a failure was first noticed below, by the log or by a codec, the line says so and
repeats what was said there.
-/

namespace Playhead

/-- Milliseconds since a recording began. -/
abbrev Time := Int

/-- The moment before everything: no recorded packet is that early. -/
def origin : Time := -1

/-- The last moment there is. -/
def Time.last : Time := 0x7FFFFFFFFFFFFFFF

/-- Whether a time has a place on the 64-bit clock. -/
def Time.isRepresentable (t : Time) : Bool :=
  -0x8000000000000000 ≤ t && t ≤ Time.last

/-- The place of a region in the log: the number of bytes before it. -/
abbrev Handle := Nat

/-- Why the log could not be read. -/
inductive LogFault where
  /-- There is no such place in the log. -/
  | outOfBounds (handle : Handle) (length : Nat)
  /-- The log ends before as many bytes as were asked for. -/
  | endOfInput
  deriving DecidableEq, Repr

/-- The line shown for a fault of the log. -/
def LogFault.message : LogFault → String
  | .outOfBounds handle length => s!"handle {handle} out of bounds (cache holds {length} bytes)"
  | .endOfInput => s!"io error: {Wire.endOfInputMessage}"

/-- Where playback is asked to go. -/
inductive Direction where
  | forward
  | backward
  deriving DecidableEq, Repr

/-- The verb for a direction. -/
def Direction.verb : Direction → String
  | .forward => "play"
  | .backward => "rewind"

/-- What is wrong with the bytes of a chunk column. -/
inductive ColumnDefect where
  | paletteSize
  | paletteIndex
  | entryWidth
  | blockCount
  deriving DecidableEq, Repr

/-- The words for a defect. -/
def ColumnDefect.message : ColumnDefect → String
  | .paletteSize => "palette size does not match width"
  | .paletteIndex => "palette index out of range"
  | .entryWidth => "entry width above 32 bits"
  | .blockCount => "block count outside section"

/-- Why an operation on an index failed. -/
inductive Failure where
  /-- The log cannot be read there. -/
  | log (fault : LogFault)
  /-- A stored value cannot be read or written. -/
  | wire (fault : Wire.Fault)
  /-- The bytes of a chunk section end too early. -/
  | endOfInput
  /-- No kind of thing has this number. -/
  | unknownThingKind (kind : UInt8)
  /-- A lifetime that is empty or the wrong way round. -/
  | invalidInterval (spawn despawn : Time)
  /-- The keys of a stored timeline do not increase. -/
  | keyOrder (previous time : Time)
  /-- A packet is earlier than the one before it. -/
  | timeOrder (previous time : Time)
  /-- A step in the wrong direction. -/
  | direction (asked : Direction) (start target : Time)
  /-- A time before the recording. -/
  | negativeTime (time : Time)
  /-- A timeline is used before it was loaded. -/
  | notLoaded (handle : Handle)
  /-- A chunk column that breaks its format. -/
  | malformedColumn (defect : ColumnDefect)
  /-- A seeker is used after one of its seeks failed. -/
  | poisoned
  deriving DecidableEq, Repr

/-- The line shown for a failure. -/
def Failure.message : Failure → String
  | .log fault => s!"cache error: {fault.message}"
  | .wire fault => s!"protocol error: {fault.message}"
  | .endOfInput => s!"io error: {Wire.endOfInputMessage}"
  | .unknownThingKind kind => s!"unknown thing kind: {kind}"
  | .invalidInterval spawn despawn =>
    s!"invalid interval: spawn {spawn} must precede despawn {despawn}"
  | .keyOrder previous time => s!"tree keys out of order: {time} after {previous}"
  | .timeOrder previous time => s!"packet at {time} arrived after {previous}"
  | .direction asked start target => s!"cannot {asked.verb} from {start} to {target}"
  | .negativeTime time => s!"cannot seek to negative time {time}"
  | .notLoaded handle => s!"state tree at handle {handle} is not loaded"
  | .malformedColumn defect => s!"malformed chunk data: {defect.message}"
  | .poisoned => "seeker poisoned by an earlier failure"

end Playhead
