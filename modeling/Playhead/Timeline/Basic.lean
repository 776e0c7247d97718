import Playhead.Failure
import Playhead.SortedMap
import Playhead.Wire.Number
import Playhead.Wire.Varint

/-!
# Timelines

A timeline gives values to moments. What holds at a moment is the entry with the greatest key not
after it, its **floor** (`Playhead.Timeline.floor?`); what happens over a span is the entries
strictly after its start and not after its end (`Playhead.Timeline.between`).

In the log a timeline is the number of its entries, then each entry as the distance from the key
before it, the first counted from zero, and its value (`Playhead.Timeline.codec`). Reading insists
that keys strictly increase, so that every stored entry is an entry of the timeline read.
-/

namespace Playhead

open Wire (Codec)

/-- Values at moments, in order of time. -/
abbrev Timeline (V : Type) := SortedMap Time V

namespace Timeline

variable {V : Type}

/-- The last entry that is not after a moment. -/
def floor? (line : Timeline V) (t : Time) : Option (Time × V) :=
  (line.entries.filter fun e => e.1 ≤ t).getLast?

/-- The key of the last entry that is not after a moment. -/
def floorKey? (line : Timeline V) (t : Time) : Option Time :=
  (line.floor? t).map (·.1)

/-- The entries after `start` and not after `stop`. -/
def between (line : Timeline V) (start stop : Time) : List (Time × V) :=
  line.entries.filter fun e => start < e.1 ∧ e.1 ≤ stop

/-- The bytes of entries that follow the key `previous`. -/
def encodeEntries (value : Codec Failure V) : Time → List (Time × V) → Except Failure Bytes
  | _, [] => .ok []
  | previous, (t, v) :: rest => do
    let key ← (Wire.varlong.encode (Int64.ofInt (t - previous))).mapError .wire
    let front ← value.encode v
    let back ← encodeEntries value t rest
    return key ++ front ++ back

/-- Reads `count` entries that follow the key `previous` and adds them to a timeline. The first
entry may have any key, the others a greater one than the entry before. -/
def decodeEntries (value : Codec Failure V) :
    Nat → Bool → Time → Timeline V → Bytes → Except Failure (Timeline V × Bytes)
  | 0, _, _, line, bytes => .ok (line, bytes)
  | count + 1, isFirst, previous, line, bytes =>
    match Wire.varlong.decode bytes with
    | .error fault => .error (.wire fault)
    | .ok (delta, rest) =>
      let t := previous + delta.toInt
      if !t.isRepresentable then .error (.keyOrder previous previous)
      else if !isFirst && t ≤ previous then .error (.keyOrder previous t)
      else
        match value.decode rest with
        | .error failure => .error failure
        | .ok (v, rest) => decodeEntries value count false t (line.insert t v) rest

/-- A timeline of values that are stored in the given form. -/
def codec (value : Codec Failure V) : Codec Failure (Timeline V) where
  encode line := do
    let front ← (Wire.length.encode line.size).mapError .wire
    let back ← encodeEntries value 0 line.entries
    return front ++ back
  decode bytes := do
    let (count, rest) ← (Wire.length.decode bytes).mapError .wire
    decodeEntries value count true 0 .empty rest

end Timeline

end Playhead
