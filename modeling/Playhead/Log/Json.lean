import Playhead.Json.Record
import Playhead.Log.Basic

/-!
# Settings of a log in JSON

The one setting of a log is its compression threshold. `Playhead.Log.thresholdOfText?` reads it from
a record with the field `compression_threshold`, which is a size or null and may be missing.
-/

namespace Playhead.Log

open Json

/-- The compression threshold that a record asks for. -/
def thresholdOfJson? (v : Value) : Option (Option Nat) :=
  let size? := nullable? (naturalBelow? UInt64.size)
  match v with
  | .list [] => some (some defaultThreshold)
  | .list [v] => size? v
  | .record members =>
    if members.all fun m => m.1.isSome then
      if members.any fun m => m.1 = some "compression_threshold" then
        (member? members "compression_threshold").bind size?
      else some (some defaultThreshold)
    else none
  | _ => none

/-- The compression threshold that a text asks for. -/
def thresholdOfText? (text : String) : Option (Option Nat) := do
  thresholdOfJson? (← Value.ofText? text)

end Playhead.Log
