import Playhead.Packet.Json
import Playhead.Recording.Basic

/-!
# Recordings in JSON

A recording is a record whose one field, `packets`, lists records of a time in milliseconds and a
packet (`Playhead.Recording.ofText?`).
-/

namespace Playhead.Recording

open Json

/-- A packet with its time. -/
def momentOfJson? (v : Value) : Option (Time × Packet) := do
  let [time, packet] ← fields? ["time", "packet"] v | none
  return ((← i64? time).toInt, ← Packet.ofJson? packet)

/-- The recording that a value describes. -/
def ofJson? (v : Value) : Option Recording := do
  let [packets] ← fields? ["packets"] v | none
  list? momentOfJson? packets

/-- The recording that a text describes. -/
def ofText? (text : String) : Option Recording := do
  ofJson? (← Value.ofText? text)

end Playhead.Recording
