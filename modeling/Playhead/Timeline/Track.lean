import Playhead.Log.Basic
import Playhead.Outcome
import Playhead.Packet.Basic
import Playhead.Timeline.Basic

/-!
# Tracks: timelines in the log, and how they are played

A track is a timeline under a handle. It is loaded when it is needed and dropped afterwards; a
failed load leaves it as it was (`Playhead.Track.load`).

What a track shows to the client depends on what its values mean (`Playhead.Discipline`):

* **snapshots** – each value is complete, so only the floor of the target counts, and nothing is
  shown when it is in effect already;
* **changes** – each value is a step from the one before, so every entry of the span is shown,
  forwards in order and backwards in the opposite order, undone.
-/

namespace Playhead

open Wire (Codec)

/-- A timeline in the log, with its entries while it is loaded. -/
structure Track (V : Type) where
  handle : Handle
  loaded : Option (Timeline V)

/-- What the values of a track mean and what they show. -/
inductive Discipline (V : Type) where
  | snapshots (emit : V → List Packet)
  | changes (forward backward : V → List Packet)

namespace Track

variable {V : Type}

/-- The track at a handle, not loaded yet. -/
def atHandle (handle : Handle) : Track V := ⟨handle, none⟩

/-- Whether the entries are there. -/
def isLoaded (track : Track V) : Bool := track.loaded.isSome

/-- The timeline stored at the track's handle. -/
def stored (track : Track V) (value : Codec Failure V) (log : Log) :
    Except Failure (Timeline V) := do
  let bytes ← (log.since track.handle).mapError .log
  let (line, _) ← (Timeline.codec value).decode bytes
  return line

/-- Gives the track its entries. All of them are read before it is given any, so what a failure
leaves is the track as it was. -/
def load (track : Track V) (value : Codec Failure V) (log : Log) : Outcome (Track V) :=
  match track.stored value log with
  | .ok line => .done { track with loaded := some line }
  | .error failure => .fail track failure

/-- The track without its entries. -/
def unload (track : Track V) : Track V := { track with loaded := none }

/-- The entries, once they are loaded. -/
def timeline (track : Track V) : Except Failure (Timeline V) :=
  match track.loaded with
  | some line => .ok line
  | none => .error (.notLoaded track.handle)

/-- The packets that take the client from `start` forward to `target`; none unless it is later. -/
def play (track : Track V) (discipline : Discipline V) (start target : Time) :
    Except Failure (List Packet) :=
  if target ≤ start then .ok []
  else do
    let line ← track.timeline
    match discipline with
    | .changes forward _ => return (line.between start target).flatMap fun e => forward e.2
    | .snapshots emit =>
      match line.floor? target with
      | some (key, v) => return if start < key then emit v else []
      | none => return []

/-- The packets that take the client from `start` back to `target`; none unless it is earlier. -/
def playBackward (track : Track V) (discipline : Discipline V) (start target : Time) :
    Except Failure (List Packet) :=
  if start ≤ target then .ok []
  else do
    let line ← track.timeline
    match discipline with
    | .changes _ backward =>
      return (line.between target start).reverse.flatMap fun e => backward e.2
    | .snapshots emit =>
      match line.floor? target with
      | some (key, v) => return if line.floorKey? start = some key then [] else emit v
      | none => return []

/-- The packets of a step in a given direction. -/
def step (track : Track V) (discipline : Discipline V) :
    Direction → Time → Time → Except Failure (List Packet)
  | .forward => track.play discipline
  | .backward => track.playBackward discipline

end Track

/-- The timeline of a log region in the making: writes it and gives its handle. -/
def Log.commitTimeline {V : Type} (log : Log) (value : Codec Failure V) (line : Timeline V) :
    Except Failure (Handle × Log) := do
  let bytes ← (Timeline.codec value).encode line
  return log.commit bytes

/-- Writes a timeline in the making and begins the next one, which is empty whether or not writing
succeeds. -/
def Timeline.build {V : Type} (line : Timeline V) (value : Codec Failure V) (log : Log) :
    Timeline V × Except Failure (Handle × Log) :=
  (.empty, log.commitTimeline value line)

end Playhead
