import Playhead.World.Sequence

/-!
# Replays

A replay is what an index holds in all: the **corrections** – at each moment the latest packet of
every corrective slot – and the worlds. Its root region is the two handles. A step plays the
corrections first and the worlds after them; when a world is joined anew, the corrections in effect
are shown once more.

`Playhead.Seeker` is the cursor on a replay. It remembers the moment the client shows and finds the
direction of each step; once a step has failed it refuses further work, because nobody knows what
the client shows then.
-/

namespace Playhead

open Wire (Codec Fault)

/-- How the corrections of a moment are shown: one packet after the other. -/
def correctionDiscipline : Discipline (List Packet) := .snapshots id

/-- The root region: the handles of the corrections and of the worlds. -/
def rootCodec : Codec Fault (Handle × Handle) := Stored.handle.pair Stored.handle

/-- A recording that can be played. -/
structure Replay where
  corrections : Track (List Packet)
  worlds : WorldSequence

namespace Replay

/-- Loads the corrections and the headers of the worlds from the index at a root. -/
def load (log : Log) (root : Handle) : Except Failure Replay := do
  let bytes ← (log.since root).mapError .log
  let ((corrections, worlds), _) ← (rootCodec.decode bytes).mapError .wire
  let corrections ←
    ((Track.atHandle corrections).load (Stored.packets log.compression) log).result
  let worlds ← ((WorldSequence.atHandle worlds).load log).result
  return ⟨corrections, worlds⟩

/-- Forgets everything but the handles. -/
def unload (replay : Replay) : Replay := ⟨replay.corrections.unload, replay.worlds.unload⟩

/-- The corrections in effect at a moment. -/
def restore (replay : Replay) : Restore := fun t =>
  .ofPackets () (replay.corrections.play correctionDiscipline origin t)

/-- Takes the client from `start` to `target`, which must lie in the direction or be the same. -/
def step (replay : Replay) (log : Log) (direction : Direction) (start target : Time) :
    Outcome Replay :=
  if direction.leads target start then .fail replay (.direction direction start target)
  else
    (Outcome.ofPackets replay
      (replay.corrections.step correctionDiscipline direction start target)).andThen fun replay =>
        (replay.worlds.step log direction start target replay.restore).map fun worlds =>
          { replay with worlds }

end Replay

/-- A replay in the making. -/
structure ReplayDraft where
  corrections : Timeline (List Packet)
  worlds : Timeline WorldHeader

namespace ReplayDraft

/-- A replay without corrections and worlds. -/
def empty : ReplayDraft := ⟨.empty, .empty⟩

/-- Writes the corrections, the worlds and the root; the handle of the root. -/
def commit (log : Log) (draft : ReplayDraft) : Except Unfinished (Handle × Log) := do
  let (corrections, log) ← (log.commitTimeline (Stored.packets log.compression)
    draft.corrections).mapError fun failure => ⟨failure, log⟩
  let (worlds, log) ← (log.commitTimeline (WorldHeader.codec.mapError .wire)
    draft.worlds).mapError fun failure => ⟨failure, log⟩
  let root ← (rootCodec.encode (corrections, worlds)).mapError fun fault => ⟨.wire fault, log⟩
  return log.commit root

end ReplayDraft

/-! ### Seeking -/

/-- A replay and the moment that the client shows. -/
structure Seeker where
  replay : Replay
  current : Option Time
  poisoned : Bool

namespace Seeker

/-- A seeker whose client has not been shown anything. -/
def ofReplay (replay : Replay) : Seeker := ⟨replay, none, false⟩

/-- A seeker on the index at a root. -/
def openAt (log : Log) (root : Handle) : Except Failure Seeker := do
  return ofReplay (← Replay.load log root)

/-- Takes the client to a moment. -/
def seek (seeker : Seeker) (log : Log) (target : Time) : Outcome Seeker :=
  if seeker.poisoned then .fail seeker .poisoned
  else if target < 0 then .fail seeker (.negativeTime target)
  else if seeker.current = some target then .done seeker
  else
    let start := seeker.current.getD origin
    let direction : Direction := if start ≤ target then .forward else .backward
    let o := seeker.replay.step log direction start target
    o.map fun replay =>
      if o.isOk then ⟨replay, some target, false⟩ else ⟨replay, seeker.current, true⟩

end Seeker

end Playhead
