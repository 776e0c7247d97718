import Playhead.Indexer.Scene
import Playhead.Packet.Correction
import Playhead.Recording.Basic
import Playhead.Replay

/-!
# Building an index from a recording

The indexer takes packets in order of time (`Playhead.Indexer.push`) and writes the index to a log.
A join or a respawn closes the world that is open, writes it, and opens the next; corrective packets
go into snapshots of all slots, which a join empties; everything else goes to the open world.

A packet can fail, and nothing is taken back then: what each step gives is the `Playhead.Outcome`
that it leaves. Only a packet that comes too early has no effect at all.

`Playhead.Indexer.finish` closes the last world at the end of time and writes the root.
-/

namespace Playhead

/-- An index in the making. -/
structure Indexer where
  log : Log
  /-- The time of the last packet. -/
  last : Time
  draft : ReplayDraft
  /-- The latest corrective packet of each slot since the last join. -/
  corrections : SortedMap CorrectionSlot Packet
  scene : Option Scene
  stats : Stats

namespace Indexer

/-- Nothing has been recorded. -/
def start (log : Log) : Indexer := ⟨log, 0, .empty, .empty, none, .zero⟩

/-- Writes a world that has ended. -/
def writeWorld (ix : Indexer) (scene : Scene) : Outcome Indexer :=
  match scene.draft.commit ix.log with
  | .error unfinished => .fail { ix with log := unfinished.log } unfinished.failure
  | .ok (header, log) =>
    .done { ix with
      log := log
      draft.worlds := ix.draft.worlds.insert scene.start header }

/-- Closes the open world and writes it. It is not open any more, even if it cannot be written. -/
def closeWorld (ix : Indexer) (t : Time) : Outcome Indexer :=
  match ix.scene with
  | none => .done ix
  | some scene =>
    let ended := (Progress.mk scene ix.log ix.stats).endAll t
    (ended.map fun p => { ix with log := p.log, scene := none, stats := p.stats }).andThen fun ix =>
      ix.writeWorld ended.state.scene

/-- Opens a world, after closing the one that is open. -/
def openWorld (ix : Indexer) (t : Time) (info : WorldInfo) (seeds : ChannelSeeds) :
    Outcome Indexer :=
  (ix.closeWorld t).andThen fun ix =>
    .done { ix with
      scene := some (.begin t info seeds)
      stats.worlds := ix.stats.worlds + 1 }

/-- A client joins: no corrections are in effect, and a world begins. -/
def join (ix : Indexer) (t : Time) (settings : JoinSettings) (dimension : Dimension) :
    Outcome Indexer :=
  { ix with
    corrections := .empty
    draft.corrections := ix.draft.corrections.insert t [] }.openWorld t ⟨settings, dimension⟩
      (.ofJoin settings)

/-- The client respawns: a world of the same session begins. -/
def respawn (ix : Indexer) (t : Time) (dimension : Dimension) : Outcome Indexer :=
  match ix.scene with
  | none => .done { ix with stats.untracked := ix.stats.untracked + 1 }
  | some scene =>
    ix.openWorld t ⟨scene.draft.info.join, dimension⟩ (.ofPrevious scene.draft)

/-- A corrective packet takes its slot, and the snapshot of all slots is kept. -/
def correct (ix : Indexer) (t : Time) (slot : CorrectionSlot) (packet : Packet) : Indexer :=
  let corrections := ix.corrections.insert slot packet
  { ix with
    corrections := corrections
    draft.corrections := ix.draft.corrections.insert t corrections.values }

/-- A packet for the open world. -/
def receive (ix : Indexer) (t : Time) (packet : Packet) : Outcome Indexer :=
  match ix.scene with
  | none => .done { ix with stats.untracked := ix.stats.untracked + 1 }
  | some scene =>
    ((Progress.mk scene ix.log ix.stats).receive t packet).map fun p =>
      { ix with log := p.log, scene := some p.scene, stats := p.stats }

/-- The effect of a packet. -/
def handle (ix : Indexer) (t : Time) (packet : Packet) : Outcome Indexer :=
  match packet with
  | .joinGame settings dimension => ix.join t settings dimension
  | .respawn dimension => ix.respawn t dimension
  | .playerPosition .. => .done ix
  | packet =>
    match CorrectionSlot.of? packet with
    | some slot => .done (ix.correct t slot packet)
    | none => ix.receive t packet

/-- Takes a packet. One that comes too early is not even counted; any other is, also if its effect
fails. -/
def push (ix : Indexer) (t : Time) (packet : Packet) : Outcome Indexer :=
  if t < ix.last then .fail ix (.timeOrder ix.last t)
  else { ix with last := t, stats.packets := ix.stats.packets + 1 }.handle t packet

/-- Takes all packets, up to the first that fails. -/
def pushAll (recording : Recording) (ix : Indexer) : Outcome Indexer :=
  Outcome.forEach ix (fun e ix => ix.push e.1 e.2) recording

/-- Closes the last world and writes the root; its handle. -/
def finish (ix : Indexer) : Except Unfinished (Handle × Log) :=
  let closed := ix.closeWorld Time.last
  match closed.failure with
  | some failure => .error ⟨failure, closed.state.log⟩
  | none => closed.state.draft.commit closed.state.log

end Indexer

/-- Writes the index of a whole recording to a log; the handle of its root. -/
def Recording.index (recording : Recording) (log : Log) : Except Unfinished (Handle × Log) :=
  let pushed := Indexer.pushAll recording (.start log)
  match pushed.failure with
  | some failure => .error ⟨failure, pushed.state.log⟩
  | none => pushed.state.finish

end Playhead
