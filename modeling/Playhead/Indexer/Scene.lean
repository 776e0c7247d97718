import Playhead.Column.Basic
import Playhead.World.Basic

/-!
# The scene: the world being recorded

While a world lasts, the things in it are **live**: they have appeared and have not yet gone. A
live thing collects its timeline; when it goes, the timeline is written to the log and its record
joins those of the world (`Playhead.Progress.retire`). A thing that goes in the millisecond in which
it appeared leaves no record and is only counted.

Packets that speak of something that is not live are counted as untracked and have no other effect.
A chunk that is sent again in the same shape becomes block changes of the chunk that is there; in
another shape it replaces it.

A packet can fail: its chunk cannot be read, or something that goes cannot be written. What had been
done before stays done, so each step gives the `Playhead.Outcome` that it leaves.
-/

namespace Playhead

open Wire (Codec)

/-- What has been counted while an index is built. -/
structure Stats where
  packets : Nat
  worlds : Nat
  things : Nat
  /-- Things that went in the millisecond in which they appeared. -/
  discarded : Nat
  /-- Packets about something that was not there. -/
  untracked : Nat
  deriving DecidableEq, Repr

/-- Nothing has been counted. -/
def Stats.zero : Stats := ⟨0, 0, 0, 0, 0⟩

/-- A thing that has appeared and has not gone. -/
structure LiveThing (V : Type) where
  spawn : Time
  key : ThingKey
  appearance : Packet
  disappearance : Packet
  timeline : Timeline V

/-- A live chunk, with its blocks as they are now. -/
structure LiveChunk where
  thing : LiveThing (List BlockChange)
  column : Column

/-- The world being recorded. -/
structure Scene where
  start : Time
  draft : WorldDraft
  entities : SortedMap Int32 (LiveThing Location)
  chunks : SortedMap (Int32 × Int32) LiveChunk
  weather : Option (LiveThing Float32Bits)

/-- What the channels of a world start with. -/
structure ChannelSeeds where
  viewCenter : Packet
  viewDistance : Packet
  clock : Packet

namespace ChannelSeeds

/-- The view is centered on the origin, as far as the session says, and the clock stands at zero. -/
def ofJoin (join : JoinSettings) : ChannelSeeds where
  viewCenter := .setViewCenter 0 0
  viewDistance := .setViewDistance join.viewDistance
  clock := .setTime 0 0

/-- A respawn keeps the view and the clock of the world it leaves. -/
def ofPrevious (draft : WorldDraft) : ChannelSeeds :=
  let fresh := ofJoin draft.info.join
  let latest (line : Timeline Packet) (default : Packet) := (line.last?.map (·.2)).getD default
  { viewCenter := latest draft.viewCenter fresh.viewCenter
    viewDistance := latest draft.viewDistance fresh.viewDistance
    clock := latest draft.clock fresh.clock }

end ChannelSeeds

namespace Scene

/-- A world at its beginning. -/
def begin (start : Time) (info : WorldInfo) (seeds : ChannelSeeds) : Scene where
  start := start
  draft :=
    { WorldDraft.ofInfo info with
      viewCenter := .ofList [(start, seeds.viewCenter)]
      viewDistance := .ofList [(start, seeds.viewDistance)]
      clock := .ofList [(start, seeds.clock)]
      thunder := .ofList [(start, .thunderLevel 0)] }
  entities := .empty
  chunks := .empty
  weather := none

/-- The lowest height of the world. -/
def minY (scene : Scene) : Int32 := scene.draft.info.dimension.minY

end Scene

/-- The scene, the log it is written to, and the counts. -/
structure Progress where
  scene : Scene
  log : Log
  stats : Stats

namespace Progress

/-- One more packet about something that was not there. -/
def untracked (p : Progress) : Progress :=
  { p with stats.untracked := p.stats.untracked + 1 }

/-- Ends the life of a thing and writes it to the log. -/
def retire {V : Type} (value : Codec Failure V) (thing : LiveThing V) (despawn : Time)
    (p : Progress) : Outcome Progress :=
  if despawn ≤ thing.spawn then
    .done { p with stats.discarded := p.stats.discarded + 1 }
  else
    match p.log.commitTimeline value thing.timeline with
    | .error failure => .fail p failure
    | .ok (inner, log) =>
      let record : ThingRecord :=
        { spawn := thing.spawn
          despawn := despawn
          key := thing.key
          spawnPackets := [thing.appearance]
          despawnPackets := [thing.disappearance]
          inner := inner }
      match Cast.enlist p.scene.draft.things record with
      | .error failure => .fail { p with log := log } failure
      | .ok records =>
        .done { p with
          scene.draft.things := records
          log := log
          stats.things := p.stats.things + 1 }

/-! ### Entities -/

/-- The entity with a number goes, if it is there. -/
def retireEntity (t : Time) (id : Int32) (p : Progress) : Outcome Progress :=
  match p.scene.entities.get? id with
  | none => .done p
  | some entity =>
    { p with scene.entities := p.scene.entities.erase id }.retire Stored.location entity t

/-- An entity appears; one with the same number goes first. Its place at that moment starts its
timeline, so that there is a place to go back to. -/
def spawnEntity (t : Time) (id : Int32) (uuid : Uuid) (kind : Int32) (location : Location)
    (p : Progress) : Outcome Progress :=
  (p.retireEntity t id).andThen fun p =>
    let entity : LiveThing Location :=
      { spawn := t
        key := .entity id
        appearance := .spawnEntity id uuid kind location
        disappearance := .removeEntities [id]
        timeline := .ofList [(t, location)] }
    .done { p with scene.entities := p.scene.entities.insert id entity }

/-- An entity moves. -/
def teleportEntity (t : Time) (id : Int32) (location : Location) (p : Progress) : Progress :=
  match p.scene.entities.get? id with
  | none => p.untracked
  | some entity =>
    { p with
      scene.entities :=
        p.scene.entities.insert id { entity with timeline := entity.timeline.insert t location } }

/-- An entity goes that should be there. -/
def removeEntity (t : Time) (id : Int32) (p : Progress) : Outcome Progress :=
  match p.scene.entities.get? id with
  | none => .done p.untracked
  | some _ => p.retireEntity t id

/-- Entities go. -/
def removeEntities (t : Time) (ids : List Int32) (p : Progress) : Outcome Progress :=
  Outcome.forEach p (removeEntity t) ids

/-! ### Chunks -/

/-- Adds changes to what has happened to a chunk at a moment. -/
def LiveChunk.record (chunk : LiveChunk) (t : Time) (changes : List BlockChange) : LiveChunk :=
  if changes.isEmpty then chunk
  else
    let line := chunk.thing.timeline
    { chunk with thing.timeline := line.insert t ((line.get? t).getD [] ++ changes) }

/-- The chunk at some coordinates goes, if it is there. -/
def retireChunk (t : Time) (x z : Int32) (p : Progress) : Outcome Progress :=
  match p.scene.chunks.get? (x, z) with
  | none => .done p
  | some chunk =>
    { p with scene.chunks := p.scene.chunks.erase (x, z) }.retire Stored.changes chunk.thing t

/-- A chunk appears; one at the same coordinates goes first. -/
def spawnChunk (t : Time) (x z : Int32) (data : Bytes) (column : Column) (p : Progress) :
    Outcome Progress :=
  (p.retireChunk t x z).andThen fun p =>
    let thing : LiveThing (List BlockChange) :=
      { spawn := t
        key := .chunk x z
        appearance := .chunkData x z data
        disappearance := .unloadChunk x z
        timeline := .empty }
    .done { p with scene.chunks := p.scene.chunks.insert (x, z) ⟨thing, column⟩ }

/-- A chunk is sent: it appears, or its blocks change. It is read before anything else is done. -/
def receiveChunk (t : Time) (x z : Int32) (data : Bytes) (p : Progress) : Outcome Progress :=
  match Column.decode data with
  | .error failure => .fail p failure
  | .ok column =>
    match p.scene.chunks.get? (x, z) with
    | none => p.spawnChunk t x z data column
    | some chunk =>
      match Column.diff? x z p.scene.minY chunk.column column with
      | none => p.spawnChunk t x z data column
      | some changes =>
        let chunk := { LiveChunk.record chunk t changes with column := column }
        .done { p with scene.chunks := p.scene.chunks.insert (x, z) chunk }

/-- A block changes. -/
def updateBlock (t : Time) (position : Position) (state : BlockState) (p : Progress) : Progress :=
  match p.scene.chunks.get? position.chunk with
  | none => p.untracked
  | some chunk =>
    match chunk.column.block? p.scene.minY position with
    | none => p.untracked
    | some before =>
      if before = state then p
      else
        let chunk := { LiveChunk.record chunk t [⟨position, before, state⟩] with
          column := chunk.column.setBlock p.scene.minY position state }
        { p with scene.chunks := p.scene.chunks.insert position.chunk chunk }

/-! ### Weather and channels -/

/-- The rain of a world takes a strength at a moment. -/
def setRain (t : Time) (level : Float32Bits) (rain : LiveThing Float32Bits) :
    LiveThing Float32Bits :=
  { rain with timeline := rain.timeline.insert t level }

/-- Rain begins; if there is rain already, only its strength is reset. -/
def beginRain (t : Time) (p : Progress) : Progress :=
  let rain := p.scene.weather.getD
    { spawn := t
      key := .weather
      appearance := .beginRain
      disappearance := .endRain
      timeline := .empty }
  { p with scene.weather := some (setRain t 0 rain) }

/-- The rain ends, if there is any. -/
def endRain (t : Time) (p : Progress) : Outcome Progress :=
  match p.scene.weather with
  | none => .done p
  | some rain => { p with scene.weather := none }.retire Stored.level rain t

/-- A game event: rain begins, ends or takes a strength, or thunder takes one. -/
def gameEvent (t : Time) (event : UInt8) (value : Float32Bits) (p : Progress) :
    Outcome Progress :=
  if event = GameEvent.rainBegins then .done (p.beginRain t)
  else if event = GameEvent.rainEnds then p.endRain t
  else if event = GameEvent.rainLevel then
    .done { p with scene.weather := p.scene.weather.map (setRain t value) }
  else if event = GameEvent.thunderLevel then
    .done { p with
      scene.draft.thunder := p.scene.draft.thunder.insert t (.gameEvent event value) }
  else .done p

/-! ### All packets -/

/-- A packet arrives in the world. -/
def receive (t : Time) (packet : Packet) (p : Progress) : Outcome Progress :=
  match packet with
  | .spawnEntity id uuid kind location => p.spawnEntity t id uuid kind location
  | .teleportEntity id location _ => .done (p.teleportEntity t id location)
  | .removeEntities ids => p.removeEntities t ids
  | .chunkData x z data => p.receiveChunk t x z data
  | .unloadChunk x z => p.retireChunk t x z
  | .blockUpdate position state => .done (p.updateBlock t position state)
  | .gameEvent event value => p.gameEvent t event value
  | .setTime .. =>
    .done { p with scene.draft.clock := p.scene.draft.clock.insert t packet }
  | .setViewCenter .. =>
    .done { p with scene.draft.viewCenter := p.scene.draft.viewCenter.insert t packet }
  | .setViewDistance .. =>
    .done { p with scene.draft.viewDistance := p.scene.draft.viewDistance.insert t packet }
  | .joinGame .. | .respawn .. | .playerPosition .. | .changeDifficulty .. | .foreign .. => .done p

/-- Ends the life of every thing of a list. -/
def retireAll {V : Type} (value : Codec Failure V) (t : Time) (things : List (LiveThing V))
    (p : Progress) : Outcome Progress :=
  Outcome.forEach p (fun thing => retire value thing t) things

/-- The entities of the world, which are no longer in it, end their lives. -/
def endEntities (t : Time) (p : Progress) : Outcome Progress :=
  retireAll Stored.location t p.scene.entities.values { p with scene.entities := .empty }

/-- The chunks of the world, which are no longer in it, end their lives. -/
def endChunks (t : Time) (p : Progress) : Outcome Progress :=
  retireAll Stored.changes t (p.scene.chunks.values.map (·.thing))
    { p with scene.chunks := .empty }

/-- Ends the life of everything: entities, then chunks, then rain. -/
def endAll (t : Time) (p : Progress) : Outcome Progress :=
  ((p.endEntities t).andThen (endChunks t)).andThen (endRain t)

end Progress

end Playhead
