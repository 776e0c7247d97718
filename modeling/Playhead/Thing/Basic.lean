import Playhead.Outcome
import Playhead.Thing.Record
import Playhead.Timeline.Track

/-!
# A thing in play

While a thing is active the client shows it and its track is loaded. Becoming active emits the
spawn packets and then plays the track from the beginning (`Playhead.Thing.activate`); becoming
inactive emits the despawn packets (`Playhead.Thing.unload`). In between, steps are those of the
track, shown according to what the thing is: the place of an entity and the strength of rain are
snapshots, the blocks of a chunk are changes.
-/

namespace Playhead

/-- The track of a thing, by what the thing is. -/
inductive ThingTrack where
  | entity (id : Int32) (track : Track Location)
  | chunk (track : Track (List BlockChange))
  | weather (track : Track Float32Bits)

/-- How the places of an entity are shown. -/
def entityDiscipline (id : Int32) : Discipline Location :=
  .snapshots fun location => [.teleportEntity id location false]

/-- How the block changes of a chunk are shown. -/
def chunkDiscipline : Discipline (List BlockChange) :=
  .changes (fun cs => cs.map fun c => .blockUpdate c.position c.after)
    (fun cs => cs.reverse.map fun c => .blockUpdate c.position c.before)

/-- How the strengths of rain are shown. -/
def weatherDiscipline : Discipline Float32Bits :=
  .snapshots fun level => [.rainLevel level]

namespace ThingTrack

/-- The track of a thing, not loaded. -/
def ofKey (handle : Handle) : ThingKey → ThingTrack
  | .entity id => entity id (.atHandle handle)
  | .chunk _ _ => chunk (.atHandle handle)
  | .weather => weather (.atHandle handle)

/-- Whether the entries are there. -/
def isLoaded : ThingTrack → Bool
  | entity _ track => track.isLoaded
  | chunk track => track.isLoaded
  | weather track => track.isLoaded

/-- Gives the track its entries. -/
def load (log : Log) : ThingTrack → Outcome ThingTrack
  | entity id track => (track.load Stored.location log).map (entity id)
  | chunk track => (track.load Stored.changes log).map chunk
  | weather track => (track.load Stored.level log).map weather

/-- The track without its entries. -/
def unload : ThingTrack → ThingTrack
  | entity id track => entity id track.unload
  | chunk track => chunk track.unload
  | weather track => weather track.unload

/-- The packets of a step. -/
def step (direction : Direction) (start target : Time) : ThingTrack → Except Failure (List Packet)
  | entity id track => track.step (entityDiscipline id) direction start target
  | chunk track => track.step chunkDiscipline direction start target
  | weather track => track.step weatherDiscipline direction start target

end ThingTrack

/-- A thing: its record and its track. -/
structure Thing where
  record : ThingRecord
  track : ThingTrack

namespace Thing

/-- A thing that is not active. -/
def ofRecord (record : ThingRecord) : Thing where
  record := record
  track := .ofKey record.inner record.key

/-- Whether the track is loaded. -/
def isLoaded (thing : Thing) : Bool := thing.track.isLoaded

/-- Shows the thing as it appears, and loads its track. -/
def load (thing : Thing) (log : Log) : Outcome Thing :=
  (Outcome.emit thing thing.record.spawnPackets).andThen fun thing =>
    (thing.track.load log).map fun track => { thing with track }

/-- The step of the track. -/
def step (thing : Thing) (direction : Direction) (start target : Time) : Outcome Thing :=
  .ofPackets thing (thing.track.step direction start target)

/-- Shows the thing as it is at a moment. -/
def activate (thing : Thing) (log : Log) (target : Time) : Outcome Thing :=
  (thing.load log).andThen fun thing => thing.step .forward origin target

/-- Drops the track; the client is not told. -/
def release (thing : Thing) : Thing := { thing with track := thing.track.unload }

/-- Makes the thing disappear, and drops its track. -/
def unload (thing : Thing) : Outcome Thing :=
  .emit thing.release thing.record.despawnPackets

end Thing

end Playhead
