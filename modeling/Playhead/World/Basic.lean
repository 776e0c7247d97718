import Playhead.Thing.Cast
import Playhead.World.Info

/-!
# Worlds

A world has a cast of things and four **channels**: tracks of packets of which only the latest
counts – view center, view distance, clock and thunder. A step of the world is a step of the cast
and then of each channel, in that order.
-/

namespace Playhead

open Wire (Codec)

/-- One world, loaded or not. -/
structure World where
  info : WorldInfo
  things : Cast
  viewCenter : Track Packet
  viewDistance : Track Packet
  clock : Track Packet
  thunder : Track Packet

/-- How the packets of a channel are shown: as they are. -/
def channelDiscipline : Discipline Packet := .snapshots fun packet => [packet]

namespace World

/-- The world of a header, with nothing loaded. -/
def ofHeader (header : WorldHeader) : World where
  info := header.info
  things := .atHandle header.things
  viewCenter := .atHandle header.viewCenter
  viewDistance := .atHandle header.viewDistance
  clock := .atHandle header.clock
  thunder := .atHandle header.thunder

/-- The header of a world. -/
def header (world : World) : WorldHeader where
  info := world.info
  things := world.things.handle
  viewCenter := world.viewCenter.handle
  viewDistance := world.viewDistance.handle
  clock := world.clock.handle
  thunder := world.thunder.handle

/-- A world as it is stored. -/
def codec : Codec Failure World :=
  (WorldHeader.codec.mapError Failure.wire).iso ofHeader header

/-- The channels in the order in which they are played. -/
def channels (world : World) : List (Track Packet) :=
  [world.viewCenter, world.viewDistance, world.clock, world.thunder]

/-- Loads the cast and the channels, up to the first that cannot be loaded. -/
def load (world : World) (log : Log) : Outcome World :=
  let loaded (channel : Track Packet) := channel.load (Stored.packet log.compression) log
  let loadChannels : List (World → Outcome World) :=
    [fun world => (loaded world.viewCenter).map fun viewCenter => { world with viewCenter },
     fun world => (loaded world.viewDistance).map fun viewDistance => { world with viewDistance },
     fun world => (loaded world.clock).map fun clock => { world with clock },
     fun world => (loaded world.thunder).map fun thunder => { world with thunder }]
  ((world.things.load log).map fun things => { world with things }).andThen fun world =>
    Outcome.forEach world (fun load => load) loadChannels

/-- Forgets everything but the header. -/
def unload (world : World) : World where
  info := world.info
  things := world.things.unload
  viewCenter := world.viewCenter.unload
  viewDistance := world.viewDistance.unload
  clock := world.clock.unload
  thunder := world.thunder.unload

/-- A step of the cast, then of the channels. -/
def step (world : World) (log : Log) (direction : Direction) (start target : Time) :
    Outcome World :=
  ((world.things.step log direction start target).map fun things => { world with things }).andThen
    fun world =>
      Outcome.forEach world
        (fun channel world =>
          .ofPackets world (channel.step channelDiscipline direction start target))
        world.channels

end World

/-! ### Writing a world -/

/-- A world in the making: the records of finished things and the channels so far. -/
structure WorldDraft where
  info : WorldInfo
  things : List ThingRecord
  viewCenter : Timeline Packet
  viewDistance : Timeline Packet
  clock : Timeline Packet
  thunder : Timeline Packet

namespace WorldDraft

/-- A world in which nothing has happened. -/
def ofInfo (info : WorldInfo) : WorldDraft := ⟨info, [], .empty, .empty, .empty, .empty⟩

/-- Writes the parts of a world, each as a region of its own; its header. -/
def commit (log : Log) (draft : WorldDraft) : Except Unfinished (WorldHeader × Log) := do
  let value := Stored.packet log.compression
  let channel (log : Log) (line : Timeline Packet) : Except Unfinished (Handle × Log) :=
    (log.commitTimeline value line).mapError fun failure => ⟨failure, log⟩
  let (things, log) ← (Cast.commit log draft.things).mapError fun failure => ⟨failure, log⟩
  let (viewCenter, log) ← channel log draft.viewCenter
  let (viewDistance, log) ← channel log draft.viewDistance
  let (clock, log) ← channel log draft.clock
  let (thunder, log) ← channel log draft.thunder
  return (⟨draft.info, things, viewCenter, viewDistance, clock, thunder⟩, log)

end WorldDraft

end Playhead
