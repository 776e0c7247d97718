import Playhead.Proofs.Thing.Kept
import Playhead.Proofs.Thing.Steps
import Playhead.World.Basic

/-!
# Worlds in the log

A **chapter** is what an index holds of one world: the header, the records of its things with the
lives they tell of, and the timelines of its channels. When the log holds all of that
(`Playhead.Chapter.StoredIn`), the world loads, and in play it is at every time one of the worlds
`Playhead.Chapter.worldAt`: its cast is taken to a moment and its channels are loaded. A step takes
it to the target (`Playhead.Chapter.step_worldAt`).
-/

namespace Playhead

/-- The channels of a world. -/
inductive Channel where
  | viewCenter
  | viewDistance
  | clock
  | thunder
  deriving DecidableEq, Repr

/-- The channels in the order in which they are played. -/
def Channel.all : List Channel := [.viewCenter, .viewDistance, .clock, .thunder]

theorem Channel.mem_all (channel : Channel) : channel ∈ all := by
  cases channel <;> simp [all]

/-- The channel that a packet belongs to. -/
def Channel.of? : Packet → Option Channel
  | .setViewCenter .. => some viewCenter
  | .setViewDistance _ => some viewDistance
  | .setTime .. => some clock
  | .gameEvent event _ => if event = GameEvent.thunderLevel then some thunder else none
  | _ => none

/-- A packet of a channel is plain. -/
theorem Channel.isPlain {packet : Packet} {channel : Channel} (h : of? packet = some channel) :
    packet.IsPlain := by
  cases packet with
  | joinGame | respawn | blockUpdate => exact absurd h (by simp [of?])
  | _ => trivial

/-- The handle of a channel. -/
def WorldHeader.channel (header : WorldHeader) : Channel → Handle
  | .viewCenter => header.viewCenter
  | .viewDistance => header.viewDistance
  | .clock => header.clock
  | .thunder => header.thunder

/-- A world as it was recorded. -/
structure Chapter where
  header : WorldHeader
  roster : Roster
  line : Channel → Timeline Packet

namespace Chapter

/-- Whether a log holds a chapter. -/
structure StoredIn (chapter : Chapter) (log : Log) : Prop where
  records : log.Holds (Cast.regionCodec log.compression) chapter.header.things
    (chapter.roster.map (·.1))
  channels : ∀ channel, log.Holds (Timeline.codec (Stored.packet log.compression))
    (chapter.header.channel channel) (chapter.line channel)
  kept : ∀ p ∈ chapter.roster, p.2.KeptBy log p.1

/-- A channel of the chapter, loaded. -/
def track (chapter : Chapter) (channel : Channel) : Track Packet :=
  ⟨chapter.header.channel channel, some (chapter.line channel)⟩

/-- The world in play, taken to a moment. -/
def worldAt (chapter : Chapter) (moment : Option Time) : World where
  info := chapter.header.info
  things := chapter.roster.castAt chapter.header.things moment
  viewCenter := chapter.track .viewCenter
  viewDistance := chapter.track .viewDistance
  clock := chapter.track .clock
  thunder := chapter.track .thunder

variable {chapter : Chapter} {log log' : Log}

/-- The roster of a stored chapter is told. -/
theorem StoredIn.told (h : chapter.StoredIn log) : chapter.roster.Told log :=
  fun p hp => (h.kept p hp).toldBy

theorem StoredIn.nonneg (h : chapter.StoredIn log) : ∀ p ∈ chapter.roster, 0 ≤ p.2.spawn :=
  fun p hp => (h.kept p hp).nonneg

/-- A stored chapter stays stored when the log grows. -/
theorem StoredIn.grow (h : chapter.StoredIn log) (hlog : log.Faithful)
    (hgrow : log.GrowsTo log') : chapter.StoredIn log' where
  records := by
    rw [hgrow.compression]
    exact h.records.grow hlog hgrow
  channels channel := by
    rw [hgrow.compression]
    exact (h.channels channel).grow hlog hgrow
  kept p hp := (h.kept p hp).grow hlog hgrow

theorem unload_worldAt (moment : Option Time) :
    (chapter.worldAt moment).unload = .ofHeader chapter.header := rfl

/-- **A stored chapter can be loaded**, from its header alone. -/
theorem load_ofHeader (h : chapter.StoredIn log) :
    (World.ofHeader chapter.header).load log = .done (chapter.worldAt none) := by
  have hthings : (Cast.atHandle chapter.header.things).load log =
      .done (chapter.roster.castAt chapter.header.things none) := by
    rw [Cast.load_of_holds (h.records : log.Holds _ (Cast.atHandle _).handle _)]
    refine congrArg Outcome.done (congrArg (Cast.mk _ · none true) (Array.toList_inj.1 ?_))
    exact (Roster.members_castAt_none chapter.header.things).symm
  have hchannel (channel : Channel) : (Track.atHandle (chapter.header.channel channel)).load
      (Stored.packet log.compression) log = .done (chapter.track channel) :=
    (h.channels channel).load_track none
  have hcenter := hchannel .viewCenter
  have hdistance := hchannel .viewDistance
  have hclock := hchannel .clock
  have hthunder := hchannel .thunder
  simp only [WorldHeader.channel] at hcenter hdistance hclock hthunder
  simp only [World.load, World.ofHeader, Outcome.forEach, hthings, hcenter, hdistance, hclock,
    hthunder, Outcome.done_map, Outcome.done_andThen]
  rfl

/-- What the channels show of a step. -/
def channelsShown (chapter : Chapter) (direction : Direction) (start target : Time) :
    List Packet :=
  Channel.all.flatMap fun channel =>
    (chapter.line channel).shown channelDiscipline direction start target

/-- **A step takes the world to the target**, wherever its cast was before. -/
theorem step_worldAt (h : chapter.StoredIn log) (moment : Option Time) {direction : Direction}
    {start target : Time} (hlead : direction.leads start target) :
    ∃ packets, (chapter.worldAt moment).step log direction start target =
      .emit (chapter.worldAt (some target))
        (packets ++ chapter.channelsShown direction start target) ∧
      chapter.roster.Strides moment direction start target packets := by
  obtain ⟨packets, hstep, hshows⟩ :=
    Roster.step_castAt h.told h.nonneg chapter.header.things moment hlead
  refine ⟨packets, ?_, hshows⟩
  -- the cast takes its step
  have hthings : ((chapter.worldAt moment).things.step log direction start target).map
      (fun things => { chapter.worldAt moment with things }) =
      .emit (chapter.worldAt (some target)) packets := by
    show ((chapter.roster.castAt chapter.header.things moment).step log direction start
      target).map _ = _
    rw [hstep, Outcome.emit_map]
    rfl
  -- the channels are shown one after the other, and the world stays as it is
  have hchannels : Outcome.forEach (chapter.worldAt (some target)) (fun channel world =>
      .ofPackets world (Track.step channel channelDiscipline direction start target))
      (chapter.worldAt (some target)).channels =
      .emit (chapter.worldAt (some target)) (chapter.channelsShown direction start target) := by
    have hchannel (channel : Channel) (world : World) : Outcome.ofPackets world
        ((chapter.track channel).step channelDiscipline direction start target) =
        .emit world ((chapter.line channel).shown channelDiscipline direction start target) := by
      rw [track, Track.step_loaded]
      rfl
    show Outcome.forEach _ _ (Channel.all.map chapter.track) = _
    rw [channelsShown]
    generalize Channel.all = channels
    induction channels with
    | nil => rfl
    | cons channel channels ih =>
      rw [List.map_cons, List.flatMap_cons, Outcome.forEach, hchannel]
      exact Outcome.emit_andThen_emit ih
  rw [World.step, hthings]
  exact Outcome.emit_andThen_emit hchannels

end Chapter

end Playhead
