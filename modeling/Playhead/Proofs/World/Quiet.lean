import Playhead.Proofs.Client
import Playhead.Proofs.Footprint
import Playhead.Proofs.Log
import Playhead.World.Sequence

/-!
# Quiet worlds

A world is **quiet** if nothing of its things and of its channels joins or respawns
(`Playhead.World.IsQuiet`), and it is stored quietly if what a log holds of them does not
(`Playhead.WorldHeader.IsQuietIn`). Under every step a quiet world stays quiet and keeps its header,
and nothing of it joins or respawns, also if the step fails midway
(`Playhead.World.QuietAs.step`): the tracks of things only ever move entities, change blocks and set
the strength of rain.
-/

namespace Playhead

instance (packet : Packet) : Decidable packet.IsEntrance :=
  match packet with
  | .joinGame .. | .respawn .. => isTrue trivial
  | .playerPosition .. | .spawnEntity .. | .teleportEntity .. | .removeEntities .. | .chunkData ..
  | .unloadChunk .. | .blockUpdate .. | .gameEvent .. | .setTime .. | .setViewCenter ..
  | .setViewDistance .. | .changeDifficulty .. | .foreign .. => isFalse id

/-- Neither the appearance nor the disappearance of a thing joins or respawns. -/
def ThingRecord.IsQuiet (r : ThingRecord) : Prop :=
  ∀ packet ∈ r.spawnPackets ++ r.despawnPackets, ¬ packet.IsEntrance

/-- No thing of a cast joins or respawns. -/
def Cast.IsQuiet (cast : Cast) : Prop :=
  ∀ member ∈ cast.members, member.thing.record.IsQuiet

/-- No entry of a channel joins or respawns. -/
def Timeline.IsQuiet (line : Timeline Packet) : Prop :=
  ∀ e ∈ line.entries, ¬ e.2.IsEntrance

/-- Neither the things nor the channels of a world in play join or respawn. -/
def World.IsQuiet (world : World) : Prop :=
  world.things.IsQuiet ∧
    ∀ channel ∈ world.channels, ∀ line, channel.loaded = some line → line.IsQuiet

/-- What a log holds of the things and the channels of a world neither joins nor respawns, as far as
it can be read at all. -/
def WorldHeader.IsQuietIn (header : WorldHeader) (log : Log) : Prop :=
  (((Cast.atHandle header.things).load log).isOk →
      ((Cast.atHandle header.things).load log).state.IsQuiet) ∧
    ∀ channel ∈ (World.ofHeader header).channels,
      ∀ line ∈ (channel.stored (Stored.packet log.compression) log).toOption, line.IsQuiet

instance (r : ThingRecord) : Decidable r.IsQuiet :=
  inferInstanceAs (Decidable (∀ packet ∈ r.spawnPackets ++ r.despawnPackets, ¬ packet.IsEntrance))

instance (cast : Cast) : Decidable cast.IsQuiet :=
  inferInstanceAs (Decidable (∀ member ∈ cast.members, member.thing.record.IsQuiet))

instance (line : Timeline Packet) : Decidable line.IsQuiet :=
  inferInstanceAs (Decidable (∀ e ∈ line.entries, ¬ e.2.IsEntrance))

instance (header : WorldHeader) (log : Log) : Decidable (header.IsQuietIn log) :=
  inferInstanceAs (Decidable (_ ∧ _))

/-- The tracks of things never join or respawn. -/
theorem ThingTrack.not_isEntrance {track : ThingTrack} {direction : Direction}
    {start target : Time} {packets : List Packet} {packet : Packet}
    (h : track.step direction start target = .ok packets) (hp : packet ∈ packets) :
    ¬ packet.IsEntrance := by
  cases track with
  | entity id track =>
    obtain ⟨line, -, hshown⟩ := Track.exists_shown h hp
    obtain ⟨-, e, -, hemit⟩ := Timeline.exists_mem_of_shown_snapshots hshown
    obtain rfl := List.mem_singleton.1 hemit
    exact not_false
  | chunk track =>
    obtain ⟨line, -, hshown⟩ := Track.exists_shown h hp
    obtain ⟨e, -, -, hemit | hemit⟩ := Timeline.exists_mem_of_shown_changes hshown
    · obtain ⟨c, -, rfl⟩ := List.mem_map.1 hemit
      exact not_false
    · obtain ⟨c, -, rfl⟩ := List.mem_map.1 hemit
      exact not_false
  | weather track =>
    obtain ⟨line, -, hshown⟩ := Track.exists_shown h hp
    obtain ⟨-, e, -, hemit⟩ := Timeline.exists_mem_of_shown_snapshots hshown
    obtain rfl := List.mem_singleton.1 hemit
    exact not_false

/-- Loading a track shows nothing. -/
theorem ThingTrack.emitted_load (track : ThingTrack) (log : Log) :
    (track.load log).emitted = [] := by
  cases track <;> exact Track.emitted_load _ _ log

namespace Thing

variable {thing : Thing} {r : ThingRecord}

/-- A step of a thing keeps its record and is quiet. -/
abbrev StepIsQuiet (r : ThingRecord) (o : Outcome Thing) : Prop :=
  o.Keeps (fun thing => thing.record = r) fun packet => ¬ packet.IsEntrance

theorem stepIsQuiet_step (direction : Direction) (start target : Time) :
    StepIsQuiet thing.record (thing.step direction start target) :=
  .ofPackets rfl fun _ h _ hp => ThingTrack.not_isEntrance h hp

/-- A quiet thing is quiet as it appears. -/
theorem stepIsQuiet_activate (h : thing.record.IsQuiet) (log : Log) (target : Time) :
    StepIsQuiet thing.record (thing.activate log target) := by
  have hspawn : StepIsQuiet thing.record (.emit thing thing.record.spawnPackets) :=
    ⟨rfl, fun packet hp => h packet (List.mem_append_left _ hp)⟩
  refine (hspawn.andThen fun thing' hrecord => ?_).andThen
    fun thing' hrecord => hrecord ▸ stepIsQuiet_step .forward origin target
  exact .of_emitted (ThingTrack.emitted_load thing'.track log) hrecord

theorem stepIsQuiet_unload (h : thing.record.IsQuiet) : StepIsQuiet thing.record thing.unload :=
  ⟨rfl, fun packet hp => h packet (List.mem_append_right _ hp)⟩

end Thing

namespace Cast

variable {cast cast' : Cast} {handle : Handle}

/-- The cast under a handle, without a thing that joins or respawns. -/
structure QuietAt (handle : Handle) (cast : Cast) : Prop where
  handle : cast.handle = handle
  quiet : cast.IsQuiet

/-- A step that leaves a cast quiet and is quiet itself. -/
abbrev StepIsQuiet (handle : Handle) (o : Outcome Cast) : Prop :=
  o.Keeps (QuietAt handle) fun packet => ¬ packet.IsEntrance

/-- A member that takes a quiet step leaves the cast quiet. -/
theorem QuietAt.updateMember {step : Thing → Outcome Thing} (h : cast.QuietAt handle)
    (hstep : ∀ thing, thing.record.IsQuiet → Thing.StepIsQuiet thing.record (step thing))
    (i : Nat) (active : Bool) : StepIsQuiet handle (cast.updateMember i step active) := by
  rw [Cast.updateMember]
  split
  · exact .done h
  · next m hm =>
    have hquiet : m.thing.record.IsQuiet := h.quiet m (Array.mem_of_getElem? hm)
    refine (hstep m.thing hquiet).map fun thing hrecord => ⟨h.handle, fun member hmember => ?_⟩
    rcases Array.mem_or_eq_of_mem_setIfInBounds hmember with hmember | rfl
    · exact h.quiet member hmember
    · rw [ThingRecord.IsQuiet, hrecord]
      exact hquiet

theorem QuietAt.leave (h : cast.QuietAt handle) (i : Nat) : StepIsQuiet handle (leave i cast) :=
  h.updateMember (fun _ h => Thing.stepIsQuiet_unload h) i false

theorem QuietAt.enter (h : cast.QuietAt handle) (log : Log) (t : Time) (i : Nat) :
    StepIsQuiet handle (enter log t i cast) :=
  h.updateMember (fun _ h => Thing.stepIsQuiet_activate h log t) i true

theorem QuietAt.stay (h : cast.QuietAt handle) (direction : Direction) (start target : Time)
    (i : Nat) : StepIsQuiet handle (stay direction start target i cast) :=
  h.updateMember (fun _ _ => Thing.stepIsQuiet_step direction start target) i true

/-- A quiet cast is quiet as it is assembled. -/
theorem QuietAt.assemble (h : cast.QuietAt handle) (log : Log) (t : Time) :
    StepIsQuiet handle (cast.assemble log t) := by
  rw [Cast.assemble]
  split
  · exact .fail h _
  · have hleave : StepIsQuiet handle (.forEach cast Cast.leave cast.activeIndices) :=
      .forEach h fun i _ _ h => h.leave i
    exact (hleave.andThen fun _ h =>
      .forEach h fun i _ _ h => h.enter log t i).andThen fun _ h => .done ⟨h.handle, h.quiet⟩

/-- A quiet cast is quiet as it advances. -/
theorem QuietAt.advance (h : cast.QuietAt handle) (log : Log) (direction : Direction)
    (start target : Time) : StepIsQuiet handle (cast.advance log direction start target) := by
  have hleave : StepIsQuiet handle
      (.forEach cast Cast.leave (cast.leaving direction start target)) :=
    .forEach h fun i _ _ h => h.leave i
  refine hleave.andThen fun cast h => ?_
  have henter : StepIsQuiet handle
      (.forEach cast (Cast.enter log target) (cast.entering direction start target)) :=
    .forEach h fun i _ _ h => h.enter log target i
  refine Outcome.Keeps.andThen (henter.andThen fun _ h => ?_) fun _ h => ?_
  · exact .done ⟨h.handle, h.quiet⟩
  · exact .forEach h fun i _ _ h => h.stay direction start target i

/-- **A step of a quiet cast is quiet**, whether or not it fails. -/
theorem QuietAt.step (h : cast.QuietAt handle) (log : Log) (direction : Direction)
    (start target : Time) : StepIsQuiet handle (cast.step log direction start target) := by
  rw [Cast.step]
  split
  · exact .done h
  · refine Outcome.Keeps.andThen ?_ fun _ h => h.advance log direction start target
    split
    · exact .done h
    · exact h.assemble log start

/-- Reading a cast keeps its handle, whether or not it can be read. -/
theorem handle_load (cast : Cast) (log : Log) : (cast.load log).state.handle = cast.handle := by
  rw [load]
  split <;> rfl

/-- A cast that can be read is read as if for the first time. -/
theorem load_atHandle {log : Log} (h : cast.load log = .done cast') :
    (atHandle cast.handle).load log = .done cast' := by
  have hcount : (atHandle cast.handle).readCount log = cast.readCount log := rfl
  rw [load, hcount]
  rw [load] at h
  cases hread : cast.readCount log with
  | error failure => simp [hread] at h
  | ok count =>
    simp only [hread] at h ⊢
    obtain ⟨rfl, -, hfailure⟩ := Outcome.mk.inj h
    simp [hfailure, atHandle, Outcome.done]

end Cast

namespace World

variable {world : World} {header : WorldHeader} {log : Log}

/-- Loading a world says nothing and keeps its header, whether or not it can be loaded. -/
theorem keeps_load (world : World) (log : Log) :
    (world.load log).Keeps (fun world' => world'.header = world.header) fun _ => False := by
  have hthings : (world.things.load log).Keeps
      (fun things => things.handle = world.things.handle) fun _ => False := by
    refine ⟨Cast.handle_load _ _, ?_⟩
    rw [Cast.load]
    split <;> exact fun _ hp => absurd hp List.not_mem_nil
  rw [load]
  refine .andThen (hthings.map fun things hhandle => ?_) fun world' hworld => ?_
  · rw [header, hhandle]
    rfl
  · refine .forEach hworld fun load hload world' hworld => ?_
    rw [← hworld]
    simp only [List.mem_cons, List.not_mem_nil, or_false] at hload
    rcases hload with rfl | rfl | rfl | rfl
    all_goals
      refine .of_emitted (Track.emitted_load _ _ log) ?_
      simp only [header, Outcome.map, Track.handle_load]

/-- What it takes to load a world: the cast can be read, and so can each channel. -/
theorem load_eq_done (h : (world.load log).failure = none) :
    ∃ things viewCenter viewDistance clock thunder,
      world.things.load log = .done things ∧
      world.viewCenter.load (Stored.packet log.compression) log = .done viewCenter ∧
      world.viewDistance.load (Stored.packet log.compression) log = .done viewDistance ∧
      world.clock.load (Stored.packet log.compression) log = .done clock ∧
      world.thunder.load (Stored.packet log.compression) log = .done thunder ∧
      (world.load log).state = ⟨world.info, things, viewCenter, viewDistance, clock, thunder⟩ := by
  have hsilent : (world.load log).emitted = [] :=
    List.eq_nil_iff_forall_not_mem.2 (keeps_load world log).2
  obtain ⟨_, hload, hrest⟩ := Outcome.andThen_eq_done_iff.1 (Outcome.eq_done hsilent h)
  obtain ⟨things, hthings, rfl⟩ := Outcome.map_eq_done_iff.1 hload
  obtain ⟨_, hload, hrest⟩ := Outcome.andThen_eq_done_iff.1 hrest
  obtain ⟨viewCenter, hcenter, rfl⟩ := Outcome.map_eq_done_iff.1 hload
  obtain ⟨_, hload, hrest⟩ := Outcome.andThen_eq_done_iff.1 hrest
  obtain ⟨viewDistance, hdistance, rfl⟩ := Outcome.map_eq_done_iff.1 hload
  obtain ⟨_, hload, hrest⟩ := Outcome.andThen_eq_done_iff.1 hrest
  obtain ⟨clock, hclock, rfl⟩ := Outcome.map_eq_done_iff.1 hload
  obtain ⟨_, hload, hrest⟩ := Outcome.andThen_eq_done_iff.1 hrest
  obtain ⟨thunder, hthunder, rfl⟩ := Outcome.map_eq_done_iff.1 hload
  exact ⟨things, viewCenter, viewDistance, clock, thunder, hthings, hcenter, hdistance, hclock,
    hthunder, (Outcome.done_inj.1 hrest).symm⟩

/-- **A world that could be loaded is quiet** if what is stored of it is. -/
theorem isQuiet_load (h : (world.load log).failure = none) (hquiet : world.header.IsQuietIn log) :
    (world.load log).state.IsQuiet := by
  obtain ⟨_, _, _, _, _, hthings, hload₁, hload₂, hload₃, hload₄, hstate⟩ := load_eq_done h
  obtain ⟨_, hcenter, rfl⟩ := Track.load_eq_done_iff.1 hload₁
  obtain ⟨_, hdistance, rfl⟩ := Track.load_eq_done_iff.1 hload₂
  obtain ⟨_, hclock, rfl⟩ := Track.load_eq_done_iff.1 hload₃
  obtain ⟨_, hthunder, rfl⟩ := Track.load_eq_done_iff.1 hload₄
  rw [hstate]
  have hcast := Cast.load_atHandle hthings
  refine ⟨?_, fun channel hchannel line hline => ?_⟩
  · have hthings' : ((Cast.atHandle world.header.things).load log).isOk → _ := hquiet.1
    rw [show world.header.things = world.things.handle from rfl, hcast] at hthings'
    exact hthings' rfl
  have hstored (track : Track Packet) (htrack : track ∈ world.channels)
      (h : track.stored (Stored.packet log.compression) log = .ok line) : line.IsQuiet := by
    have hstored : (Track.atHandle track.handle).stored (Stored.packet log.compression) log =
        .ok line := h
    refine hquiet.2 (.atHandle track.handle) ?_ line (by rw [hstored]; rfl)
    simp only [channels, List.mem_cons, List.not_mem_nil, or_false] at htrack ⊢
    rcases htrack with rfl | rfl | rfl | rfl <;> simp [ofHeader, header]
  simp only [channels, List.mem_cons, List.not_mem_nil, or_false] at hchannel
  rcases hchannel with rfl | rfl | rfl | rfl <;> cases hline
  · exact hstored world.viewCenter (by simp [channels]) hcenter
  · exact hstored world.viewDistance (by simp [channels]) hdistance
  · exact hstored world.clock (by simp [channels]) hclock
  · exact hstored world.thunder (by simp [channels]) hthunder

/-- The world of a header, without anything in play that joins or respawns. -/
structure QuietAs (header : WorldHeader) (world : World) : Prop where
  header : world.header = header
  quiet : world.IsQuiet

/-- **A step of a quiet world is quiet**, whether or not it fails. -/
theorem QuietAs.step (h : world.QuietAs header) (log : Log) (direction : Direction)
    (start target : Time) :
    (world.step log direction start target).Keeps (QuietAs header)
      fun packet => ¬ packet.IsEntrance := by
  have hthings : world.things.QuietAt header.things := ⟨congrArg (·.things) h.header, h.quiet.1⟩
  refine .andThen ((hthings.step log direction start target).map fun things hthings => ?_)
    fun world' hworld => .forEach hworld fun channel hchannel world'' hworld' =>
      .ofPackets hworld' fun packets hpackets packet hp => ?_
  · refine ⟨?_, hthings.quiet, h.quiet.2⟩
    rw [← h.header, World.header, hthings.handle, ← h.header]
    rfl
  · obtain ⟨line, hline, hshown⟩ := Track.exists_shown hpackets hp
    obtain ⟨-, e, he, hemit⟩ := Timeline.exists_mem_of_shown_snapshots hshown
    obtain rfl := List.mem_singleton.1 hemit
    exact hworld.quiet.2 channel hchannel line hline e he

/-- Playing a world from its beginning, once it is loaded. -/
theorem keeps_loadAndStep (hquiet : world.header.IsQuietIn log) (target : Time) :
    let o := (world.load log).andThen fun world => world.step log .forward origin target
    o.state.header = world.header ∧ (o.failure = none → o.state.IsQuiet) ∧
      ∀ packet ∈ o.emitted, ¬ packet.IsEntrance := by
  obtain ⟨hheader, hsilent⟩ := keeps_load world log
  by_cases hload : (world.load log).failure = none
  · have hloaded : (world.load log).state.QuietAs world.header :=
      ⟨hheader, isQuiet_load hload hquiet⟩
    obtain ⟨hstate, hemitted⟩ := hloaded.step log .forward origin target
    rw [Outcome.andThen_of_ok hload]
    refine ⟨hstate.header, fun _ => hstate.quiet, fun packet hp => ?_⟩
    exact (List.mem_append.1 hp).elim (fun hp => absurd (hsilent packet hp) not_false)
      (hemitted packet)
  · rw [Outcome.andThen_of_failed hload]
    exact ⟨hheader, fun h => absurd h hload, fun packet hp => absurd (hsilent packet hp) not_false⟩

end World

end Playhead
