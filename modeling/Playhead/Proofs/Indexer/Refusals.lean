import Playhead.Proofs.Indexer.Failing

/-!
# Refused packets leave no trace

A packet is refused if it comes too early or if its chunk cannot be read. Both are found before
anything is changed but two counters of the indexer, the time of the last packet and the number of
packets (`Playhead.Indexer.push_of_refused`). Neither of them is ever written, and the effect of a
packet does not depend on them (`Playhead.Indexer.handle_withCount`). They only decide whether a
packet comes too early, and whoever counts fewer packets refuses fewer.

So somebody who pushes all packets of a recording and does not care about refusals
(`Playhead.Indexer.pushEach`) ends with the index of the packets that were not refused
(`Playhead.Indexer.accepted`), and nothing in it tells of the others
(`Playhead.Recording.index_accepted`). No packet of the recording may fail in another way
(`Playhead.Indexer.OnlyRefuses`): if something cannot be written, what had been done before stays
done.
-/

namespace Playhead

open Wire (Codec)

/-! ### The number of packets in a scene -/

namespace Progress

variable (t : Time) (n : Nat) (p : Progress)

/-- The same with another number of packets. -/
def withPackets : Progress := { p with stats.packets := n }

/-- A life ends in the same way. -/
theorem retire_withPackets {V : Type} (value : Codec Failure V) (thing : LiveThing V) :
    (p.withPackets n).retire value thing t = (p.retire value thing t).map (withPackets n) := by
  rw [retire, retire, withPackets]
  split
  · rfl
  dsimp only
  cases p.log.commitTimeline value thing.timeline with
  | error failure => rfl
  | ok written =>
    dsimp only
    split <;> rfl

theorem retireEntity_withPackets (id : Int32) :
    (p.withPackets n).retireEntity t id = (p.retireEntity t id).map (withPackets n) := by
  rw [retireEntity, retireEntity, withPackets]
  cases p.scene.entities.get? id with
  | none => rfl
  | some entity =>
    exact retire_withPackets t n { p with scene.entities := p.scene.entities.erase id } _ entity

theorem spawnEntity_withPackets (id : Int32) (uuid : Uuid) (kind : Int32) (location : Location) :
    (p.withPackets n).spawnEntity t id uuid kind location =
      (p.spawnEntity t id uuid kind location).map (withPackets n) := by
  rw [spawnEntity, retireEntity_withPackets]
  exact Outcome.map_andThen fun _ => rfl

theorem teleportEntity_withPackets (id : Int32) (location : Location) :
    (p.withPackets n).teleportEntity t id location =
      (p.teleportEntity t id location).withPackets n := by
  rw [teleportEntity, teleportEntity, withPackets]
  cases p.scene.entities.get? id <;> rfl

theorem removeEntity_withPackets (id : Int32) :
    (p.withPackets n).removeEntity t id = (p.removeEntity t id).map (withPackets n) := by
  rw [removeEntity, removeEntity, retireEntity_withPackets, withPackets]
  cases p.scene.entities.get? id <;> rfl

theorem retireChunk_withPackets (x z : Int32) :
    (p.withPackets n).retireChunk t x z = (p.retireChunk t x z).map (withPackets n) := by
  rw [retireChunk, retireChunk, withPackets]
  cases p.scene.chunks.get? (x, z) with
  | none => rfl
  | some chunk =>
    exact retire_withPackets t n { p with scene.chunks := p.scene.chunks.erase (x, z) } _ _

theorem spawnChunk_withPackets (x z : Int32) (data : Bytes) (column : Column) :
    (p.withPackets n).spawnChunk t x z data column =
      (p.spawnChunk t x z data column).map (withPackets n) := by
  rw [spawnChunk, retireChunk_withPackets]
  exact Outcome.map_andThen fun _ => rfl

theorem receiveChunk_withPackets (x z : Int32) (data : Bytes) :
    (p.withPackets n).receiveChunk t x z data =
      (p.receiveChunk t x z data).map (withPackets n) := by
  rw [receiveChunk, receiveChunk]
  cases Column.decode data with
  | error failure => rfl
  | ok column =>
    simp only [spawnChunk_withPackets]
    rw [withPackets]
    cases p.scene.chunks.get? (x, z) with
    | none => rfl
    | some chunk =>
      dsimp only
      cases Column.diff? x z p.scene.minY chunk.column column <;> rfl

theorem updateBlock_withPackets (position : Position) (state : BlockState) :
    (p.withPackets n).updateBlock t position state =
      (p.updateBlock t position state).withPackets n := by
  rw [updateBlock, updateBlock, withPackets]
  cases p.scene.chunks.get? position.chunk with
  | none => rfl
  | some chunk =>
    dsimp only
    cases chunk.column.block? p.scene.minY position with
    | none => rfl
    | some before =>
      dsimp only
      split <;> rfl

theorem endRain_withPackets :
    (p.withPackets n).endRain t = (p.endRain t).map (withPackets n) := by
  rw [endRain, endRain, withPackets]
  cases p.scene.weather with
  | none => rfl
  | some rain => exact retire_withPackets t n { p with scene.weather := none } _ rain

theorem gameEvent_withPackets (event : UInt8) (value : Float32Bits) :
    (p.withPackets n).gameEvent t event value =
      (p.gameEvent t event value).map (withPackets n) := by
  rw [gameEvent, gameEvent]
  split
  · rfl
  split
  · exact endRain_withPackets t n p
  split
  · rfl
  split <;> rfl

/-- **What a packet does in a scene does not depend on how many packets there were.** -/
theorem receive_withPackets (packet : Packet) :
    (p.withPackets n).receive t packet = (p.receive t packet).map (withPackets n) := by
  cases packet with
  | spawnEntity id uuid kind location => exact spawnEntity_withPackets t n p id uuid kind location
  | teleportEntity id location =>
    exact congrArg Outcome.done (teleportEntity_withPackets t n p id location)
  | removeEntities ids =>
    exact Outcome.forEach_map (fun id p => removeEntity_withPackets t n p id) ids p
  | chunkData x z data => exact receiveChunk_withPackets t n p x z data
  | unloadChunk x z => exact retireChunk_withPackets t n p x z
  | blockUpdate position state =>
    exact congrArg Outcome.done (updateBlock_withPackets t n p position state)
  | gameEvent event value => exact gameEvent_withPackets t n p event value
  | setTime | setViewCenter | setViewDistance | joinGame | respawn | playerPosition
  | changeDifficulty | foreign => rfl

/-- Things in a row go in the same way. -/
theorem retireAll_withPackets {V : Type} (value : Codec Failure V) (things : List (LiveThing V)) :
    retireAll value t things (p.withPackets n) =
      (retireAll value t things p).map (withPackets n) :=
  Outcome.forEach_map (fun thing p => retire_withPackets t n p value thing) things p

/-- **A world ends in the same way.** -/
theorem endAll_withPackets : (p.withPackets n).endAll t = (p.endAll t).map (withPackets n) := by
  have hentities : (p.withPackets n).endEntities t = (p.endEntities t).map (withPackets n) :=
    retireAll_withPackets t n { p with scene.entities := .empty } _ _
  have hchunks (p : Progress) :
      (p.withPackets n).endChunks t = (p.endChunks t).map (withPackets n) :=
    retireAll_withPackets t n { p with scene.chunks := .empty } _ _
  rw [endAll, hentities, Outcome.map_andThen hchunks]
  exact Outcome.map_andThen (endRain_withPackets t n)

end Progress

/-! ### The counters of an indexer -/

namespace Indexer

variable (ix : Indexer) (t last : Time) (n : Nat)

/-- The same with other counters. -/
def withCount : Indexer := { ix with last := last, stats.packets := n }

/-- A world is written in the same way. -/
theorem writeWorld_withCount (scene : Scene) :
    (ix.withCount last n).writeWorld scene =
      (ix.writeWorld scene).map (·.withCount last n) := by
  rw [writeWorld, writeWorld, withCount]
  cases scene.draft.commit ix.log <;> rfl

/-- **A world is closed in the same way.** -/
theorem closeWorld_withCount :
    (ix.withCount last n).closeWorld t = (ix.closeWorld t).map (·.withCount last n) := by
  obtain ⟨log, last', draft, corrections, scene, stats⟩ := ix
  cases scene with
  | none => rfl
  | some scene =>
    have hended := Progress.endAll_withPackets t n ⟨scene, log, stats⟩
    rw [Progress.withPackets] at hended
    rw [closeWorld, closeWorld, withCount]
    dsimp only
    rw [hended]
    generalize Progress.endAll t ⟨scene, log, stats⟩ = ended
    let closed (p : Progress) : Indexer := ⟨p.log, last', draft, corrections, none, p.stats⟩
    refine Outcome.map_andThen (o := ended.map closed) (f := (·.withCount last n)) ?_
    exact fun ix => writeWorld_withCount ix last n _

theorem openWorld_withCount (info : WorldInfo) (seeds : ChannelSeeds) :
    (ix.withCount last n).openWorld t info seeds =
      (ix.openWorld t info seeds).map (·.withCount last n) := by
  rw [openWorld, closeWorld_withCount]
  exact Outcome.map_andThen fun _ => rfl

theorem respawn_withCount (dimension : Dimension) :
    (ix.withCount last n).respawn t dimension =
      (ix.respawn t dimension).map (·.withCount last n) := by
  obtain ⟨log, last', draft, corrections, scene, stats⟩ := ix
  cases scene with
  | none => rfl
  | some scene =>
    exact openWorld_withCount ⟨log, last', draft, corrections, some scene, stats⟩ t last n _ _

theorem receive_withCount (packet : Packet) :
    (ix.withCount last n).receive t packet = (ix.receive t packet).map (·.withCount last n) := by
  rw [receive, receive, withCount]
  cases ix.scene with
  | none => rfl
  | some scene =>
    exact congrArg (Outcome.map · _)
      (Progress.receive_withPackets t n ⟨scene, ix.log, ix.stats⟩ packet)

/-- **The effect of a packet does not depend on the counters**, and does not change them. -/
theorem handle_withCount (packet : Packet) :
    (ix.withCount last n).handle t packet = (ix.handle t packet).map (·.withCount last n) := by
  cases packet with
  | joinGame settings dimension =>
    exact openWorld_withCount { ix with
      corrections := .empty
      draft.corrections := ix.draft.corrections.insert t [] } t last n ⟨settings, dimension⟩ _
  | respawn dimension => exact respawn_withCount ix t last n dimension
  | playerPosition | changeDifficulty | foreign => rfl
  | spawnEntity | teleportEntity | removeEntities | chunkData | unloadChunk | blockUpdate
  | gameEvent | setTime | setViewCenter | setViewDistance => exact receive_withCount ix t last n _

/-- **The counters are not written.** -/
theorem finish_withCount : (ix.withCount last n).finish = ix.finish := by
  rw [finish, finish, closeWorld_withCount]
  rfl

/-! ### One packet -/

variable {ix t last n} {ix' : Indexer} {packet : Packet}

/-- A packet that is not too early takes effect and is counted. -/
theorem push_of_not_lt (h : ¬ t < ix.last) :
    ix.push t packet = (ix.handle t packet).map (·.withCount t (ix.stats.packets + 1)) := by
  -- the packet takes effect after it has been counted, which makes no difference
  rw [push, if_neg h]
  exact handle_withCount ix t t (ix.stats.packets + 1) packet

/-- **A packet that is refused is at most counted.** -/
theorem push_of_refused {failure : Failure} (h : (ix.push t packet).failure = some failure)
    (hrefused : failure.IsTimeOrder ∨ packet.IsUnreadable) :
    ∃ last n, ix.last ≤ last ∧ (ix.push t packet).state = ix.withCount last n := by
  by_cases hlt : t < ix.last
  · rw [push_of_lt ix t hlt]
    exact ⟨ix.last, ix.stats.packets, Int.le_refl _, rfl⟩
  rw [push_of_not_lt hlt] at h ⊢
  refine ⟨t, ix.stats.packets + 1, Int.not_lt.1 hlt, ?_⟩
  have hunreadable : packet.IsUnreadable := by
    -- no effect of a packet fails for the order of time
    rcases (silent_handle ix t packet).failure failure h with hwire | hunreadable
    · exact hrefused.resolve_left hwire.not_isTimeOrder
    · exact hunreadable
  rcases handle_of_isUnreadable ix t hunreadable with ⟨failure, hfails⟩ | hstray
  · rw [hfails]
    rfl
  · rw [hstray] at h
    exact absurd h nofun

/-- **A packet that is accepted is also accepted after fewer packets**, and does the same. -/
theorem push_withCount (h : (ix.push t packet).failure = none) (hlast : last ≤ ix.last) (n : Nat) :
    (ix.push t packet).state.last = t ∧ (ix.withCount last n).push t packet =
      .done ((ix.push t packet).state.withCount t (n + 1)) := by
  have hlt : ¬ t < ix.last := fun hlt => by
    rw [push_of_lt ix t hlt] at h
    exact absurd h nofun
  have hlt' : ¬ t < last := fun hlt' => hlt (Int.lt_of_lt_of_le hlt' hlast)
  rw [push_of_not_lt hlt] at h ⊢
  refine ⟨rfl, (push_of_not_lt hlt').trans ?_⟩
  rw [handle_withCount, (silent_handle ix t packet).eq_done h]
  rfl

/-! ### All packets -/

/-- Pushes every packet, whether or not those before it failed. -/
def pushEach : Recording → Indexer → Indexer
  | [], ix => ix
  | (t, packet) :: rest, ix => pushEach rest (ix.push t packet).state

/-- The packets that do not fail when every packet is pushed. -/
def accepted : Recording → Indexer → Recording
  | [], _ => []
  | (t, packet) :: rest, ix =>
    let pushed := ix.push t packet
    match pushed.failure with
    | none => (t, packet) :: accepted rest pushed.state
    | some _ => accepted rest pushed.state

/-- Whether every packet that fails when every packet is pushed comes too early or has a chunk that
cannot be read. -/
def OnlyRefuses : Recording → Indexer → Prop
  | [], _ => True
  | (t, packet) :: rest, ix =>
    (∀ failure, (ix.push t packet).failure = some failure →
      failure.IsTimeOrder ∨ packet.IsUnreadable) ∧
    OnlyRefuses rest (ix.push t packet).state

/-- **The accepted packets alone leave the indexer as all packets do**, up to its counters. -/
theorem pushAll_accepted {recording : Recording} (h : OnlyRefuses recording ix)
    (hlast : last ≤ ix.last) (n : Nat) :
    ∃ last' n', pushAll (accepted recording ix) (ix.withCount last n) =
      .done ((pushEach recording ix).withCount last' n') := by
  induction recording generalizing ix last n with
  | nil => exact ⟨last, n, rfl⟩
  | cons e recording ih =>
    obtain ⟨t, packet⟩ := e
    obtain ⟨hrefused, hrest⟩ := h
    rw [accepted, pushEach]
    cases hpush : (ix.push t packet).failure with
    | none =>
      obtain ⟨hlast', hsame⟩ := push_withCount hpush hlast n
      rw [pushAll_cons, hsame]
      exact ih hrest (Int.le_of_eq hlast'.symm) (n + 1)
    | some failure =>
      -- from here on the clock of the accepted packets may be behind, never ahead
      obtain ⟨last', n', hle, hsame⟩ := push_of_refused hpush (hrefused failure hpush)
      rw [hsame] at hrest ⊢
      have hlast' : last ≤ (ix.withCount last' n').last := Int.le_trans hlast hle
      exact ih hrest hlast' n

end Indexer

/-- **Refused packets leave no trace in an index.** Push all packets of a recording, whatever their
times and what they are, to an indexer that writes to a log, and go on after those that fail. If
each of these came too early or had a chunk that cannot be read, then those that did not fail are
all accepted without the others, and the index is the same: the same root in the same log. -/
theorem Recording.index_accepted {recording : Recording} {log : Log}
    (h : Indexer.OnlyRefuses recording (.start log)) :
    ∃ ix, Indexer.pushAll (Indexer.accepted recording (.start log)) (.start log) = .done ix ∧
      ix.finish = (Indexer.pushEach recording (.start log)).finish := by
  have hlast : 0 ≤ (Indexer.start log).last := Int.le_refl 0
  obtain ⟨last, n, hpush⟩ := Indexer.pushAll_accepted h hlast 0
  exact ⟨_, hpush, Indexer.finish_withCount _ last n⟩

/-- A chunk that is there is sent again and cannot be read, and then something comes that is
earlier. -/
def Recording.stumble : Recording :=
  [(0, .joinGame ⟨1, false, 20, 8, []⟩ ⟨"overworld", 0, 0, false, -64⟩), (2, .chunkData 0 0 []),
    (5, .chunkData 0 0 [7]), (3, .setTime 1 1), (5, .setTime 1 1)]

/-- The chunk that cannot be read is counted, so what is earlier comes too early; both leave no
trace, and the chunk that was there stays. -/
theorem Recording.index_accepted_stumble :
    Indexer.OnlyRefuses stumble (.start (.inMemory none)) ∧
      Indexer.accepted stumble (.start (.inMemory none)) = [stumble[0], stumble[1], stumble[4]] ∧
      ∃ ix, Indexer.pushAll [stumble[0], stumble[1], stumble[4]] (.start (.inMemory none)) =
          .done ix ∧
        ix.finish.isOk ∧
        ix.finish = (Indexer.pushEach stumble (.start (.inMemory none))).finish := by
  let start := Indexer.start (.inMemory none)
  have hshort : Column.decode [7] = .error .endOfInput := by cbv
  -- the packets in turn: two are taken, one is refused for its bytes and one for its time, and the
  -- last one is taken again
  have hjoin : (start.push 0 stumble[0].2).failure = none := by decide +kernel
  have hchunk : ((Indexer.pushEach (stumble.take 1) start).push 2 stumble[1].2).failure = none := by
    decide +kernel
  have hearly : ((Indexer.pushEach (stumble.take 3) start).push 3 stumble[3].2).failure =
      some (.timeOrder 5 3) := by decide +kernel
  have hlate : ((Indexer.pushEach (stumble.take 4) start).push 5 stumble[4].2).failure = none := by
    decide +kernel
  have honly : Indexer.OnlyRefuses stumble start := by
    refine ⟨fun failure h => ?_, fun failure h => ?_, fun failure _ => ?_, fun failure h => ?_,
      fun failure h => ?_, trivial⟩
    · exact absurd (hjoin.symm.trans h) nofun
    · exact absurd (hchunk.symm.trans h) nofun
    · exact .inr ⟨0, 0, [7], .endOfInput, rfl, hshort⟩
    · obtain rfl := Option.some.inj (hearly.symm.trans h)
      exact .inl trivial
    · exact absurd (hlate.symm.trans h) nofun
  have haccepted : Indexer.accepted stumble start = [stumble[0], stumble[1], stumble[4]] := by
    decide +kernel
  obtain ⟨ix, hpush, hfinish⟩ := index_accepted honly
  have hok : (Indexer.pushEach stumble start).finish.isOk = true := by decide +kernel
  rw [haccepted] at hpush
  exact ⟨honly, haccepted, ix, hpush, by rw [hfinish, hok], hfinish⟩

end Playhead
