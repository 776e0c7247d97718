import Playhead.Indexer.Basic
import Playhead.Proofs.Outcome
import Playhead.Proofs.Wire.Codec

/-!
# How a packet fails

An indexer emits nothing, and there are three ways in which it fails. A packet comes too early, its
chunk cannot be read, or something that has ended cannot be written, which is a fault of the wire
(`Playhead.Failure.IsWire`). The first is found before anything is changed
(`Playhead.Indexer.push_of_lt`), and so is the second (`Playhead.Progress.receiveChunk_of_error`);
the third is found midway. No effect of a packet fails for the order of time
(`Playhead.Indexer.silent_handle`).

So of a step that did not fail one knows that all its parts did not, which is what the lemmas at the
end say of the whole recording.
-/

namespace Playhead

open Wire (Codec)

/-! ### Kinds of failures -/

/-- A stored value could not be read or written. -/
def Failure.IsWire : Failure → Prop
  | .wire _ => True
  | _ => False

/-- A packet came earlier than the one before it. -/
def Failure.IsTimeOrder : Failure → Prop
  | .timeOrder .. => True
  | _ => False

/-- A fault of the wire is not one of time. -/
theorem Failure.IsWire.not_isTimeOrder {failure : Failure} (h : failure.IsWire) :
    ¬ failure.IsTimeOrder := by
  cases failure with
  | wire => exact id
  | _ => exact absurd h id

/-- The packet sends a chunk that cannot be read. -/
def Packet.IsUnreadable (packet : Packet) : Prop :=
  ∃ x z data failure, packet = .chunkData x z data ∧ Column.decode data = .error failure

/-! ### What is written -/

/-- If a computation fails, then in one of some ways. -/
def FailsOnly {ε α : Type} (R : ε → Prop) (x : Except ε α) : Prop :=
  ∀ e, x = .error e → R e

namespace FailsOnly

variable {ε ε' α β : Type} {R : ε → Prop}

theorem ok (a : α) : FailsOnly R (.ok a : Except ε α) := nofun

/-- One computation after the other fails as one of the two does. -/
theorem bind {x : Except ε α} {next : α → Except ε β} (h : FailsOnly R x)
    (hnext : ∀ a, FailsOnly R (next a)) : FailsOnly R (x >>= next) := by
  cases x with
  | error e => exact fun _ he => Except.error.inj he ▸ h e rfl
  | ok a => exact hnext a

/-- Failures that are named otherwise are what their names say. -/
theorem mapError {x : Except ε' α} {f : ε' → ε} (h : FailsOnly (fun e => R (f e)) x) :
    FailsOnly R (x.mapError f) := by
  cases x with
  | error e => exact fun _ he => Except.error.inj he ▸ h e rfl
  | ok a => exact ok a

/-- A row of computations fails as one of them does. -/
theorem mapM {f : α → Except ε β} (h : ∀ a, FailsOnly R (f a)) (xs : List α) :
    FailsOnly R (xs.mapM f) := by
  induction xs with
  | nil => exact ok []
  | cons a xs ih =>
    rw [List.mapM_cons]
    exact (h a).bind fun _ => ih.bind fun _ => ok _

/-- What fails on the wire is a fault of the wire. -/
theorem wire (x : Except Wire.Fault α) : FailsOnly Failure.IsWire (x.mapError .wire) :=
  mapError fun _ _ => trivial

/-- What a row of writes leaves does not matter to why it failed. -/
theorem unfinished {x : Except Failure α} (h : FailsOnly Failure.IsWire x) (log : Log) :
    FailsOnly (fun unfinished : Unfinished => unfinished.failure.IsWire)
      (x.mapError fun failure => ⟨failure, log⟩) :=
  mapError h

end FailsOnly

/-- A timeline is written, unless a value or a key cannot be. -/
theorem Timeline.failsOnly_encode {V : Type} {value : Codec Failure V}
    (h : ∀ v, FailsOnly Failure.IsWire (value.encode v)) (line : Timeline V) :
    FailsOnly Failure.IsWire ((codec value).encode line) := by
  have hentries : ∀ (entries : List (Time × V)) (previous : Time),
      FailsOnly Failure.IsWire (encodeEntries value previous entries) := by
    intro entries
    induction entries with
    | nil => exact fun _ => .ok []
    | cons e entries ih =>
      exact fun _ => (FailsOnly.wire _).bind fun _ => (h e.2).bind fun _ =>
        (ih e.1).bind fun _ => .ok _
  exact (FailsOnly.wire _).bind fun _ => (hentries _ _).bind fun _ => .ok _

/-- A timeline is committed, unless it cannot be written. -/
theorem Log.failsOnly_commitTimeline {V : Type} (log : Log) {value : Codec Failure V}
    (h : ∀ v, FailsOnly Failure.IsWire (value.encode v)) (line : Timeline V) :
    FailsOnly Failure.IsWire (log.commitTimeline value line) :=
  (Timeline.failsOnly_encode h line).bind fun _ => .ok _

/-- A key is written, unless its number cannot be. -/
theorem ThingKey.failsOnly_encode (key : ThingKey) :
    FailsOnly Failure.IsWire (ThingKey.codec.encode key) := by
  cases key with
  | entity | chunk =>
    exact (FailsOnly.wire _).bind fun _ => (FailsOnly.wire _).bind fun _ => .ok _
  | weather => exact (FailsOnly.wire _).bind fun _ => .ok _

/-- A record is written, unless one of its packets cannot be. -/
theorem ThingRecord.failsOnly_encode (compression : Option Compression) (r : ThingRecord) :
    FailsOnly Failure.IsWire ((ThingRecord.codec compression).encode r) := by
  have hpackets (packets : List Packet) :
      FailsOnly Failure.IsWire ((Stored.packets compression).encode packets) := FailsOnly.wire _
  exact (FailsOnly.wire _).bind fun _ =>
    ((ThingKey.failsOnly_encode _).bind fun _ =>
      ((hpackets _).bind fun _ => ((hpackets _).bind fun _ =>
        (FailsOnly.wire _).bind fun _ => .ok _).bind fun _ => .ok _).bind fun _ => .ok _).bind
    fun _ => .ok _

/-- A cast is committed, unless one of its records cannot be written. -/
theorem Cast.failsOnly_commit (log : Log) (records : List ThingRecord) :
    FailsOnly Failure.IsWire (Cast.commit log records) :=
  ((FailsOnly.wire _).bind fun _ => (FailsOnly.mapM (ThingRecord.failsOnly_encode _) _).bind
    fun _ => .ok _).bind fun _ => .ok _

/-- A world is written, unless one of its records or of its packets cannot be. -/
theorem WorldDraft.failsOnly_commit (draft : WorldDraft) (log : Log) :
    FailsOnly (fun unfinished => unfinished.failure.IsWire) (draft.commit log) := by
  have hpacket (packet : Packet) :
      FailsOnly Failure.IsWire ((Stored.packet log.compression).encode packet) := FailsOnly.wire _
  have hchannel (log : Log) (line : Timeline Packet) :=
    (log.failsOnly_commitTimeline hpacket line).unfinished log
  exact ((Cast.failsOnly_commit log draft.things).unfinished log).bind fun _ =>
    (hchannel _ _).bind fun _ => (hchannel _ _).bind fun _ => (hchannel _ _).bind fun _ =>
      (hchannel _ _).bind fun _ => .ok _

/-! ### Packets for the open world -/

namespace Progress

variable (p : Progress) (t : Time)

/-- **A chunk is read before anything else is done**: one that cannot be read leaves all as it
was. -/
theorem receiveChunk_of_error {x z : Int32} {data : Bytes} {failure : Failure}
    (h : Column.decode data = .error failure) : p.receiveChunk t x z data = .fail p failure := by
  rw [receiveChunk, h]

/-- A life that ends fails only if it cannot be written. -/
theorem silent_retire {V : Type} {value : Codec Failure V}
    (h : ∀ v, FailsOnly Failure.IsWire (value.encode v)) (thing : LiveThing V) (p : Progress) :
    (p.retire value thing t).Silent Failure.IsWire := by
  rw [retire]
  split
  · exact .done _
  · next hlt =>
    have hcommit := p.log.failsOnly_commitTimeline h thing.timeline
    split
    · next failure hfailure => exact .fail (hcommit failure hfailure) p
    · -- the record of a life that ends after it began is never refused
      simp only [Cast.enlist, if_neg hlt]
      exact .done _

theorem silent_retireEntity (id : Int32) (p : Progress) :
    (p.retireEntity t id).Silent Failure.IsWire := by
  rw [retireEntity]
  split
  · exact .done p
  · exact silent_retire t (fun _ => FailsOnly.wire _) _ _

theorem silent_removeEntity (id : Int32) (p : Progress) :
    (p.removeEntity t id).Silent Failure.IsWire := by
  rw [removeEntity]
  split
  · exact .done _
  · exact silent_retireEntity t id p

theorem silent_retireChunk (x z : Int32) : (p.retireChunk t x z).Silent Failure.IsWire := by
  rw [retireChunk]
  split
  · exact .done p
  · exact silent_retire t (fun _ => FailsOnly.wire _) _ _

/-- A chunk that appears fails only if the one that it replaces cannot be written. -/
theorem silent_spawnChunk (x z : Int32) (data : Bytes) (column : Column) :
    (p.spawnChunk t x z data column).Silent Failure.IsWire :=
  (silent_retireChunk p t x z).andThen fun _ => .done _

/-- A chunk that can be read fails only if the one that it replaces cannot be written. -/
theorem silent_receiveChunk {x z : Int32} {data : Bytes} {column : Column}
    (h : Column.decode data = .ok column) :
    (p.receiveChunk t x z data).Silent Failure.IsWire := by
  rw [receiveChunk, h]
  dsimp only
  split
  · exact silent_spawnChunk p t x z data column
  · split
    · exact silent_spawnChunk p t x z data column
    · exact .done _

theorem silent_endRain (p : Progress) : (p.endRain t).Silent Failure.IsWire := by
  rw [endRain]
  split
  · exact .done p
  · exact silent_retire t (fun _ => FailsOnly.wire _) _ _

theorem silent_gameEvent (event : UInt8) (value : Float32Bits) :
    (p.gameEvent t event value).Silent Failure.IsWire := by
  rw [gameEvent]
  split
  · exact .done _
  split
  · exact silent_endRain t p
  split
  · exact .done _
  split <;> exact .done _

/-- **A packet that fails in the open world** has a chunk that cannot be read, or something that it
ends cannot be written. -/
theorem silent_receive (packet : Packet) :
    (p.receive t packet).Silent fun failure => failure.IsWire ∨ packet.IsUnreadable := by
  have hwire {o : Outcome Progress} (h : o.Silent Failure.IsWire) :
      o.Silent fun failure => failure.IsWire ∨ packet.IsUnreadable := h.mono fun _ => .inl
  cases packet with
  | spawnEntity id => exact hwire ((silent_retireEntity t id p).andThen fun _ => .done _)
  | removeEntities ids => exact hwire (.forEach (silent_removeEntity t) ids p)
  | chunkData x z data =>
    cases hdecode : Column.decode data with
    | ok column => exact hwire (silent_receiveChunk p t hdecode)
    | error failure =>
      rw [receive, receiveChunk_of_error p t hdecode]
      exact .fail (.inr ⟨x, z, data, failure, rfl, hdecode⟩) p
  | unloadChunk x z => exact hwire (silent_retireChunk p t x z)
  | gameEvent event value => exact hwire (silent_gameEvent p t event value)
  | teleportEntity | blockUpdate | setTime | setViewCenter | setViewDistance | joinGame | respawn
  | playerPosition | changeDifficulty | foreign => exact .done _

/-- The end of a world fails only if something in it cannot be written. -/
theorem silent_endAll : (p.endAll t).Silent Failure.IsWire := by
  have hentities : (p.endEntities t).Silent Failure.IsWire :=
    .forEach (silent_retire t fun _ => FailsOnly.wire _) _ _
  have hchunks (p : Progress) : (p.endChunks t).Silent Failure.IsWire :=
    .forEach (silent_retire t fun _ => FailsOnly.wire _) _ _
  exact (hentities.andThen hchunks).andThen (silent_endRain t)

/-! ### Packets that succeeded -/

variable {p t} {p' : Progress}

/-- What ending a life does when it succeeds. -/
theorem retire_cases {V : Type} {value : Codec Failure V} {thing : LiveThing V}
    (hok : p.retire value thing t = .done p') :
    t ≤ thing.spawn ∧ p' = { p with stats.discarded := p.stats.discarded + 1 } ∨
      thing.spawn < t ∧ ∃ inner log,
        p.log.commitTimeline value thing.timeline = .ok (inner, log) ∧
          p' = { p with
            scene.draft.things := p.scene.draft.things ++
              [⟨thing.spawn, t, thing.key, [thing.appearance], [thing.disappearance], inner⟩]
            log := log
            stats.things := p.stats.things + 1 } := by
  rw [Progress.retire] at hok
  split at hok
  · next hle => exact .inl ⟨hle, (Outcome.done_inj.1 hok).symm⟩
  · next hlt =>
    refine .inr ⟨Int.not_le.1 hlt, ?_⟩
    split at hok
    · exact absurd hok (Outcome.fail_ne_done _ _ _)
    · next inner log hcommit =>
      -- the record of a life that ends after it began is never refused
      simp only [Cast.enlist, if_neg hlt] at hok
      exact ⟨inner, log, hcommit, (Outcome.done_inj.1 hok).symm⟩

/-- A chunk that is taken has been read. -/
theorem receiveChunk_cases {x z : Int32} {data : Bytes}
    (hok : p.receiveChunk t x z data = .done p') :
    ∃ column, Column.decode data = .ok column ∧
      (match p.scene.chunks.get? (x, z) with
        | none => p.spawnChunk t x z data column
        | some chunk =>
          match Column.diff? x z p.scene.minY chunk.column column with
          | none => p.spawnChunk t x z data column
          | some changes => .done { p with
              scene.chunks := p.scene.chunks.insert (x, z)
                { LiveChunk.record chunk t changes with column := column } }) = .done p' := by
  rw [Progress.receiveChunk] at hok
  split at hok
  · exact absurd hok (Outcome.fail_ne_done _ _ _)
  · next column hdecode => exact ⟨column, hdecode, hok⟩

theorem removeEntities_cons (t : Time) (id : Int32) (ids : List Int32) (p : Progress) :
    removeEntities t (id :: ids) p = (p.removeEntity t id).andThen (removeEntities t ids) := rfl

theorem retireAll_cons {V : Type} (value : Codec Failure V) (t : Time) (thing : LiveThing V)
    (things : List (LiveThing V)) (p : Progress) :
    retireAll value t (thing :: things) p =
      (p.retire value thing t).andThen (retireAll value t things) := rfl

end Progress

/-! ### All packets -/

namespace Indexer

variable (ix : Indexer) (t : Time)

/-- **A packet that comes too early has no effect.** -/
theorem push_of_lt (h : t < ix.last) (packet : Packet) :
    ix.push t packet = .fail ix (.timeOrder ix.last t) := by
  rw [push, if_pos h]

/-- Closing a world fails only if something of it cannot be written. -/
theorem silent_closeWorld (ix : Indexer) : (ix.closeWorld t).Silent Failure.IsWire := by
  rw [closeWorld]
  split
  · exact .done ix
  · next scene _ =>
    refine ((Progress.silent_endAll _ t).map _).andThen fun ix => ?_
    rw [writeWorld]
    split
    · next unfinished hcommit =>
      exact .fail (WorldDraft.failsOnly_commit _ _ unfinished hcommit) _
    · exact .done _

/-- Opening a world fails only if the one before it cannot be closed. -/
theorem silent_openWorld (info : WorldInfo) (seeds : ChannelSeeds) :
    (ix.openWorld t info seeds).Silent Failure.IsWire :=
  (silent_closeWorld t ix).andThen fun _ => .done _

/-- **A packet that is not too early fails** only if its chunk cannot be read or something that it
ends cannot be written. -/
theorem silent_handle (packet : Packet) :
    (ix.handle t packet).Silent fun failure => failure.IsWire ∨ packet.IsUnreadable := by
  have hreceive : (ix.receive t packet).Silent fun failure =>
      failure.IsWire ∨ packet.IsUnreadable := by
    rw [receive]
    split
    · exact .done _
    · exact (Progress.silent_receive _ t packet).map _
  cases packet with
  | joinGame settings dimension =>
    exact (silent_openWorld _ t _ _).mono fun _ => .inl
  | respawn dimension =>
    rw [handle, respawn]
    split
    · exact .done _
    · exact (silent_openWorld ix t _ _).mono fun _ => .inl
  | playerPosition | changeDifficulty | foreign => exact .done _
  | spawnEntity | teleportEntity | removeEntities | chunkData | unloadChunk | blockUpdate
  | gameEvent | setTime | setViewCenter | setViewDistance => exact hreceive

/-- **A chunk that cannot be read changes nothing in the index**: either there is a world, and the
packet fails, or there is none, and the packet is only counted. -/
theorem handle_of_isUnreadable {packet : Packet} (h : packet.IsUnreadable) :
    (∃ failure, ix.handle t packet = .fail ix failure) ∨
      ix.handle t packet = .done { ix with stats.untracked := ix.stats.untracked + 1 } := by
  obtain ⟨x, z, data, failure, rfl, hdecode⟩ := h
  show (∃ failure, ix.receive t (.chunkData x z data) = _) ∨ ix.receive t (.chunkData x z data) = _
  rw [receive]
  cases hopen : ix.scene with
  | none => exact .inr rfl
  | some scene =>
    dsimp only
    rw [Progress.receive, Progress.receiveChunk_of_error _ t hdecode, Outcome.fail_map, ← hopen]
    exact .inl ⟨failure, rfl⟩

theorem silent_push (e : Time × Packet) (ix : Indexer) :
    (ix.push e.1 e.2).Silent fun _ => True := by
  rw [push]
  split
  · exact .fail trivial ix
  · exact (silent_handle _ e.1 e.2).mono fun _ _ => trivial

/-- A whole recording emits nothing. -/
theorem silent_pushAll (recording : Recording) : (pushAll recording ix).Silent fun _ => True :=
  .forEach silent_push recording ix

/-! ### What succeeded -/

variable {ix t} {ix' : Indexer} {packet : Packet}

/-- A packet that is taken is not earlier than the one before. -/
theorem push_eq_done (h : ix.push t packet = .done ix') :
    ix.last ≤ t ∧
      { ix with last := t, stats.packets := ix.stats.packets + 1 }.handle t packet = .done ix' := by
  rw [push] at h
  split at h
  · exact absurd h (Outcome.fail_ne_done _ _ _)
  · next hlt => exact ⟨Int.not_lt.1 hlt, h⟩

theorem pushAll_cons (e : Time × Packet) (rest : Recording) (ix : Indexer) :
    pushAll (e :: rest) ix = (ix.push e.1 e.2).andThen (pushAll rest) := rfl

/-- A recording in two parts is taken one part after the other. -/
theorem pushAll_append (front rest : Recording) (ix : Indexer) :
    pushAll (front ++ rest) ix = (pushAll front ix).andThen (pushAll rest) := by
  induction front generalizing ix with
  | nil => rfl
  | cons e front ih =>
    rw [List.cons_append, pushAll_cons, pushAll_cons, Outcome.andThen_assoc]
    exact congrArg _ (funext ih)

/-- A world that is closed has been ended and written. -/
theorem closeWorld_eq_done {scene : Scene} (hopen : ix.scene = some scene)
    (h : ix.closeWorld t = .done ix') :
    ∃ p header log, (Progress.mk scene ix.log ix.stats).endAll t = .done p ∧
      p.scene.draft.commit p.log = .ok (header, log) ∧
        ix' = { ix with
          log := log
          draft.worlds := ix.draft.worlds.insert p.scene.start header
          scene := none
          stats := p.stats } := by
  rw [closeWorld, hopen] at h
  obtain ⟨ix₁, hended, hwrite⟩ := Outcome.andThen_eq_done_iff.1 h
  obtain ⟨p, hend, rfl⟩ := Outcome.map_eq_done_iff.1 hended
  rw [hend, writeWorld] at hwrite
  split at hwrite
  · exact absurd hwrite (Outcome.fail_ne_done _ _ _)
  · next header log hcommit =>
    exact ⟨p, header, log, hend, hcommit, (Outcome.done_inj.1 hwrite).symm⟩

/-- An index that is finished has its last world closed. -/
theorem finish_eq_ok {written : Handle × Log} (h : ix.finish = .ok written) :
    ∃ ix', ix.closeWorld Time.last = .done ix' ∧ ix'.draft.commit ix'.log = .ok written := by
  rw [finish] at h
  split at h
  · exact absurd h nofun
  · next hok => exact ⟨_, (silent_closeWorld Time.last ix).eq_done hok, h⟩

end Indexer

/-- An index that is written has taken all packets. -/
theorem Recording.index_eq_ok {recording : Recording} {log : Log} {written : Handle × Log}
    (h : recording.index log = .ok written) :
    ∃ ix, Indexer.pushAll recording (.start log) = .done ix ∧ ix.finish = .ok written := by
  rw [index] at h
  split at h
  · exact absurd h nofun
  · next hok => exact ⟨_, (Indexer.silent_pushAll _ recording).eq_done hok, h⟩

end Playhead
