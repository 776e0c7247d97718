import Playhead.Proofs.RoundTrip
import Playhead.Proofs.Thing.Record
import Playhead.Proofs.Zlib.Stored

/-!
# What is built comes back

A timeline in the making is a map to which values are put in any order; building writes it to the
log and gives a handle. `Playhead.Log.built_comes_back` says that this is lossless: a track at that
handle loads, however much has been written to the log since, and what it loads is the map from
each moment to the value put there **last**. The same is said of the records of a cast.

Two things can be said against a timeline: that the distance between two of its keys overflows the
clock (`Playhead.Timeline.StepsFit`), and that a value of it does not survive its own form
(`Playhead.ValueKind.Storable`). There is no third but the number of entries, which has to have a
place in a length.
-/

namespace Playhead

open Wire (Codec Fits)

/-! ### Writing succeeds -/

/-- The lengths that can be written, whatever a failure is called. -/
theorem encodes_length_iff {n : Nat} :
    (Wire.length.mapError Failure.wire).Encodes n ↔ n < 0x80000000 := by
  rw [← Wire.length_encodes_iff]
  simp only [Codec.Encodes, Codec.mapError, Codec.mapError_eq_ok_iff]

namespace Timeline

variable {V : Type} {value : Codec Failure V}

/-- Entries are written if their values are. -/
theorem exists_encodeEntries {entries : List (Time × V)} (h : ∀ e ∈ entries, value.Encodes e.2)
    (previous : Time) : ∃ bytes, encodeEntries value previous entries = .ok bytes := by
  induction entries generalizing previous with
  | nil => exact ⟨[], rfl⟩
  | cons e entries ih =>
    obtain ⟨front, hfront⟩ := h e List.mem_cons_self
    obtain ⟨tail, htail⟩ := ih (fun e' he' => h e' (List.mem_cons_of_mem _ he')) e.1
    obtain ⟨key, hkey⟩ : Wire.varlong.Encodes (Int64.ofInt (e.1 - previous)) := ⟨_, rfl⟩
    refine ⟨key ++ front ++ tail, ?_⟩
    simp only [encodeEntries, hkey, Codec.mapError_ok, hfront, htail, bind, Except.bind, pure,
      Except.pure]

/-- **A timeline can be written if its values can**, unless it has more entries than a length can
say. -/
theorem encodes_iff {line : Timeline V} (h : ∀ e ∈ line.entries, value.Encodes e.2) :
    (Timeline.codec value).Encodes line ↔ line.size < 0x80000000 := by
  obtain ⟨tail, htail⟩ := exists_encodeEntries h 0
  rw [← encodes_length_iff]
  constructor
  · rintro ⟨bytes, hbytes⟩
    obtain ⟨front, hfront, -⟩ := Codec.ok_of_bind hbytes
    exact ⟨front, hfront⟩
  · rintro ⟨front, hfront⟩
    refine ⟨front ++ tail, ?_⟩
    simp only [Codec.mapError] at hfront
    simp only [codec, hfront, htail, bind, Except.bind, pure, Except.pure]

end Timeline

/-! ### The log after further writing -/

namespace Log

/-- The log after some more regions have been written. -/
def commitAll (log : Log) (regions : List Bytes) : Log :=
  regions.foldl (fun log bytes => (log.commit bytes).2) log

/-- Committing many regions is an addition to the log. -/
theorem growsTo_commitAll {log : Log} (h : log.Faithful) (regions : List Bytes) :
    log.GrowsTo (log.commitAll regions) := by
  induction regions generalizing log with
  | nil => exact .refl h
  | cons bytes regions ih =>
    have hgrow := growsTo_commit h bytes
    exact hgrow.trans (ih hgrow.faithful)

/-- Whether a region is written depends on its bytes alone. -/
theorem exists_commit_iff {log : Log} {x : Except Failure Bytes} :
    (∃ built, (do let bytes ← x; return log.commit bytes) = .ok built) ↔
      ∃ bytes, x = .ok bytes := by
  cases x with
  | error e => simp [bind, Except.bind]
  | ok bytes => exact ⟨fun _ => ⟨bytes, rfl⟩, fun _ => ⟨log.commit bytes, rfl⟩⟩

end Log

/-! ### The values of timelines -/

/-- What a timeline holds: the strength of rain, places of an entity, changes of a chunk, the
settings of a channel, corrections, and worlds. -/
inductive ValueKind where
  | level
  | location
  | changes
  | packet
  | packets
  | header
  deriving DecidableEq, Repr

namespace ValueKind

/-- The values of a kind. -/
def Value : ValueKind → Type
  | level => Float32Bits
  | location => Location
  | changes => List BlockChange
  | packet => Packet
  | packets => List Packet
  | header => WorldHeader

/-- The form in which they are stored. -/
def codec (compression : Option Compression) : (kind : ValueKind) → Codec Failure kind.Value
  | level => Stored.level
  | location => Stored.location
  | changes => Stored.changes
  | packet => Stored.packet compression
  | packets => Stored.packets compression
  | header => WorldHeader.codec.mapError .wire

/-- The values that lose nothing on the wire. -/
def Sendable : (kind : ValueKind) → kind.Value → Prop
  | level => fun _ => True
  | location => fun _ => True
  | changes => fun cs : List BlockChange => ∀ c ∈ cs, c.position.Packable
  | packet => Packet.Sendable
  | packets => fun ps : List Packet => ∀ p ∈ ps, p.Sendable
  | header => fun h : WorldHeader => Fits h.info.dimension.name

/-- **The values that survive their own form**: none of their lengths is too great to be written,
their texts are short enough to be read and their positions lose no bits. -/
structure Storable (kind : ValueKind) (compression : Option Compression) (v : kind.Value) :
    Prop where
  sendable : kind.Sendable v
  encodes : (kind.codec compression).Encodes v

/-- What can be sent of a kind of values is read back as it is. -/
theorem codec_readsBack (kind : ValueKind) (compression : Option Compression) :
    ∃ back, (kind.codec compression).ReadsBack back ∧
      ∀ v, kind.Sendable v → back v = some v := by
  cases kind with
  | level => exact ⟨some, Stored.level_exact, fun _ _ => rfl⟩
  | location => exact ⟨some, Stored.location_exact, fun _ _ => rfl⟩
  | changes =>
    refine ⟨_, Stored.changes_readsBack, fun (cs : List BlockChange) hcs => ?_⟩
    have hstored : cs.map BlockChange.stored = cs.map id :=
      List.map_congr_left fun c hc => BlockChange.stored_of_packable (hcs c hc)
    rw [hstored, List.map_id]
    rfl
  | packet => exact ⟨_, Stored.packet_readsBack compression, fun _ => Packet.back_of_sendable⟩
  | packets =>
    exact ⟨_, Stored.packets_readsBack compression, fun (ps : List Packet) hps =>
      Codec.mapM_eq_self fun p hp => Packet.back_of_sendable (hps p hp)⟩
  | header =>
    exact ⟨_, WorldHeader.codec_readsBack.mapError _, fun _ hname => if_pos hname⟩

end ValueKind

/-! ### Records -/

/-- The records that survive being stored. -/
structure ThingRecord.StorableUnder (compression : Option Compression) (r : ThingRecord) :
    Prop where
  lt : r.spawn < r.despawn
  spawn : r.spawn.isRepresentable
  despawn : r.despawn.isRepresentable
  spawnPackets : ∀ p ∈ r.spawnPackets, p.Sendable
  despawnPackets : ∀ p ∈ r.despawnPackets, p.Sendable
  encodes : (ThingRecord.codec compression).Encodes r

/-- A record that can be stored under a compression comes back as it is. -/
theorem ThingRecord.StorableUnder.back_eq {compression : Option Compression} {r : ThingRecord}
    (h : r.StorableUnder compression) : r.back = some r :=
  back_eq_some h.spawn h.despawn h.lt
    (Codec.mapM_eq_self fun p hp => Packet.back_of_sendable (h.spawnPackets p hp))
    (Codec.mapM_eq_self fun p hp => Packet.back_of_sendable (h.despawnPackets p hp))

/-- Records of lives that are not empty are all accepted, in order. -/
theorem Cast.foldlM_enlist {records : List ThingRecord} (h : ∀ r ∈ records, r.spawn < r.despawn)
    (done : List ThingRecord) : records.foldlM enlist done = .ok (done ++ records) := by
  induction records generalizing done with
  | nil => simp [pure, Except.pure]
  | cons r records ih =>
    have hr : ¬ r.despawn ≤ r.spawn := Int.not_le.2 (h r List.mem_cons_self)
    rw [List.foldlM_cons, enlist, if_neg hr]
    simp only [bind, Except.bind]
    rw [ih fun r' hr' => h r' (List.mem_cons_of_mem _ hr'), List.append_assoc]
    rfl

/-! ### What was built loads -/

namespace Log

variable {V : Type}

/-- A timeline whose values are read back loads at its handle, whatever is written later. -/
theorem load_commitTimeline {log log' : Log} (hlog : log.Faithful) {value : Codec Failure V}
    {back : V → Option V} (hvalue : value.ReadsBack back) {line : Timeline V} {handle : Handle}
    (h : log.commitTimeline value line = .ok (handle, log'))
    (hfit : Timeline.StepsFit 0 line.entries) (hback : ∀ e ∈ line.entries, back e.2 = some e.2)
    (more : List Bytes) :
    (Track.atHandle handle).load value (log'.commitAll more) = .done ⟨handle, some line⟩ := by
  obtain ⟨hgrow, hheld⟩ := holds_commitTimeline_self hlog h hvalue hfit hback
  have hgrow' := growsTo_commitAll hgrow.faithful more
  exact (hheld.grow hgrow.faithful hgrow').load_track none

/-- Records that are read back load at their handle, whatever is written later. -/
theorem load_commitCast {log log' : Log} (hlog : log.Faithful) {records : List ThingRecord}
    {handle : Handle} (h : Cast.commit log records = .ok (handle, log'))
    (hback : ∀ r ∈ records, r.back = some r) (more : List Bytes) :
    ∃ cast, (Cast.atHandle handle).load (log'.commitAll more) = .done cast ∧
      cast.members.toList.map (·.thing.record) = records := by
  obtain ⟨hgrow, hheld⟩ := Cast.holds_commit_of_back hlog h hback
  have hgrow' := growsTo_commitAll hgrow.faithful more
  have hheld' := hheld.grow hgrow.faithful hgrow'
  rw [← hgrow.compression, ← hgrow'.compression] at hheld'
  refine ⟨_, Cast.load_of_holds hheld', ?_⟩
  rw [List.map_map]
  exact List.map_id records

/-- **What is built comes back.** For every kind of value and whatever order values are put in, by
moments whose distances fit the clock: building leaves nothing in the making and gives a handle,
unless there are more entries than a length can say; and at that handle a track loads exactly the
value put last at each moment, however much is written in between. The records of a cast come back
in order, under the same conditions. -/
theorem built_comes_back {log : Log} (hlog : log.Faithful) :
    (∀ (kind : ValueKind) (puts : List (Time × kind.Value)),
      (∀ e ∈ puts, kind.Storable log.compression e.2) →
      (Timeline.StepsFit 0 (SortedMap.ofList puts).entries ∨
        ∀ e ∈ puts, 0 ≤ e.1 ∧ e.1 ≤ Time.last) →
      ∃ written,
        Timeline.build (.ofList puts) (kind.codec log.compression) log = (.empty, written) ∧
        ((∃ built, written = .ok built) ↔ (SortedMap.ofList puts).size < 0x80000000) ∧
        ∀ handle log', written = .ok (handle, log') → ∀ more : List Bytes, ∃ line,
          (Track.atHandle handle).load (kind.codec log.compression) (log'.commitAll more) =
            .done ⟨handle, some line⟩ ∧
          ∀ t, line.get? t = (puts.reverse.find? fun e => e.1 = t).map (·.2)) ∧
    (∀ records : List ThingRecord, (∀ r ∈ records, r.StorableUnder log.compression) →
      records.foldlM Cast.enlist [] = .ok records ∧
      ((∃ built, Cast.commit log records = .ok built) ↔ records.length < 0x80000000) ∧
      ∀ handle log', Cast.commit log records = .ok (handle, log') → ∀ more : List Bytes, ∃ cast,
        (Cast.atHandle handle).load (log'.commitAll more) = .done cast ∧
          cast.members.toList.map (·.thing.record) = records) := by
  refine ⟨fun kind puts hputs hkeys => ⟨_, rfl, ?_, ?_⟩, fun records hrecords => ⟨?_, ?_, ?_⟩⟩
  · -- a timeline is written if its length is
    have hencodes : ∀ e ∈ (SortedMap.ofList puts).entries,
        (kind.codec log.compression).Encodes e.2 := fun e he =>
      (hputs e (SortedMap.mem_of_mem_ofList he)).encodes
    rw [← Timeline.encodes_iff hencodes]
    exact exists_commit_iff
  · intro handle log' hbuilt more
    obtain ⟨back, hback, hsendable⟩ := kind.codec_readsBack log.compression
    have hfit : Timeline.StepsFit 0 (SortedMap.ofList puts).entries := by
      refine hkeys.elim id fun hnonneg => ?_
      exact Timeline.stepsFit_of_nonneg (Int.le_refl 0) (by decide) fun e he =>
        hnonneg e (SortedMap.mem_of_mem_ofList he)
    have hload := load_commitTimeline hlog hback hbuilt hfit
      (fun e he => hsendable _ (hputs e (SortedMap.mem_of_mem_ofList he)).sendable) more
    exact ⟨_, hload, SortedMap.get?_ofList puts⟩
  · -- no record is refused
    exact Cast.foldlM_enlist (fun r hr => (hrecords r hr).lt) []
  · have hencodes : ∀ r ∈ records, (ThingRecord.codec log.compression).Encodes r := fun r hr =>
      (hrecords r hr).encodes
    rw [← encodes_length_iff, ← Codec.encodes_list_iff hencodes]
    exact exists_commit_iff
  · intro handle log' hbuilt more
    exact load_commitCast hlog hbuilt (fun r hr => (hrecords r hr).back_eq) more

/-- An empty log that compresses as it does unless something else is asked for. -/
def usual : Log := .inMemory (some (Zlib.compression defaultThreshold))

/-- Corrections, put out of order and twice at one moment. -/
def untidyPuts : List (Time × List Packet) :=
  [(7, [.setViewDistance 8]), (-3, []), (7, [.changeDifficulty 2 true])]

/-- Rain from 2 to 9. -/
def shower : ThingRecord := ⟨2, 9, .weather, [.beginRain], [.endRain], 0⟩

/-- Times before the recording, a time that is put twice, and a value that is put before an earlier
one; the record is a shower. -/
theorem built_comes_back_untidy :
    (∃ handle log', (Timeline.build (.ofList untidyPuts)
          (ValueKind.packets.codec usual.compression) usual).2 = .ok (handle, log') ∧
      ∃ line, (Track.atHandle handle).load (ValueKind.packets.codec usual.compression)
          (log'.commitAll [[1, 2], []]) = .done ⟨handle, some line⟩ ∧
        line.get? (-3) = some [] ∧ line.get? 7 = some [.changeDifficulty 2 true]) ∧
    ∃ handle log', Cast.commit usual [shower] = .ok (handle, log') ∧
      ∃ cast, (Cast.atHandle handle).load (log'.commitAll [[1, 2], []]) = .done cast ∧
        cast.members.toList.map (·.thing.record) = [shower] := by
  have hlog : usual.Faithful := rfl
  obtain ⟨htimelines, hcasts⟩ := built_comes_back hlog
  constructor
  · have hputs : ∀ e ∈ untidyPuts, ValueKind.packets.Storable usual.compression e.2 := by
      intro e he
      have hsendable : ∀ e ∈ untidyPuts, ∀ p ∈ e.2, p.Sendable := by decide +kernel
      have hencodes : ∀ e ∈ untidyPuts,
          ((ValueKind.packets.codec usual.compression).encode e.2).isOk = true := by
        decide +kernel
      exact ⟨hsendable e he, Codec.exists_of_isOk (hencodes e he)⟩
    obtain ⟨written, hbuild, hwritten, hload⟩ :=
      htimelines .packets untidyPuts hputs (.inl (by decide +kernel))
    obtain ⟨⟨handle, log'⟩, rfl⟩ := hwritten.2 (by decide +kernel)
    obtain ⟨line, hline, hget⟩ := hload handle log' rfl [[1, 2], []]
    exact ⟨handle, log', congrArg Prod.snd hbuild, line, hline, hget _, hget _⟩
  · have hshower : ∀ r ∈ [shower], r.StorableUnder usual.compression := List.forall_mem_singleton.2
      ⟨by decide, by decide, by decide, by decide +kernel, by decide +kernel,
        Codec.exists_of_isOk (by decide +kernel)⟩
    obtain ⟨-, hwritten, hload⟩ := hcasts [shower] hshower
    obtain ⟨⟨handle, log'⟩, hcommit⟩ := hwritten.2 (by decide)
    obtain ⟨cast, hcast, hrecords⟩ := hload handle log' hcommit [[1, 2], []]
    exact ⟨handle, log', hcommit, cast, hcast, hrecords⟩

end Log

end Playhead
