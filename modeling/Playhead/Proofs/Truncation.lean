import Playhead.Proofs.Loading
import Playhead.Proofs.Persistence
import Playhead.Proofs.Wire.Steady
import Playhead.World.Basic

/-!
# A lost tail is noticed

Bytes get lost at the end: a connection breaks, a file is cut. Main statement:
`Playhead.truncated_refused`. No proper front part of a packet or of a frame is read as anything,
and a log that was cut inside a region, or before it, gives nothing under the handle of that region:
no timeline with fewer entries, and none with others.

Nothing is assumed about the values. One that would not come back as it was, because a position
loses bits or a name is too long, is refused all the same when its end is missing; and so is a
timeline whose keys are too far apart for the clock. What is needed of the bytes of a timeline is
only that they are read to their end, if at all (`Playhead.Timeline.codec_readsToEnd`).
-/

namespace Playhead

open Wire

/-- Members in a row are read alike by codecs that read alike. -/
theorem Wire.Codec.decodeMany_congr {ε α : Type} {codec codec' : Codec ε α}
    (h : codec.decode = codec'.decode) : codec.decodeMany = codec'.decodeMany := by
  funext n
  induction n with
  | zero => rfl
  | succ n ih =>
    funext done bytes
    simp only [Codec.decodeMany, h, ih]

/-! ### Records and packets -/

theorem Position.codec_steady : Position.codec.Steady := (fixedWidth_steady 8).iso _ _

theorem BlockChange.codec_steady : BlockChange.codec.Steady :=
  (Position.codec_steady.pair (varint_steady.pair varint_steady)).iso _ _

theorem Location.codec_steady : Location.codec.Steady :=
  (u64_steady.pair (u64_steady.pair (u64_steady.pair (u32_steady.pair u32_steady)))).iso _ _

theorem Uuid.codec_steady : Uuid.codec.Steady := (u64_steady.pair u64_steady).iso _ _

theorem JoinSettings.codec_steady : JoinSettings.codec.Steady :=
  (i32_steady.pair (bool_steady.pair (varint_steady.pair (varint_steady.pair
    byteRun_steady)))).iso _ _

theorem Dimension.codec_steady : Dimension.codec.Steady :=
  (text_steady.pair (i64_steady.pair (u8_steady.pair (bool_steady.pair i32_steady)))).iso _ _

theorem WorldInfo.codec_steady : WorldInfo.codec.Steady :=
  (JoinSettings.codec_steady.pair Dimension.codec_steady).iso _ _

theorem WorldHeader.codec_steady : WorldHeader.codec.Steady := by
  have hhandle : Stored.handle.Steady := fixedWidth_steady 8
  exact (WorldInfo.codec_steady.pair (hhandle.pair (hhandle.pair (hhandle.pair
    (hhandle.pair hhandle))))).iso _ _

/-- Packets are read from their front and do not mind what follows. -/
theorem Packet.codec_steady : Packet.codec.Steady := by
  refine .oneOf varint_steady ?_
  -- one law for each variant, in the order of the tags
  simp only [variants, List.forall_mem_cons]
  exact ⟨JoinSettings.codec_steady.pair Dimension.codec_steady,
    Dimension.codec_steady,
    Location.codec_steady.pair varint_steady,
    varint_steady.pair (Uuid.codec_steady.pair (varint_steady.pair Location.codec_steady)),
    varint_steady.pair (Location.codec_steady.pair bool_steady),
    listOf_steady varint_steady,
    i32_steady.pair (i32_steady.pair byteRun_steady),
    i32_steady.pair i32_steady,
    Position.codec_steady.pair varint_steady,
    u8_steady.pair u32_steady,
    i64_steady.pair i64_steady,
    varint_steady.pair varint_steady,
    varint_steady,
    u8_steady.pair bool_steady,
    varint_steady.pair byteRun_steady,
    fun _ h => absurd h List.not_mem_nil⟩

theorem Stored.packets_steady (compression : Option Compression) :
    (Stored.packets compression).Steady :=
  (listOf_steady (framed_steady compression Packet.codec)).mapError _

/-- How packets are read does not depend on the compression. -/
theorem Stored.decode_packets (compression compression' : Option Compression) :
    (Stored.packets compression).decode = (Stored.packets compression').decode := by
  have hframed :
      (framed compression Packet.codec).decode = (framed compression' Packet.codec).decode :=
    rfl
  simp only [Stored.packets, Codec.mapError, listOf, Codec.list, Codec.decodeMany_congr hframed]

/-- So are the keys of things. -/
theorem ThingKey.codec_steady : ThingKey.codec.Steady := by
  refine Steady.bind (u8_steady.mapError Failure.wire) fun number => ?_
  refine Steady.check (ThingKind.ofNumber number) fun kind => ?_
  cases kind with
  | entity => exact Steady.bind (i32_steady.mapError Failure.wire) fun id => .pure (entity id)
  | chunk =>
    exact Steady.bind ((i32_steady.pair i32_steady).mapError Failure.wire) fun place =>
      .pure (chunk place.1 place.2)
  | weather => exact .pure weather

namespace ThingRecord

/-- So are records. -/
theorem codec_steady (compression : Option Compression) : (codec compression).Steady := by
  have hhandle : Stored.handle.Steady := fixedWidth_steady 8
  have hbody : (bodyCodec compression).Steady :=
    ThingKey.codec_steady.pair ((Stored.packets_steady compression).pair
      ((Stored.packets_steady compression).pair (hhandle.mapError _)))
  refine Steady.bind ((varlong_steady.pair varlong_steady).mapError Failure.wire) ?_
  rintro ⟨spawn, despawn⟩
  refine .ite (.error _) (Steady.bind hbody ?_)
  rintro ⟨key, spawnPackets, despawnPackets, inner⟩
  exact .pure _

/-- How a record is read does not depend on the compression. -/
theorem decode_codec (compression compression' : Option Compression) :
    (codec compression).decode = (codec compression').decode := by
  simp only [codec, bodyCodec, Codec.pair, Stored.decode_packets compression compression']

end ThingRecord

/-! ### Values -/

/-- All types of values that have a stored form: those of the timelines of an index, worlds as they
are read, and the keys and records of things. -/
inductive StoredKind where
  | value (kind : ValueKind)
  | world
  | key
  | record
  deriving DecidableEq, Repr

namespace StoredKind

/-- The values of a kind. -/
def Value : StoredKind → Type
  | value kind => kind.Value
  | world => World
  | key => ThingKey
  | record => ThingRecord

/-- The form in which they are stored. -/
def codec (compression : Option Compression) : (kind : StoredKind) → Codec Failure kind.Value
  | value kind => kind.codec compression
  | world => World.codec
  | key => ThingKey.codec
  | record => ThingRecord.codec compression

/-- Stored values of every kind are read from their front and do not mind what follows. -/
theorem codec_steady (kind : StoredKind) (compression : Option Compression) :
    (kind.codec compression).Steady := by
  have hheader : (WorldHeader.codec.mapError Failure.wire).Steady :=
    WorldHeader.codec_steady.mapError _
  match kind with
  | value .level => exact u32_steady.mapError _
  | value .location => exact Location.codec_steady.mapError _
  | value .changes => exact (listOf_steady BlockChange.codec_steady).mapError _
  | value .packet => exact (framed_steady compression Packet.codec).mapError _
  | value .packets => exact Stored.packets_steady compression
  | value .header => exact hheader
  | world => exact hheader.iso World.ofHeader World.header
  | key => exact ThingKey.codec_steady
  | record => exact ThingRecord.codec_steady compression

/-- Stored values of every kind are read to their end. -/
theorem codec_readsToEnd (kind : StoredKind) (compression : Option Compression) :
    (kind.codec compression).ReadsToEnd := by
  cases kind with
  | value kind =>
    obtain ⟨back, hback, -⟩ := kind.codec_readsBack compression
    exact hback.readsToEnd
  | world =>
    exact ((WorldHeader.codec_readsBack.mapError Failure.wire).iso World.ofHeader
      World.header).readsToEnd
  | key => exact ThingKey.codec_exact.readsToEnd
  | record => exact (ThingRecord.codec_readsBack compression).readsToEnd

/-- How a value is read does not depend on the compression. -/
theorem decode_codec (kind : StoredKind) (compression compression' : Option Compression) :
    (kind.codec compression).decode = (kind.codec compression').decode := by
  cases kind with
  | value kind =>
    cases kind with
    | packets => exact Stored.decode_packets compression compression'
    | level | location | changes | packet | header => rfl
  | record => exact ThingRecord.decode_codec compression compression'
  | world | key => rfl

end StoredKind

/-! ### Timelines -/

namespace Timeline

variable {V : Type} {value value' : Codec Failure V}

/-- Entries are listed in the same way with more behind them. -/
theorem Listed.append (hvalue : value.Steady) {bytes rest : Bytes} {stored : List (Int64 × V)}
    (h : Listed value bytes stored rest) (more : Bytes) :
    Listed value (bytes ++ more) stored (rest ++ more) := by
  induction h with
  | nil => exact .nil _
  | cons key val _ ih =>
    exact .cons (varlong_steady _ _ _ key more) (hvalue _ _ _ val more) ih

/-- So is a timeline, if its values are. -/
theorem codec_steady (hvalue : value.Steady) : (Timeline.codec value).Steady := by
  intro bytes line rest hread more
  obtain ⟨stored, ⟨⟨entries, hcount, hlisted⟩, hrep, hinc⟩, hentries⟩ := decode_eq_ok_iff.1 hread
  exact decode_eq_ok_iff.2 ⟨stored, ⟨⟨entries ++ more, length_steady _ _ _ hcount more,
    hlisted.append hvalue more⟩, hrep, hinc⟩, hentries⟩

/-- **Written entries end where as many entries are read.** The keys need not fit the clock: a
distance that is too great is written as another one, and that is what is listed then. -/
theorem Listed.rest_eq (hv : value.ReadsToEnd)
    {entries : List (Time × V)} {previous : Time} {bytes : Bytes}
    (henc : encodeEntries value previous entries = .ok bytes) {stored : List (Int64 × V)}
    {rest rest' : Bytes} (h : Listed value (bytes ++ rest) stored rest')
    (hlength : stored.length = entries.length) : rest' = rest := by
  induction entries generalizing previous bytes stored with
  | nil =>
    obtain rfl : ([] : Bytes) = bytes := by simpa [encodeEntries] using henc
    obtain rfl := List.eq_nil_of_length_eq_zero hlength
    cases h
    rfl
  | cons e entries ih =>
    obtain ⟨t, v⟩ := e
    obtain ⟨key, front, tail, hkey, hfront, htail, rfl⟩ := exists_of_encodeEntries henc
    rw [List.append_assoc, List.append_assoc] at h
    cases h with
    | nil => exact absurd hlength (by simp)
    | cons key' val others =>
      rw [varlong_exact.some_eq hkey rfl] at key'
      obtain ⟨-, rfl⟩ := Prod.mk.inj (Except.ok.inj key')
      obtain rfl := hv v front hfront _ _ _ val
      exact ih htail others (Nat.succ.inj hlength)

/-- A timeline is read to its end, if its values are. -/
theorem codec_readsToEnd (hv : value.ReadsToEnd) : (Timeline.codec value).ReadsToEnd := by
  intro line bytes hbytes rest line' rest' hread
  obtain ⟨count, entries, hcount, hentries, rfl⟩ := exists_of_encode hbytes
  obtain ⟨stored, ⟨⟨read, hread, hlisted⟩, -, -⟩, -⟩ := decode_eq_ok_iff.1 hread
  rw [List.append_assoc, length_exact.some_eq hcount rfl] at hread
  obtain ⟨hlength, rfl⟩ := Prod.mk.inj (Except.ok.inj hread)
  exact hlisted.rest_eq hv hentries hlength.symm

/-- A timeline is read as its values are. -/
theorem decode_codec_congr (h : value.decode = value'.decode) :
    (Timeline.codec value).decode = (Timeline.codec value').decode := by
  have hentries : ∀ count isFirst previous line bytes,
      decodeEntries value count isFirst previous line bytes =
        decodeEntries value' count isFirst previous line bytes := by
    intro count
    induction count with
    | zero => exact fun _ _ _ _ => rfl
    | succ count ih =>
      intro isFirst previous line bytes
      simp only [decodeEntries, h, ih]
  simp only [codec, hentries]

/-- A timeline takes up some bytes, if only to say that it is empty. -/
theorem length_pos_of_encode {line : Timeline V} {bytes : Bytes}
    (h : (Timeline.codec value).encode line = .ok bytes) : 0 < bytes.length := by
  obtain ⟨count, entries, hcount, -, rfl⟩ := exists_of_encode h
  rw [List.length_append]
  exact Nat.add_pos_left (length_pos_of_encode_length hcount) _

/-- **A timeline whose end is missing is refused**, however its packets are compressed. -/
theorem refusesCut (kind : StoredKind) (compression compression' : Option Compression)
    {line : Timeline kind.Value} {bytes front : Bytes}
    (h : (Timeline.codec (kind.codec compression)).encode line = .ok bytes)
    (hfront : front <+: bytes) (hne : front ≠ bytes) :
    ∃ e, (Timeline.codec (kind.codec compression')).decode front = .error e := by
  rw [decode_codec_congr (kind.decode_codec compression' compression)]
  exact (codec_steady (kind.codec_steady compression)).refusesCut
    (codec_readsToEnd (kind.codec_readsToEnd compression)) line bytes h front hfront hne

end Timeline

/-! ### Logs that were cut -/

namespace Log

/-- Of a region in a log that was cut before the end of the region, some front part is left. -/
theorem drop_take_region {before region : Bytes} (later : Bytes) {kept : Nat}
    (h : kept < before.length + region.length) :
    ((before ++ region ++ later).take kept).drop before.length =
      region.take (kept - before.length) := by
  rw [List.drop_take, List.append_assoc, List.drop_left,
    List.take_append_of_le_length (by omega)]

/-- **What was written is not read from a log that was cut**, inside the region or before it,
whether or not the log has been told that bytes are missing. -/
theorem load_cut {V : Type} {value : Codec Failure V} {log cut : Log} (hlog : log.Faithful)
    {region : Bytes} (hregion : 0 < region.length) (more : List Bytes) {kept : Nat}
    (hkept : kept < (log.commit region).2.length)
    (hcontents : cut.contents = ((log.commit region).2.commitAll more).contents.take kept)
    (hrefuses : ∀ front, front <+: region → front ≠ region →
      ∃ e, (Timeline.codec value).decode front = .error e) (loaded : Option (Timeline V)) :
    ∃ failure, (Track.mk (log.commit region).1 loaded).load value cut =
      .fail ⟨(log.commit region).1, loaded⟩ failure := by
  have hgrow := growsTo_commit hlog region
  obtain ⟨later, hlater⟩ := (growsTo_commitAll hgrow.faithful more).contents
  rw [hlater, contents_commit log hlog] at hcontents
  rw [length_commit, ← hlog] at hkept
  rw [handle_commit, ← hlog]
  by_cases hhandle : cut.length < log.contents.length
  · exact ⟨_, Track.load_of_error (by simp only [Track.stored, since, if_pos hhandle]; rfl)⟩
  · have hshort : region.take (kept - log.contents.length) ≠ region := by
      intro heq
      have hlength := congrArg List.length heq
      rw [List.length_take] at hlength
      omega
    obtain ⟨e, he⟩ := hrefuses _ (List.take_prefix _ _) hshort
    refine ⟨e, Track.load_of_error ?_⟩
    simp only [Track.stored, since, if_neg hhandle, hcontents, drop_take_region later hkept,
      Codec.mapError_ok, bind, Except.bind, he]

end Log

/-- **Truncation is always noticed.** A proper front part of a packet or of a frame is never read.
And if a timeline has been built, with values of any type and any compression, and the log is
later cut inside its region or before it, whatever was written behind it in the meantime, then a
track at its handle does not load and stays as it was. -/
theorem truncated_refused :
    (∀ (p : Packet) (bytes : Bytes), Packet.codec.encode p = .ok bytes →
      ∀ front, front <+: bytes → front ≠ bytes →
        ∃ fault, Packet.codec.decode front = .error fault) ∧
    (∀ (compression : Option Compression) (payload frame : Bytes),
      Frame.encode compression payload = .ok frame → ∀ front, front <+: frame → front ≠ frame →
        ∃ fault, Frame.decode front = .error fault) ∧
    (∀ (kind : StoredKind) (compression compression' : Option Compression) (log log' : Log)
      (line : Timeline kind.Value) (handle : Handle), log.Faithful →
      (line.build (kind.codec compression) log).2 = .ok (handle, log') →
      ∀ (more : List Bytes) (kept : Nat), kept < log'.length → ∀ cut : Log,
        cut.contents = (log'.commitAll more).contents.take kept → ∀ loaded,
          ∃ failure, (Track.mk handle loaded).load (kind.codec compression') cut =
            .fail ⟨handle, loaded⟩ failure) := by
  refine ⟨?packets, ?frames, ?timelines⟩
  case packets =>
    exact Packet.codec_steady.refusesCut Packet.codec_readsBack.readsToEnd
  case frames =>
    intro compression
    exact (Frame.codec_steady compression).refusesCut (Frame.codec_exact compression).readsToEnd
  case timelines =>
    intro kind compression compression' log log' line handle hlog hbuilt more kept hkept cut
      hcontents loaded
    obtain ⟨region, hregion, hbuilt⟩ := Codec.ok_of_bind hbuilt
    obtain ⟨rfl, rfl⟩ : (log.commit region).1 = handle ∧ (log.commit region).2 = log' := by
      simpa [pure, Except.pure, Prod.ext_iff] using hbuilt
    exact Log.load_cut hlog (Timeline.length_pos_of_encode hregion) more hkept hcontents
      (fun front => Timeline.refusesCut kind compression compression' hregion) loaded

/-- A packet and a frame without their last byte, and the corrections of `Log.untidyPuts` in a log
that goes on behind them and is then cut before their end. -/
theorem truncated_refused_untidy :
    (∃ fault, Packet.codec.decode [13, 2] = .error fault) ∧
    (∃ fault, Frame.decode [4, 5] = .error fault) ∧
    ∃ handle log', (Timeline.build (.ofList Log.untidyPuts)
        (ValueKind.packets.codec Log.usual.compression) Log.usual).2 = .ok (handle, log') ∧
      ∀ kept < log'.length, ∃ failure, (Track.atHandle handle).load (ValueKind.packets.codec none)
        (.ofBytes none ((log'.commitAll [[1, 2], [3]]).contents.take kept)) =
          .fail (.atHandle handle) failure := by
  obtain ⟨hpackets, hframes, htimelines⟩ := truncated_refused
  refine ⟨?packet, ?frame, ?timeline⟩
  case packet =>
    exact hpackets (.changeDifficulty 2 true) [13, 2, 1] (by decide +kernel) [13, 2] ⟨[1], rfl⟩
      (by decide)
  case frame =>
    exact hframes Log.usual.compression [5, 6] [4, 5, 6] (by decide +kernel) [4, 5] ⟨[6], rfl⟩
      (by decide)
  case timeline =>
    obtain ⟨⟨handle, log'⟩, hbuilt⟩ : ∃ built, (Timeline.build (.ofList Log.untidyPuts)
        (ValueKind.packets.codec Log.usual.compression) Log.usual).2 = .ok built :=
      Codec.exists_of_isOk (by decide +kernel)
    refine ⟨handle, log', hbuilt, fun kept hkept => ?_⟩
    exact htimelines (.value .packets) Log.usual.compression none Log.usual log'
      (.ofList Log.untidyPuts) handle rfl hbuilt [[1, 2], [3]] kept hkept (.ofBytes none _) rfl none

end Playhead
