import Playhead.Proofs.Log
import Playhead.Proofs.Packet
import Playhead.Thing.Cast

/-!
# Reading records back

A record is read back as it was written if its lifetime is not empty and fits the clock and its
packets are plain (`Playhead.ThingRecord.Storable`). The times are the part that can go wrong: they
are written as 64-bit numbers, so what is read is the times as those numbers spell them
(`Playhead.ThingRecord.back`), and a lifetime that is empty then is refused.

A cast whose records a log holds loads, with nobody active (`Playhead.Cast.load_of_holds`).
-/

namespace Playhead

open Wire (Codec)

/-! ### One record -/

theorem ThingKind.ofNumber_number (kind : ThingKind) : ofNumber kind.number = .ok kind := by
  cases kind <;> rfl

/-- Keys of things are read back as they are. -/
theorem ThingKey.codec_exact : ThingKey.codec.Exact := by
  intro key bytes h rest
  obtain ⟨front, hfront, h⟩ := Codec.ok_of_bind h
  have hnumber (more : Bytes) : (Wire.u8.decode (front ++ more)).mapError Failure.wire =
      .ok (key.kind.number, more) :=
    (Wire.u8_exact.mapError Failure.wire).some_eq hfront rfl more
  cases key with
  | entity id =>
    obtain ⟨back, hback, h⟩ := Codec.ok_of_bind (show (_ >>= _) = _ from h)
    obtain rfl : front ++ back = bytes := by simpa [pure, Except.pure] using h
    have hid : (Wire.i32.decode (back ++ rest)).mapError Failure.wire = .ok (id, rest) :=
      (Wire.i32_exact.mapError Failure.wire).some_eq hback rfl rest
    simp only [codec, List.append_assoc, hnumber, bind, Except.bind, ThingKind.ofNumber_number,
      kind, hid]
    rfl
  | chunk x z =>
    obtain ⟨back, hback, h⟩ := Codec.ok_of_bind (show (_ >>= _) = _ from h)
    obtain rfl : front ++ back = bytes := by simpa [pure, Except.pure] using h
    have hxz : ((Wire.i32.pair Wire.i32).decode (back ++ rest)).mapError Failure.wire =
        .ok ((x, z), rest) :=
      ((Wire.i32_exact.pair Wire.i32_exact).mapError Failure.wire).some_eq hback rfl rest
    simp only [codec, List.append_assoc, hnumber, bind, Except.bind, ThingKind.ofNumber_number,
      kind, hxz]
    rfl
  | weather =>
    obtain rfl : front ++ [] = bytes := by simpa [pure, Except.pure, bind, Except.bind] using h
    simp only [codec, List.append_assoc, hnumber, bind, Except.bind, ThingKind.ofNumber_number,
      kind]
    rfl

namespace ThingRecord

/-- What is read back of a record. -/
def back (r : ThingRecord) : Option ThingRecord :=
  if Int64.ofInt r.despawn ≤ Int64.ofInt r.spawn then none
  else
    (r.spawnPackets.mapM Packet.back).bind fun spawnPackets =>
      (r.despawnPackets.mapM Packet.back).map fun despawnPackets =>
        ⟨(Int64.ofInt r.spawn).toInt, (Int64.ofInt r.despawn).toInt, r.key, spawnPackets,
          despawnPackets, r.inner⟩

/-- The body of a record is read back if its packets are. -/
theorem bodyCodec_readsBack (compression : Option Compression) :
    (bodyCodec compression).ReadsBack fun v =>
      (v.2.1.mapM Packet.back).bind fun ps => (v.2.2.1.mapM Packet.back).map fun qs =>
        (v.1, ps, qs, v.2.2.2) := by
  have hpackets := Stored.packets_readsBack compression
  have hhandle : (Stored.handle.mapError Failure.wire).ReadsBack some :=
    Stored.handle_exact.mapError _
  refine Codec.ReadsBack.congr (Codec.ReadsBack.pair ThingKey.codec_exact
    (hpackets.pair (hpackets.pair hhandle))) fun v => ?_
  cases v.2.1.mapM Packet.back <;> cases v.2.2.1.mapM Packet.back <;> rfl

/-- **A record is read back if its packets are.** -/
theorem codec_readsBack (compression : Option Compression) :
    (codec compression).ReadsBack back := by
  intro r bytes h rest
  obtain ⟨lifetime, hlifetime, h⟩ := Codec.ok_of_bind h
  obtain ⟨body, hbody, h⟩ := Codec.ok_of_bind h
  obtain rfl : lifetime ++ body = bytes := by simpa [pure, Except.pure] using h
  have htimes : ((Wire.varlong.pair Wire.varlong).decode (lifetime ++ (body ++ rest))).mapError
      Failure.wire = .ok ((Int64.ofInt r.spawn, Int64.ofInt r.despawn), body ++ rest) :=
    ((Wire.varlong_exact.pair Wire.varlong_exact).mapError Failure.wire).some_eq hlifetime rfl _
  have hrest := bodyCodec_readsBack compression _ _ hbody rest
  simp only [codec, List.append_assoc, htimes, bind, Except.bind, back]
  -- a record whose life is empty is refused before its body is looked at
  by_cases hle : Int64.ofInt r.despawn ≤ Int64.ofInt r.spawn
  · rw [if_pos hle, if_pos hle]
    exact ⟨_, rfl⟩
  · rw [if_neg hle, if_neg hle]
    cases hs : r.spawnPackets.mapM Packet.back with
    | none =>
      obtain ⟨e, he⟩ : ∃ e, (bodyCodec compression).decode (body ++ rest) = .error e := by
        simpa [hs] using hrest
      exact ⟨e, by simp only [he]⟩
    | some ps =>
      cases hd : r.despawnPackets.mapM Packet.back with
      | none =>
        obtain ⟨e, he⟩ : ∃ e, (bodyCodec compression).decode (body ++ rest) = .error e := by
          simpa [hs, hd] using hrest
        exact ⟨e, by simp only [he]⟩
      | some qs =>
        have he : (bodyCodec compression).decode (body ++ rest) =
            .ok ((r.key, ps, qs, r.inner), rest) := by
          simpa [hs, hd] using hrest
        simp only [he]
        rfl

/-- Records that are read back as they are. -/
structure Storable (r : ThingRecord) : Prop where
  nonneg : 0 ≤ r.spawn
  lt : r.spawn < r.despawn
  le_last : r.despawn ≤ Time.last
  spawnPackets : ∀ p ∈ r.spawnPackets, p.IsPlain
  despawnPackets : ∀ p ∈ r.despawnPackets, p.IsPlain

/-- A record whose times fit the clock and whose packets are read back is read back. -/
theorem back_eq_some {r : ThingRecord} (hspawn : r.spawn.isRepresentable)
    (hdespawn : r.despawn.isRepresentable) (hlt : r.spawn < r.despawn)
    (hspawns : r.spawnPackets.mapM Packet.back = some r.spawnPackets)
    (hdespawns : r.despawnPackets.mapM Packet.back = some r.despawnPackets) :
    r.back = some r := by
  replace hspawn := Timeline.toInt_ofInt_of_isRepresentable hspawn
  replace hdespawn := Timeline.toInt_ofInt_of_isRepresentable hdespawn
  rw [back, if_neg (by rw [Int64.le_iff_toInt_le, hspawn, hdespawn]; exact Int.not_le.2 hlt),
    hspawns, hdespawns, hspawn, hdespawn]
  rfl

/-- A record that can be stored comes back as it is. -/
theorem Storable.back_eq {r : ThingRecord} (h : r.Storable) : r.back = some r := by
  have hlast : Time.last = 0x7FFFFFFFFFFFFFFF := rfl
  have hlt := h.lt
  have hle := h.le_last
  have hnonneg := h.nonneg
  refine back_eq_some ?_ ?_ hlt (Stored.mapM_back_of_isPlain h.spawnPackets)
    (Stored.mapM_back_of_isPlain h.despawnPackets)
  all_goals
    rw [Time.isRepresentable, Bool.and_eq_true, decide_eq_true_eq, decide_eq_true_eq]
    lia

end ThingRecord

/-! ### All records of a cast -/

namespace Cast

/-- Records that are written under a handle, and would be read back, are held there. -/
theorem holds_commit_of_back {log log' : Log} (hlog : log.Faithful) {records : List ThingRecord}
    {handle : Handle} (h : commit log records = .ok (handle, log'))
    (hrecords : ∀ r ∈ records, r.back = some r) :
    log.GrowsTo log' ∧ log'.Holds (regionCodec log.compression) handle records := by
  obtain ⟨bytes, hbytes, h⟩ := Codec.ok_of_bind h
  obtain ⟨rfl, rfl⟩ : (log.commit bytes).1 = handle ∧ (log.commit bytes).2 = log' := by
    simpa [pure, Except.pure, Prod.ext_iff] using h
  have hregion : (regionCodec log.compression).ReadsBack fun rs => rs.mapM ThingRecord.back :=
    Codec.Exact.listBack (Wire.length_exact.mapError Failure.wire)
      (ThingRecord.codec_readsBack log.compression)
  exact ⟨Log.growsTo_commit hlog bytes, Log.holds_commit hlog fun rest =>
    hregion.some_eq hbytes (Codec.mapM_eq_self hrecords) rest⟩

/-- **Records that are committed are held**, and the log has only grown. -/
theorem holds_commit {log log' : Log} (hlog : log.Faithful) {records : List ThingRecord}
    {handle : Handle} (h : commit log records = .ok (handle, log'))
    (hrecords : ∀ r ∈ records, r.Storable) :
    log.GrowsTo log' ∧ log'.Holds (regionCodec log.compression) handle records :=
  holds_commit_of_back hlog h fun r hr => (hrecords r hr).back_eq

/-- The members that are read are those of the records in a row. -/
theorem readMembers_eq {log : Log} {count : Nat} {read records : List ThingRecord}
    {bytes rest : Bytes}
    (h : (ThingRecord.codec log.compression).decodeMany count read bytes = .ok (records, rest))
    (done : Array Member) :
    ∃ new, records = read.reverse ++ new ∧ readMembers log count done bytes =
      ((done.toList ++ new.map fun r => Member.mk (.ofRecord r) false).toArray, none) := by
  induction count generalizing read bytes done with
  | zero =>
    obtain ⟨rfl, -⟩ := Prod.mk.inj (Except.ok.inj h)
    exact ⟨[], by simp, by simp [readMembers]⟩
  | succ count ih =>
    rw [Codec.decodeMany] at h
    split at h
    · next r left hr =>
      obtain ⟨new, hnew, hmembers⟩ := ih h (done.push ⟨.ofRecord r, false⟩)
      refine ⟨r :: new, by rw [hnew]; simp, ?_⟩
      rw [readMembers, hr]
      simp only [hmembers]
      simp
    · exact absurd h (by simp)

/-- **A cast whose records the log holds loads**, with nobody active. -/
theorem load_of_holds {log : Log} {cast : Cast} {records : List ThingRecord}
    (h : log.Holds (regionCodec log.compression) cast.handle records) :
    cast.load log = .done ⟨cast.handle,
      (records.map fun r => Member.mk (.ofRecord r) false).toArray, none, true⟩ := by
  obtain ⟨hsince, rest, hrest⟩ := h.read
  obtain ⟨⟨count, left⟩, hcount, hmany⟩ := Codec.ok_of_bind hrest
  obtain ⟨new, hnew, hmembers⟩ := readMembers_eq hmany #[]
  have hread : cast.readCount log = .ok (count, left) := by
    simp only [readCount, hsince, Codec.mapError_ok, bind, Except.bind]
    exact hcount
  obtain rfl : records = new := by simpa using hnew
  rw [load, hread]
  simp only [hmembers]
  simp [Outcome.done]

end Cast

end Playhead
