import Playhead.Proofs.Thing.Cast
import Playhead.Proofs.Thing.Record

/-!
# Lives that a log keeps

The track of a thing is written when the thing goes, and what is read back of it is the life as it
is **stored** (`Playhead.Life.stored`): block changes whose positions do not fit the wire come back
at other positions. A log keeps a life (`Playhead.Life.KeptBy`) when it holds the stored track under
the handle of a record of that life, and it goes on keeping it when it grows. A kept life is told by
its record (`Playhead.Life.KeptBy.toldBy`). As long as positions can be packed, a life that makes
sense is stored as it is (`Playhead.Life.stored_eq`).
-/

namespace Playhead

namespace Role

/-- The role as it is read back. -/
def stored : Role → Role
  | chunk x z data line => chunk x z data (line.map fun _ cs => cs.map BlockChange.stored)
  | role => role

@[simp] theorem key_stored (role : Role) : role.stored.key = role.key := by
  cases role <;> rfl

@[simp] theorem appearance_stored (role : Role) : role.stored.appearance = role.appearance := by
  cases role <;> rfl

@[simp] theorem disappearance_stored (role : Role) :
    role.stored.disappearance = role.disappearance := by
  cases role <;> rfl

theorem times_stored (role : Role) : role.stored.times = role.times := by
  cases role with
  | chunk x z data line => simp [stored, times, SortedMap.keys, SortedMap.map]
  | _ => rfl

/-- Whether a log holds the track of a role under a handle. -/
def HeldIn (log : Log) (handle : Handle) : Role → Prop
  | entity _ _ _ _ line => log.Holds (Timeline.codec Stored.location) handle line
  | chunk _ _ _ line => log.Holds (Timeline.codec Stored.changes) handle line
  | weather line => log.Holds (Timeline.codec Stored.level) handle line

variable {log log' : Log} {handle : Handle} {role : Role}

/-- What is held stays held when the log grows. -/
theorem HeldIn.grow (h : role.HeldIn log handle) (hlog : log.Faithful)
    (hgrow : log.GrowsTo log') : role.HeldIn log' handle := by
  cases role with
  | entity id uuid kind place line => exact Log.Holds.grow h hlog hgrow
  | chunk x z data line => exact Log.Holds.grow h hlog hgrow
  | weather line => exact Log.Holds.grow h hlog hgrow

/-- What is held can be loaded. -/
theorem HeldIn.load (h : role.HeldIn log handle) :
    (ThingTrack.ofKey handle role.key).load log = .done (role.track handle) := by
  cases role with
  | entity id uuid kind place line =>
    exact congrArg (Outcome.map · (ThingTrack.entity id)) (Log.Holds.load_track h none)
  | chunk x z data line =>
    exact congrArg (Outcome.map · ThingTrack.chunk) (Log.Holds.load_track h none)
  | weather line =>
    exact congrArg (Outcome.map · ThingTrack.weather) (Log.Holds.load_track h none)

/-- Whether writing the track of a role to a log gives a handle and the longer log. -/
def WrittenTo (log : Log) (handle : Handle) (log' : Log) : Role → Prop
  | entity _ _ _ _ line => log.commitTimeline Stored.location line = .ok (handle, log')
  | chunk _ _ _ line => log.commitTimeline Stored.changes line = .ok (handle, log')
  | weather line => log.commitTimeline Stored.level line = .ok (handle, log')

/-- **A track that has been written is held as it is stored.** -/
theorem WrittenTo.heldIn (h : role.WrittenTo log handle log') (hlog : log.Faithful)
    (htimes : ∀ t ∈ role.times, 0 ≤ t ∧ t ≤ Time.last) :
    log.GrowsTo log' ∧ role.stored.HeldIn log' handle := by
  have hfit {V : Type} (line : Timeline V)
      (hline : ∀ t ∈ line.keys, 0 ≤ t ∧ t ≤ Time.last) : Timeline.StepsFit 0 line.entries :=
    Timeline.stepsFit_of_nonneg (Int.le_refl 0) (by decide) fun e he =>
      hline e.1 (List.mem_map_of_mem he)
  cases role with
  | entity id uuid kind place line =>
    exact Log.holds_commitTimeline_self hlog h Stored.location_exact (hfit line htimes)
      fun _ _ => rfl
  | chunk x z data line =>
    exact Log.holds_commitTimeline hlog h Stored.changes_readsBack (hfit line htimes)
      fun _ _ => rfl
  | weather line =>
    exact Log.holds_commitTimeline_self hlog h Stored.level_exact (hfit line htimes)
      fun _ _ => rfl

theorem isPlain_appearance (role : Role) : role.appearance.IsPlain := by
  cases role <;> trivial

theorem isPlain_disappearance (role : Role) : role.disappearance.IsPlain := by
  cases role <;> trivial

end Role

namespace Life

/-- The life as it is read back. -/
def stored (life : Life) : Life := { life with role := life.role.stored }

/-- Whether the blocks of a chunk have positions that can be packed. -/
def Packable (minY : Int32) (life : Life) : Prop :=
  match life.role with
  | .chunk x z data _ => ChunkInRange x z ∧
      ∀ column, Column.decode data = .ok column → HeightsInRange minY column.sections.size
  | _ => True

/-- **A life is stored as it is**, if it makes sense and positions can be packed. -/
theorem stored_eq {minY : Int32} {life : Life} (h : life.Consistent minY)
    (hpackable : life.Packable minY) : life.stored = life := by
  obtain ⟨spawn, despawn, role⟩ := life
  cases role with
  | chunk x z data line =>
    obtain ⟨column, hdecode, -, hchained, hchanges⟩ := h
    obtain ⟨hchunk, hheights⟩ := hpackable
    have hline : (line.map fun _ cs => cs.map BlockChange.stored) = line := by
      refine SortedMap.map_eq_self fun e he => ?_
      conv_rhs => rw [← List.map_id e.2]
      refine List.map_congr_left fun c hc => ?_
      obtain ⟨level, i, hlocate⟩ := hchained.locate c (List.mem_flatMap.2 ⟨e, he, hc⟩)
      rw [Column.length_content] at hlocate
      exact BlockChange.stored_of_packable
        (Column.packable_of_locate (hchanges e he c hc).1 hchunk (hheights column hdecode) hlocate)
    rw [stored, Role.stored, hline]
  | entity | weather => rfl

/-- Whether a log keeps a life under a record. -/
structure KeptBy (log : Log) (life : Life) (r : ThingRecord) : Prop where
  spawn : r.spawn = life.spawn
  despawn : r.despawn = life.despawn
  key : r.key = life.role.key
  spawnPackets : r.spawnPackets = [life.role.appearance]
  despawnPackets : r.despawnPackets = [life.role.disappearance]
  held : life.role.HeldIn log r.inner
  storable : r.Storable

variable {log log' : Log} {life : Life} {r : ThingRecord}

theorem KeptBy.grow (h : life.KeptBy log r) (hlog : log.Faithful) (hgrow : log.GrowsTo log') :
    life.KeptBy log' r :=
  { h with held := h.held.grow hlog hgrow }

theorem KeptBy.toldBy (h : life.KeptBy log r) : life.ToldBy log r :=
  { h with load := by rw [h.key]; exact h.held.load }

theorem KeptBy.nonneg (h : life.KeptBy log r) : 0 ≤ life.spawn :=
  h.spawn ▸ h.storable.nonneg

/-- The record of a life whose track is under a handle. -/
def recordAt (life : Life) (inner : Handle) : ThingRecord :=
  ⟨life.spawn, life.despawn, life.role.key, [life.role.appearance], [life.role.disappearance],
    inner⟩

/-- **A life is kept under its record**, as it is stored, if its track is. -/
theorem keptBy_recordAt {inner : Handle} (hheld : life.role.stored.HeldIn log inner)
    (hnonneg : 0 ≤ life.spawn) (hlt : life.spawn < life.despawn)
    (hle : life.despawn ≤ Time.last) : life.stored.KeptBy log (life.recordAt inner) where
  spawn := rfl
  despawn := rfl
  key := life.role.key_stored.symm
  spawnPackets := congrArg (fun p => [p]) life.role.appearance_stored.symm
  despawnPackets := congrArg (fun p => [p]) life.role.disappearance_stored.symm
  held := hheld
  storable := by
    refine ⟨hnonneg, hlt, hle, fun p hp => ?_, fun p hp => ?_⟩
    · rw [List.mem_singleton.1 hp]
      exact life.role.isPlain_appearance
    · rw [List.mem_singleton.1 hp]
      exact life.role.isPlain_disappearance

end Life

end Playhead
