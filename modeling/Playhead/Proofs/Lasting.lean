import Playhead.Proofs.Indexer.Lasting
import Playhead.Proofs.Locality

/-!
# What lasts is active, but at the end of time

A thing that nothing ends is recorded up to the end of time, and a life does not include the moment
at which it ends. So the thing is active after every seek to a moment from its start on, except for
one: at the end of time itself, which a seeker accepts as a target, nothing is active at all
(`Playhead.Recording.active_of_lasting`). A seek to there empties the world, although nothing was
recorded after the things in it appeared (`Playhead.Recording.nothing_active_at_last`).
-/

namespace Playhead

open Wire (Codec)

/-! ### The active things -/

/-- **The active things at a moment** are those that live then. -/
theorem Roster.mem_active_castAt {roster : Roster} {handle : Handle} {t : Time} {thing : Thing} :
    thing ∈ (roster.castAt handle (some t)).active ↔
      ∃ p ∈ roster, p.2.AliveAt t ∧ thing = (member p true).thing := by
  simp only [Cast.active, castAt, cast, Option.any_some, List.mem_map, List.mem_filter,
    List.mem_mapIdx]
  constructor
  · rintro ⟨m, ⟨⟨i, hi, rfl⟩, hactive⟩, rfl⟩
    rw [active_member] at hactive
    obtain ⟨p, hp, halive⟩ := alive_iff.1 hactive
    obtain rfl := Option.some.inj ((List.getElem?_eq_getElem hi).symm.trans hp)
    exact ⟨_, List.getElem_mem hi, halive, by rw [hactive]⟩
  · rintro ⟨p, hp, halive, rfl⟩
    obtain ⟨i, hi, rfl⟩ := List.getElem_of_mem hp
    have hon : roster.alive t i = true := alive_iff.2 ⟨_, List.getElem?_eq_getElem hi, halive⟩
    exact ⟨_, ⟨⟨i, hi, rfl⟩, by rw [active_member]; exact hon⟩, by rw [hon]⟩

namespace Volume

variable {volume : Volume} {log : Log} {root : Handle} {key t : Time} {chapter : Chapter}
  {seeker : Seeker}

/-- The world of a moment is the active one of the seeker there. -/
theorem activeWorld_seekerAt (h : volume.chapters.floor? t = some (key, chapter)) :
    (volume.seekerAt (some t)).replay.worlds.activeWorld =
      .ok (some (chapter.worldAt (some t))) := by
  have hactive : (volume.sequenceAt (some t)).active = some key := keyAt_some h
  have hstate : volume.stateAt (some t) key = some (some t) := by
    rw [stateAt, keyAt_some h, if_pos rfl]
  have hget : (volume.chapters.map fun key chapter =>
      chapter.world (volume.stateAt (some t) key)).get? key = some (chapter.worldAt (some t)) := by
    rw [SortedMap.get?_map, get?_of_floor? h, Option.map_some, hstate]
    rfl
  show (volume.sequenceAt (some t)).activeWorld = _
  simp only [WorldSequence.activeWorld, hactive]
  exact congrArg Except.ok hget

/-- **After a seek the world of the target is active**, with the things that live there. -/
theorem seek_active (hstored : volume.StoredIn log root) (hreached : Seeker.Reached log root seeker)
    (ht : 0 ≤ t) (hfloor : volume.chapters.floor? t = some (key, chapter)) :
    (seeker.seek log t).failure = none ∧
      (seeker.seek log t).state.replay.worlds.activeWorld =
        .ok (some (chapter.worldAt (some t))) := by
  obtain ⟨moment, rfl⟩ := hreached.exists_moment hstored
  refine ⟨?_, ?_⟩
  · by_cases hself : moment = some t
    · subst hself
      rw [seek_self t ht]
      rfl
    · obtain ⟨packets, hseek, -⟩ := seek_seekerAt hstored ht hself
      rw [hseek]
      rfl
  · rw [Seeker.state_seek hstored moment ht]
    exact activeWorld_seekerAt hfloor

end Volume

/-! ### What lasts in a volume -/

/-- A chapter at whose end a thing is still there: there is a record of it up to the end of time,
and no record goes further. -/
structure Chapter.Lasts (chapter : Chapter) (key : ThingKey) (spawn : Time) : Prop where
  recorded : ∃ p ∈ chapter.roster, p.2.spawn = spawn ∧ p.2.despawn = Time.last ∧
    p.1.key = key ∧ p.1.spawn = spawn ∧ p.1.despawn = Time.last
  ends : ∀ p ∈ chapter.roster, p.2.despawn ≤ Time.last

namespace Chapter.Lasts

variable {chapter : Chapter} {key : ThingKey} {spawn t : Time}

/-- What lasts is active before the end of time. -/
theorem exists_active (h : chapter.Lasts key spawn) (hspawn : spawn ≤ t) (ht : t < Time.last) :
    ∃ thing ∈ (chapter.worldAt (some t)).things.active, thing.record.key = key ∧
      thing.record.spawn = spawn ∧ thing.record.despawn = Time.last := by
  obtain ⟨p, hp, hbegins, hends, hrecord⟩ := h.recorded
  have halive : p.2.AliveAt t := ⟨hbegins ▸ hspawn, hends ▸ ht⟩
  refine ⟨_, Roster.mem_active_castAt.2 ⟨p, hp, halive, rfl⟩, ?_⟩
  rwa [Roster.record_member]

/-- At the end of time nothing is active: no life includes its end. -/
theorem active_eq_nil (h : chapter.Lasts key spawn) :
    (chapter.worldAt (some Time.last)).things.active = [] := by
  refine List.eq_nil_iff_forall_not_mem.2 fun thing hthing => ?_
  obtain ⟨p, hp, halive, -⟩ := Roster.mem_active_castAt.1 hthing
  exact absurd halive.2 (Int.not_lt.2 (h.ends p hp))

end Chapter.Lasts

/-- What was on the stage at the end of time lasts in the chapter of it. -/
theorem Chapter.Records.lasts {chapter : Chapter} {stage : Stage} (h : chapter.Records stage)
    {log : Log} (hstored : chapter.StoredIn log) {life : Life}
    (hended : life.endedAt Time.last ∈ stage.past)
    (hends : ∀ old ∈ stage.past, old.despawn ≤ Time.last) :
    chapter.Lasts life.role.key life.spawn := by
  refine ⟨?_, fun p hp => ?_⟩
  · obtain ⟨p, hp, hlife⟩ := h.exists_mem hended
    have hkept := hstored.kept p hp
    rw [hlife] at hkept
    obtain ⟨hspawn, hdespawn, hkey⟩ := hkept.tells
    exact ⟨p, hp, by rw [hlife]; rfl, by rw [hlife]; rfl, hkey, hspawn, hdespawn⟩
  · obtain ⟨old, hold, hlife⟩ := h.exists_past (List.mem_map_of_mem hp)
    rw [hlife]
    exact hends old hold

namespace Recording

variable {recording front back : Recording} {log log' : Log} {root : Handle} {seeker : Seeker}
  {key : ThingKey} {spawn t : Time} {packet : Packet}

/-- **What lasts is recorded to the end of time** in the last chapter of the index. -/
theorem exists_lasts (hlog : log.Faithful) (htimes : ∀ e ∈ recording, e.1 < Time.last)
    (hindex : recording.index log = .ok (root, log'))
    (hlasting : recording.Lasting (Indexer.Starts log) key spawn packet front back)
    {first : Seeker} (hopen : Seeker.openAt log' root = .ok first) :
    ∃ (volume : Volume) (start : Time) (chapter : Chapter), volume.StoredIn log' root ∧
      chapter.Lasts key spawn ∧ 0 ≤ spawn ∧
        ∀ t, spawn ≤ t → volume.chapters.floor? t = some (start, chapter) := by
  have htimes' : ∀ e ∈ recording, e.1 ≤ Time.last := fun e he => Int.le_of_lt (htimes e he)
  obtain ⟨now, ledger, closed, volume, hnow, hafter, hcloses, hrecords, hstored, hnames⟩ :=
    exists_records hlog htimes' hindex
  obtain ⟨ix, hpush, -⟩ := index_eq_ok hindex
  have hbefore : spawn < Time.last :=
    htimes (spawn, packet) (hlasting.split ▸ List.mem_append_right _ (.head _))
  -- what lasts is on the last stage, which is closed at the end of time
  obtain ⟨stage, life, hstage, hlife, rfl⟩ :=
    hafter.present_of_lasting (hlasting.on_stage hlog htimes' hpush)
  have horder := hafter.orderly.mono hnow
  obtain ⟨last, hget, hended, hends, hmax⟩ :=
    hcloses.exists_last horder hstage hlife hbefore
  obtain ⟨hkey, -, hwithin⟩ := (horder.current stage hstage).1.present key life hlife
  have hstart := (hafter.shaped.current stage hstage).present key life hlife |>.1
  have hrel := hrecords.chapters stage.start
  rw [hget] at hrel
  generalize hchapter : volume.chapters.get? stage.start = found at hrel
  cases hrel with
  | @some chapter _ hrecord =>
    have hmem := SortedMap.get?_eq_some_iff.1 hchapter
    have hvolume := hstored (hnames first hopen)
    have hlasts := hrecord.lasts (hvolume.chapters _ hmem) hended hends
    refine ⟨volume, stage.start, chapter, hvolume, hkey ▸ hlasts, hwithin.nonneg, fun t ht => ?_⟩
    refine Timeline.floor?_eq_some_iff.2 ⟨hmem, Int.le_trans hstart ht, fun e he _ => ?_⟩
    obtain ⟨_, hclosed, -⟩ := hrecords.of_mem he
    exact hmax _ hclosed

/-- **What lasts is active after every seek, but for one to the end of time.** Take a recording
before the end of time, an entity, a chunk or rain that lasts in it, and a seeker on its index,
wherever it has been. A seek to a moment from the start of the thing on succeeds and leads to the
world of the thing. If the moment is before the end of time, the thing is active then, on record to
the end of time. At the end of time nothing is active. -/
theorem active_of_lasting (hlog : log.Faithful) (htimes : ∀ e ∈ recording, e.1 < Time.last)
    (hindex : recording.index log = .ok (root, log'))
    (hlasting : recording.Lasting (Indexer.Starts log) key spawn packet front back)
    (hreached : Seeker.Reached log' root seeker) (hspawn : spawn ≤ t) (hlast : t ≤ Time.last) :
    (seeker.seek log' t).failure = none ∧
      ∃ world, (seeker.seek log' t).state.replay.worlds.activeWorld = .ok (some world) ∧
        (t < Time.last → ∃ thing ∈ world.things.active, thing.record.key = key ∧
          thing.record.spawn = spawn ∧ thing.record.despawn = Time.last) ∧
        (t = Time.last → world.things.active = []) := by
  obtain ⟨first, hopen⟩ := hreached.exists_opened
  obtain ⟨volume, start, chapter, hstored, hlasts, hnonneg, hfloor⟩ :=
    exists_lasts hlog htimes hindex hlasting hopen
  obtain ⟨hsucceeds, hworld⟩ :=
    Volume.seek_active hstored hreached (Int.le_trans hnonneg hspawn) (hfloor t hspawn)
  refine ⟨hsucceeds, _, hworld, fun ht => hlasts.exists_active hspawn ht, ?_⟩
  rintro rfl
  exact hlasts.active_eq_nil

/-- A seeker that has been at the end of time, where nothing is active: back at 9 the chunk is, and
at the end of time again it is not. -/
theorem active_of_lasting_walk : ∃ root log' seeker world world',
    walk.index (.inMemory none) = .ok (root, log') ∧ Seeker.Reached log' root seeker ∧
      (seeker.seek log' 9).state.replay.worlds.activeWorld = .ok (some world) ∧
      (∃ thing ∈ world.things.active, thing.record.key = .chunk 0 0 ∧ thing.record.spawn = 6 ∧
        thing.record.despawn = Time.last) ∧
      (seeker.seek log' Time.last).state.replay.worlds.activeWorld = .ok (some world') ∧
      world'.things.active = [] := by
  have hlog : (Log.inMemory none).Faithful := rfl
  have htimes : ∀ e ∈ walk, e.1 < Time.last := by decide +kernel
  obtain ⟨root, log', first, hindex, hopen⟩ :=
    Seeker.exists_openAt (x := walk.index (.inMemory none)) (by decide +kernel)
  have hreached := (Seeker.Reached.opened hopen).sought Time.last
  have hlasting : walk.Lasting (Indexer.Starts (.inMemory none)) (.chunk 0 0) 6
      (.chunkData 0 0 [0, 0, 0, 0, 0, 0]) (walk.take 3) (walk.drop 4) :=
    .of_silent rfl (Indexer.starts_of_any (by decide +kernel) (by decide +kernel) rfl)
      (List.forall_mem_singleton.2 ⟨id, id, by decide⟩)
  obtain ⟨-, world, hworld, hactive, -⟩ := active_of_lasting hlog htimes hindex hlasting hreached
    (by decide : (6 : Time) ≤ 9) (by decide)
  obtain ⟨-, world', hworld', -, hnothing⟩ := active_of_lasting hlog htimes hindex hlasting hreached
    (by decide : (6 : Time) ≤ Time.last) (Int.le_refl _)
  exact ⟨root, log', _, world, world', hindex, hreached, hworld, hactive (by decide), hworld',
    hnothing rfl⟩

/-- A client joins, and an entity appears. Nothing else is recorded. -/
def arrival : Recording :=
  [(0, .joinGame ⟨1, false, 0, 8, []⟩ ⟨"overworld", 0, 0, false, 0⟩),
    (5, .spawnEntity 7 (.ofNat 0) 3 ⟨0, 0, 0, 0, 0⟩)]

/-- So an entity goes that nothing ever took away: a seek to the end of time succeeds, and nothing
is active after it. -/
theorem nothing_active_at_last : ∃ root log' seeker world,
    arrival.index (.inMemory none) = .ok (root, log') ∧ Seeker.openAt log' root = .ok seeker ∧
      (∀ e ∈ arrival, e.1 < Time.last) ∧
      arrival.Lasting (Indexer.Starts (.inMemory none)) (.entity 7) 5
        (.spawnEntity 7 (.ofNat 0) 3 ⟨0, 0, 0, 0, 0⟩) (arrival.take 1) [] ∧
      5 ≤ Time.last ∧ (seeker.seek log' Time.last).failure = none ∧
      (seeker.seek log' Time.last).state.current = some Time.last ∧
      (seeker.seek log' Time.last).state.replay.worlds.activeWorld = .ok (some world) ∧
      world.things.active = [] := by
  have hlog : (Log.inMemory none).Faithful := rfl
  have htimes : ∀ e ∈ arrival, e.1 < Time.last := by decide +kernel
  obtain ⟨root, log', first, hindex, hopen⟩ :=
    Seeker.exists_openAt (x := arrival.index (.inMemory none)) (by decide +kernel)
  have hlasting : arrival.Lasting (Indexer.Starts (.inMemory none)) (.entity 7) 5
      (.spawnEntity 7 (.ofNat 0) 3 ⟨0, 0, 0, 0, 0⟩) (arrival.take 1) [] :=
    .of_silent rfl (Indexer.starts_of_any (by decide +kernel) (by decide +kernel) rfl)
      (List.forall_mem_nil _)
  obtain ⟨volume, start, chapter, hstored, hlasts, -, hfloor⟩ :=
    exists_lasts hlog htimes hindex hlasting hopen
  obtain rfl := Except.ok.inj (hopen.symm.trans (Volume.openAt_eq hstored))
  obtain ⟨hsucceeds, hworld⟩ := Volume.seek_active hstored (.opened hopen)
    (by decide : (0 : Time) ≤ Time.last) (hfloor Time.last (by decide))
  refine ⟨root, log', _, _, hindex, hopen, htimes, hlasting, by decide, hsucceeds, ?_, hworld,
    hlasts.active_eq_nil⟩
  exact congrArg Seeker.current (Seeker.state_seek hstored none (by decide : (0 : Time) ≤ _))

end Recording

end Playhead
