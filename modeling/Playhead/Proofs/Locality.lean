import Playhead.Proofs.Indexer.Causes

/-!
# A seek shows only what was recorded on its way

Wherever a seeker has been, a seek that does not leave the world shows only packets about subjects
of which something was recorded on its way (`Playhead.Recording.concerns_of_mem_seek`). Nothing is
sent twice, nothing goes and comes back for nothing, and a way on which nothing was recorded is
silent. That the client is right in the end does not depend on this, so it is a statement of its own
beside those of seeking.
-/

namespace Playhead

namespace Seeker

/-- The seekers that seeks can lead to, whether these succeed or fail. -/
inductive Reached (log : Log) (root : Handle) : Seeker → Prop
  | opened {seeker : Seeker} (opens : openAt log root = .ok seeker) : Reached log root seeker
  | sought {seeker : Seeker} (before : Reached log root seeker) (target : Time) :
      Reached log root (seeker.seek log target).state

variable {log : Log} {root : Handle} {seeker : Seeker}

/-- A seeker that has been reached was opened. -/
theorem Reached.exists_opened (h : Reached log root seeker) :
    ∃ first, openAt log root = .ok first := by
  induction h with
  | opened hopen => exact ⟨_, hopen⟩
  | sought _ _ ih => exact ih

/-- A seek leads to its target. -/
theorem state_seek {volume : Volume} (hstored : volume.StoredIn log root) (moment : Option Time)
    {target : Time} (htarget : 0 ≤ target) :
    ((volume.seekerAt moment).seek log target).state = volume.seekerAt (some target) := by
  by_cases hself : moment = some target
  · subst hself
    rw [Volume.seek_self target htarget]
    rfl
  · obtain ⟨packets, hseek, -⟩ := Volume.seek_seekerAt hstored htarget hself
    rw [hseek]
    rfl

/-- **Seeks lead only to seekers that show a moment of the volume.** -/
theorem Reached.exists_moment {volume : Volume} (h : Reached log root seeker)
    (hstored : volume.StoredIn log root) : ∃ moment, seeker = volume.seekerAt moment := by
  induction h with
  | opened hopen =>
    exact ⟨none, Except.ok.inj (hopen.symm.trans (Volume.openAt_eq hstored))⟩
  | sought _ target ih =>
    obtain ⟨moment, rfl⟩ := ih
    by_cases hnegative : target < 0
    · exact ⟨moment, by rw [Volume.seek_negative moment hnegative]; rfl⟩
    · exact ⟨some target, state_seek hstored moment (Int.not_lt.1 hnegative)⟩

end Seeker

namespace Volume

variable {volume : Volume} {recording : Recording} {log : Log} {root : Handle} {a b : Time}

/-- What is marked on a way inside a world was recorded there. -/
theorem Explained.exists_recorded (h : volume.Explained recording) (ha : a < Time.last)
    (hb : b < Time.last) (hstays : ∀ e ∈ recording, OnTheWay a b e.1 → ¬ e.2.IsEntrance)
    {τ : Time} {subject : Subject} (hway : OnTheWay a b τ) (hmarks : volume.Marks τ subject) :
    ∃ e ∈ recording, OnTheWay a b e.1 ∧ e.2.Concerns subject := by
  rcases h.marks τ subject hmarks with rfl | ⟨packet, hmem, hentrance | hconcerns⟩
  · obtain ⟨-, hle⟩ := hway
    exact absurd hle (Int.not_le.2 (by lia))
  · exact absurd hentrance (hstays _ hmem hway)
  · exact ⟨_, hmem, hway, hconcerns⟩

/-- **A seek inside a world shows packets about what was recorded on its way.** -/
theorem Explained.isAbout_of_mem_seek (h : volume.Explained recording)
    (hstored : volume.StoredIn log root) (ha : a < Time.last) (hnonneg : 0 ≤ b)
    (hb : b < Time.last) (hstays : ∀ e ∈ recording, OnTheWay a b e.1 → ¬ e.2.IsEntrance)
    {p : Packet} (hp : p ∈ ((volume.seekerAt (some a)).seek log b).emitted) :
    ∃ subject, p.IsAbout subject ∧ ∃ e ∈ recording, OnTheWay a b e.1 ∧ e.2.Concerns subject := by
  by_cases hself : a = b
  · subst hself
    rw [seek_self a hnonneg] at hp
    exact absurd hp List.not_mem_nil
  obtain ⟨packets, hseek, hshows⟩ :=
    seek_seekerAt hstored hnonneg fun hsame => hself (Option.some.inj hsame)
  rw [hseek] at hp
  have hworld : ∀ key ∈ volume.chapters.keys, ¬ OnTheWay a b key := by
    intro key hkey hway
    obtain ⟨packet, hmem, hentrance⟩ := h.begun key hkey
    exact hstays _ hmem hway hentrance
  obtain ⟨subject, habout, τ, hway, hmarks⟩ := marks_of_mem_seek h.sorted hworld hshows hp
  exact ⟨subject, habout, h.exists_recorded ha hb hstays hway hmarks⟩

end Volume

namespace Recording

variable {recording : Recording} {log log' : Log} {root : Handle} {seeker : Seeker} {a b : Time}

/-- **A seek shows only what was recorded on its way.** Whatever seeks have led a seeker to a
moment, if no join and no respawn was recorded between there and the target, then every packet that
is shown is about something, and of everything that it is about a packet was recorded on the way.
Joins, respawns and positions are about nothing, so none is shown; and where nothing was recorded,
nothing is shown. -/
theorem concerns_of_mem_seek (hlog : log.Faithful) (htimes : ∀ e ∈ recording, e.1 ≤ Time.last)
    (hfits : ∀ e ∈ recording, e.2.ChunkFits) (hindex : recording.index log = .ok (root, log'))
    (hreached : Seeker.Reached log' root seeker) (hcurrent : seeker.current = some a)
    (ha : a < Time.last) (hnonneg : 0 ≤ b) (hb : b < Time.last)
    (hstays : ∀ e ∈ recording, OnTheWay a b e.1 → ¬ e.2.IsEntrance) :
    (∀ p ∈ (seeker.seek log' b).emitted, (∃ subject, p.Concerns subject) ∧
      ∀ subject, p.Concerns subject → ∃ e ∈ recording, OnTheWay a b e.1 ∧ e.2.Concerns subject) ∧
    ((∀ e ∈ recording, ¬ OnTheWay a b e.1) → (seeker.seek log' b).emitted = []) := by
  obtain ⟨first, hopen⟩ := hreached.exists_opened
  obtain ⟨volume, hstored, hexplained⟩ := exists_explained hlog htimes hindex hfits hopen
  obtain ⟨moment, rfl⟩ := hreached.exists_moment hstored
  obtain rfl : moment = some a := hcurrent
  have habout {p : Packet} (hp : p ∈ ((volume.seekerAt (some a)).seek log' b).emitted) :=
    hexplained.isAbout_of_mem_seek hstored ha hnonneg hb hstays hp
  refine ⟨fun p hp => ?_, fun hnothing => List.eq_nil_iff_forall_not_mem.2 fun p hp => ?_⟩
  · obtain ⟨subject, hsubject, hrecorded⟩ := habout hp
    refine ⟨⟨subject, (hsubject subject).2 rfl⟩, fun other hother => ?_⟩
    rwa [(hsubject other).1 hother]
  · obtain ⟨subject, -, e, he, hway, -⟩ := habout hp
    exact hnothing e he hway

/-- A walk past a chunk: an entity appears and moves, the chunk is sent, a block of it changes. -/
def walk : Recording :=
  [(0, .joinGame ⟨1, false, 20, 8, []⟩ ⟨"overworld", 0, 0, false, -64⟩),
    (2, .spawnEntity 7 (.ofNat 7) 1 ⟨0, 0, 0, 0, 0⟩), (4, .teleportEntity 7 ⟨0, 0, 0, 0, 0⟩ true),
    (6, .chunkData 0 0 [0, 0, 0, 0, 0, 0]), (8, .blockUpdate ⟨3, -60, 4⟩ 7)]

theorem chunkFits_walk : ∀ e ∈ walk, e.2.ChunkFits := by
  have hchunk : ChunkInRange 0 0 := by decide
  simp [walk, Packet.ChunkFits, hchunk]

/-- A seeker that has been at 9 and then at 3: a seek to 5 is about the entity, one to 2 is
silent. -/
theorem concerns_of_mem_seek_walk : ∃ root log' seeker,
    walk.index (.inMemory none) = .ok (root, log') ∧ Seeker.Reached log' root seeker ∧
      seeker.current = some 3 ∧
      (∀ p ∈ (seeker.seek log' 5).emitted, (∃ subject, p.Concerns subject) ∧
        ∀ subject, p.Concerns subject →
          ∃ e ∈ walk, OnTheWay 3 5 e.1 ∧ e.2.Concerns subject) ∧
      (seeker.seek log' 2).emitted = [] := by
  have hlog : (Log.inMemory none).Faithful := rfl
  have htimes : ∀ e ∈ walk, e.1 ≤ Time.last := by decide +kernel
  obtain ⟨root, log', first, hindex, hopen⟩ :=
    Seeker.exists_openAt (x := walk.index (.inMemory none)) (by decide +kernel)
  obtain ⟨volume, hstored, -⟩ := exists_explained hlog htimes hindex chunkFits_walk hopen
  obtain rfl := Except.ok.inj (hopen.symm.trans (Volume.openAt_eq hstored))
  have hreached := ((Seeker.Reached.opened hopen).sought 9).sought 3
  rw [Seeker.state_seek hstored none (by decide : (0 : Time) ≤ 9),
    Seeker.state_seek hstored (some 9) (by decide : (0 : Time) ≤ 3)] at hreached
  have hstays (b : Time) (hb : 0 ≤ b) : ∀ e ∈ walk, OnTheWay 3 b e.1 → ¬ e.2.IsEntrance := by
    refine List.forall_mem_cons.2 ⟨fun hway => ?_, ?_⟩
    · obtain ⟨hlow, -⟩ := hway
      lia
    · simp [Packet.IsEntrance]
  have hforward := concerns_of_mem_seek hlog htimes chunkFits_walk hindex hreached rfl
    (by decide) (by decide : (0 : Time) ≤ 5) (by decide) (hstays 5 (by decide))
  have hbackward := concerns_of_mem_seek hlog htimes chunkFits_walk hindex hreached rfl
    (by decide) (by decide : (0 : Time) ≤ 2) (by decide) (hstays 2 (by decide))
  exact ⟨root, log', _, hindex, hreached, rfl, hforward.1, hbackward.2 (by decide +kernel)⟩

end Recording

end Playhead
