import Playhead.Proofs.Subject
import Playhead.Proofs.Volume

/-!
# What a seek shows, and what it leaves alone

A volume **marks** the moments at which something becomes of a subject (`Playhead.Volume.Marks`): a
thing appears, goes, or something happens to it, a channel or the corrections have something new. A
seek that stays in one world shows only packets that are about one subject each, and only about
subjects that are marked on its way (`Playhead.Volume.marks_of_mem_seek`). The way of a seek is what
lies after the earlier and up to the later of its ends (`Playhead.OnTheWay`).

What carries this is that every step compares its two ends: a thing leaves or enters when its
appearance or disappearance lies between them, and a track shows something when an entry does
(`Playhead.Timeline.exists_mem_of_shown_snapshots`,
`Playhead.Timeline.exists_mem_of_shown_changes`).
-/

namespace Playhead

/-- Whether a moment lies after the earlier and up to the later of two others. -/
def OnTheWay (a b τ : Time) : Prop := min a b < τ ∧ τ ≤ max a b

instance (a b τ : Time) : Decidable (OnTheWay a b τ) := inferInstanceAs (Decidable (_ ∧ _))

/-! ### Tracks -/

namespace Timeline

variable {V : Type} {line : Timeline V} {direction : Direction} {a b : Time} {p : Packet}

/-- When the entry in effect changes, the way leads over an entry. -/
theorem exists_onTheWay (h : line.floorKey? a ≠ line.floorKey? b) :
    ∃ τ ∈ line.keys, OnTheWay a b τ := by
  have hbetween : line.between (min a b) (max a b) ≠ [] := by
    intro hnil
    have hfloor := floor?_eq_of_between_eq_nil (by lia : min a b ≤ max a b) hnil
    rcases Int.le_total a b with hle | hle
    · rw [Int.min_eq_left hle, Int.max_eq_right hle] at hfloor
      exact h (by rw [floorKey?, floorKey?, hfloor])
    · rw [Int.min_eq_right hle, Int.max_eq_left hle] at hfloor
      exact h (by rw [floorKey?, floorKey?, hfloor])
  obtain ⟨e, he⟩ := List.exists_mem_of_ne_nil _ hbetween
  obtain ⟨hmem, hlow, hhigh⟩ := mem_between.1 he
  exact ⟨e.1, List.mem_map_of_mem hmem, hlow, hhigh⟩

/-- **Snapshots are shown when the way leads over one**, and what is shown is one of them. -/
theorem exists_mem_of_shown_snapshots {emit : V → List Packet}
    (h : p ∈ line.shown (.snapshots emit) direction a b) :
    (∃ τ ∈ line.keys, OnTheWay a b τ) ∧ ∃ e ∈ line.entries, p ∈ emit e.2 := by
  by_cases hlead : direction.leads a b = true
  · rw [shown_snapshots hlead] at h
    split at h
    · exact absurd h List.not_mem_nil
    · next hfloor =>
      refine ⟨exists_onTheWay hfloor, ?_⟩
      cases hb : line.floor? b with
      | none => exact absurd (hb ▸ h) List.not_mem_nil
      | some e =>
        rw [hb] at h
        exact ⟨e, (floor?_eq_some_iff.1 hb).1, h⟩
  · rw [shown_of_not_leads hlead] at h
    exact absurd h List.not_mem_nil

/-- **Changes are shown when the way leads over them.** -/
theorem exists_mem_of_shown_changes {forward backward : V → List Packet}
    (h : p ∈ line.shown (.changes forward backward) direction a b) :
    ∃ e ∈ line.entries, OnTheWay a b e.1 ∧ (p ∈ forward e.2 ∨ p ∈ backward e.2) := by
  by_cases hlead : direction.leads a b = true
  · cases direction with
    | forward =>
      have hle := Int.le_of_lt (Direction.leads_forward.1 hlead)
      rw [shown_forward hle] at h
      obtain ⟨e, he, hp⟩ := List.mem_flatMap.1 h
      obtain ⟨hmem, hspan⟩ := mem_between.1 he
      exact ⟨e, hmem, by rwa [OnTheWay, Int.min_eq_left hle, Int.max_eq_right hle], .inl hp⟩
    | backward =>
      have hle := Int.le_of_lt (Direction.leads_backward.1 hlead)
      rw [shown_backward hle] at h
      obtain ⟨e, he, hp⟩ := List.mem_flatMap.1 h
      obtain ⟨hmem, hspan⟩ := mem_between.1 (List.mem_reverse.1 he)
      exact ⟨e, hmem, by rwa [OnTheWay, Int.min_eq_right hle, Int.max_eq_left hle], .inr hp⟩
  · rw [shown_of_not_leads hlead] at h
    exact absurd h List.not_mem_nil

end Timeline

/-! ### Things -/

namespace Role

variable {role : Role} {direction : Direction} {a b : Time} {p : Packet}

/-- A thing appears with a packet about itself. -/
theorem isAbout_appearance (role : Role) : role.appearance.IsAbout (.thing role.key) := by
  cases role with
  | entity | chunk => exact fun _ => Iff.rfl
  | weather => exact Packet.isAbout_weather 0 (by simp)

/-- A thing goes with a packet about itself. -/
theorem isAbout_disappearance (role : Role) : role.disappearance.IsAbout (.thing role.key) := by
  cases role with
  | entity id => exact fun other => by simp [disappearance, Packet.Concerns, key]
  | chunk => exact fun _ => Iff.rfl
  | weather => exact Packet.isAbout_weather 0 (by simp)

/-- **What is shown of a thing is about it**, and the way leads over something that happens to
it. -/
theorem Inside.isAbout_shown (h : role.Inside) (hp : p ∈ role.shown direction a b) :
    p.IsAbout (.thing role.key) ∧ ∃ τ ∈ role.times, OnTheWay a b τ := by
  cases role with
  | entity id uuid kind place line =>
    rw [shown, entityDiscipline] at hp
    obtain ⟨hway, e, -, hshown⟩ := Timeline.exists_mem_of_shown_snapshots hp
    obtain rfl := List.mem_singleton.1 hshown
    exact ⟨fun _ => Iff.rfl, hway⟩
  | chunk x z data line =>
    obtain ⟨e, he, hway, hshown⟩ := Timeline.exists_mem_of_shown_changes hp
    obtain ⟨c, hc, state, rfl⟩ : ∃ c ∈ e.2, ∃ state, p = .blockUpdate c.position state := by
      rcases hshown with hshown | hshown
      · obtain ⟨c, hc, rfl⟩ := List.mem_map.1 hshown
        exact ⟨c, hc, _, rfl⟩
      · obtain ⟨c, hc, rfl⟩ := List.mem_map.1 hshown
        exact ⟨c, List.mem_reverse.1 hc, _, rfl⟩
    refine ⟨fun other => ?_, e.1, List.mem_map_of_mem he, hway⟩
    rw [Packet.Concerns, Client.chunkKey, h.2 e he c hc]
    exact Iff.rfl
  | weather line =>
    rw [shown, weatherDiscipline] at hp
    obtain ⟨hway, e, -, hshown⟩ := Timeline.exists_mem_of_shown_snapshots hp
    obtain rfl := List.mem_singleton.1 hshown
    exact ⟨Packet.isAbout_weather e.2 (by simp), hway⟩

/-- All that is shown when a thing enters, its past changes included, is about the thing. -/
theorem Inside.isAbout_arrival {life : Life} (h : life.role.Inside) {t : Time}
    (hp : p ∈ life.arrival t) : p.IsAbout (.thing life.role.key) := by
  rcases List.mem_cons.1 hp with rfl | hp
  · exact life.role.isAbout_appearance
  · exact (h.isAbout_shown hp).1

end Role

/-- Whether a thing appears or goes at a moment, or something happens to it. -/
def Life.Marks (life : Life) (τ : Time) : Prop :=
  τ = life.spawn ∨ τ = life.despawn ∨ τ ∈ life.role.times

/-- Who is there at one end of a way and not at the other has come or gone on it. -/
theorem Life.exists_marks {life : Life} {a b : Time} (ha : life.AliveAt a)
    (hb : ¬ life.AliveAt b) :
    (∃ τ, OnTheWay a b τ ∧ life.Marks τ) ∧ ∃ τ, OnTheWay b a τ ∧ life.Marks τ := by
  obtain ⟨hspawn, hdespawn⟩ := ha
  by_cases hb' : life.spawn ≤ b
  · have hgone : life.despawn ≤ b := Int.not_lt.1 fun hlt => hb ⟨hb', hlt⟩
    exact ⟨⟨life.despawn, by rw [OnTheWay]; lia, .inr (.inl rfl)⟩,
      ⟨life.despawn, by rw [OnTheWay]; lia, .inr (.inl rfl)⟩⟩
  · exact ⟨⟨life.spawn, by rw [OnTheWay]; lia, .inl rfl⟩,
      ⟨life.spawn, by rw [OnTheWay]; lia, .inl rfl⟩⟩

namespace Roster

variable {roster : Roster} {direction : Direction} {a b : Time} {p : Packet}

/-- What is shown of some members is shown of one of them. -/
theorem exists_of_mem_flatMap {f : Life → List Packet} {is : List Nat}
    (h : p ∈ is.flatMap (roster.packets f)) :
    ∃ i ∈ is, ∃ q, roster[i]? = some q ∧ q.2 ∈ roster.lives ∧ p ∈ f q.2 := by
  obtain ⟨i, hi, hp⟩ := List.mem_flatMap.1 h
  cases hq : roster[i]? with
  | none =>
    rw [packets, hq] at hp
    exact absurd hp List.not_mem_nil
  | some q =>
    rw [packets_eq hq] at hp
    exact ⟨i, hi, q, hq, mem_lives.2 ⟨i, q, hq, rfl⟩, hp⟩

/-- Who is alive by the records is alive by the lives that they stand for. -/
theorem aliveAt_of_alive {t : Time} {i : Nat} {q : ThingRecord × Life} (hq : roster[i]? = some q) :
    roster.alive t i = true ↔ q.2.AliveAt t := by
  rw [alive_iff]
  constructor
  · rintro ⟨q', hq', halive⟩
    rwa [Option.some.inj (hq.symm.trans hq')]
  · exact fun halive => ⟨q, hq, halive⟩

/-- **What an incremental step shows is about lives that are marked on its way.** -/
theorem Advances.exists_marks {packets : List Packet}
    (hadvances : roster.Advances direction a b packets)
    (hinside : ∀ life ∈ roster.lives, life.role.Inside) (hp : p ∈ packets) :
    ∃ life ∈ roster.lives, p.IsAbout (.thing life.role.key) ∧
      ∃ τ, OnTheWay a b τ ∧ life.Marks τ := by
  obtain ⟨leaving, entering, staying, hparts, rfl⟩ := hadvances
  rcases List.mem_append.1 hp with hp | hp
  · obtain ⟨i, hi, q, hq, hlife, hp⟩ := exists_of_mem_flatMap hp
    obtain rfl := List.mem_singleton.1 hp
    obtain ⟨ha, hb⟩ := (hparts.mem_leaving i).1 hi
    rw [aliveAt_of_alive hq] at ha hb
    exact ⟨q.2, hlife, q.2.role.isAbout_disappearance, (Life.exists_marks ha hb).1⟩
  rcases List.mem_append.1 hp with hp | hp
  · obtain ⟨i, hi, q, hq, hlife, hp⟩ := exists_of_mem_flatMap hp
    obtain ⟨hb, ha⟩ := (hparts.mem_entering i).1 hi
    rw [aliveAt_of_alive hq] at ha hb
    exact ⟨q.2, hlife, (hinside q.2 hlife).isAbout_arrival hp, (Life.exists_marks hb ha).2⟩
  · obtain ⟨i, -, q, -, hlife, hp⟩ := exists_of_mem_flatMap hp
    obtain ⟨habout, τ, hτ, hway⟩ := (hinside q.2 hlife).isAbout_shown hp
    exact ⟨q.2, hlife, habout, τ, hway, .inr (.inr hτ)⟩

end Roster

/-! ### Volumes -/

namespace Volume

/-- Whether something becomes of a subject at a moment. -/
def Marks (volume : Volume) (τ : Time) : Subject → Prop
  | .thing key => ∃ e ∈ volume.chapters.entries, ∃ life ∈ e.2.roster.lives,
      life.role.key = key ∧ life.Marks τ
  | .channel channel => ∃ e ∈ volume.chapters.entries, τ ∈ (e.2.line channel).keys
  | .corrections => τ ∈ volume.corrections.keys

/-- A volume in which everything is where it belongs. -/
structure Sorted (volume : Volume) : Prop where
  inside : ∀ e ∈ volume.chapters.entries, ∀ life ∈ e.2.roster.lives, life.role.Inside
  kinds : ∀ e ∈ volume.chapters.entries, ∀ channel, ∀ entry ∈ (e.2.line channel).entries,
    Channel.of? entry.2 = some channel
  corrective : ∀ e ∈ volume.corrections.entries, ∀ p ∈ e.2, CorrectionSlot.of? p ≠ none

variable {volume : Volume} {a b : Time} {p : Packet}

/-- **A seek that stays in its world shows packets about subjects that are marked on its way.** -/
theorem marks_of_mem_seek (h : volume.Sorted)
    (hstays : ∀ key ∈ volume.chapters.keys, ¬ OnTheWay a b key) {packets : List Packet}
    (hshows : volume.SeekShows (some a) b packets) (hp : p ∈ packets) :
    ∃ subject, p.IsAbout subject ∧ ∃ τ, OnTheWay a b τ ∧ volume.Marks τ subject := by
  obtain ⟨worlds, hworlds, rfl⟩ := hshows
  rcases List.mem_append.1 hp with hp | hp
  · -- the packet is one of the corrections
    obtain ⟨⟨τ, hτ, hway⟩, e, he, hshown⟩ := Timeline.exists_mem_of_shown_snapshots hp
    exact ⟨.corrections, Packet.isAbout_corrections (h.corrective e he p hshown), τ, hway, hτ⟩
  -- otherwise it is of the world, which is the same at both moments
  have hfloorKey : volume.chapters.floorKey? a = volume.chapters.floorKey? b := by
    by_contra hother
    obtain ⟨τ, hτ, hway⟩ := Timeline.exists_onTheWay hother
    exact hstays τ hτ hway
  cases hworlds with
  | leave => exact absurd hp List.not_mem_nil
  | @enter key chapter things hfloor hother =>
    refine absurd ?_ hother
    rw [keyAt, Option.bind_some, hfloorKey, Timeline.floorKey?, hfloor]
    rfl
  | @stay key chapter things hfloor hsame hthings =>
    have hchapter := (Timeline.floor?_eq_some_iff.1 hfloor).1
    rcases List.mem_append.1 hp with hp | hp
    · -- it is about a thing
      obtain ⟨front, back, hfront, hback, rfl⟩ := hthings
      rw [Option.getD_some, if_pos rfl] at hfront
      rw [hfront, List.nil_append] at hp
      obtain ⟨life, hlife, habout, τ, hway, hmarks⟩ := hback.exists_marks (h.inside _ hchapter) hp
      exact ⟨_, habout, τ, hway, _, hchapter, life, hlife, rfl, hmarks⟩
    · -- it is of a channel
      obtain ⟨channel, -, hp⟩ := List.mem_flatMap.1 hp
      obtain ⟨⟨τ, hτ, hway⟩, e, he, hshown⟩ := Timeline.exists_mem_of_shown_snapshots hp
      obtain rfl := List.mem_singleton.1 hshown
      exact ⟨_, Packet.isAbout_of_channel (h.kinds _ hchapter channel e he), τ, hway, _, hchapter,
        hτ⟩

end Volume

end Playhead
