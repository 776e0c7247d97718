import Playhead.Proofs.Volume
import Playhead.Proofs.World.Act

/-!
# A client that follows a seeker

A **story** gives an act to every stretch of a recording. It depicts what a client shows at a moment
(`Playhead.Story.Depicts`) when the client plays the act of that moment or, before the first act,
has not been shown anything. Clients that are depicted by the same story at the same moment show the
same scene (`Playhead.Story.Depicts.sameScene`).

A volume tells a story, and a client that was depicted by it before a seek is depicted by it
afterwards (`Playhead.Volume.depicts_seek`). What becomes of the corrective packets depends on how
the world was entered: either the changed corrections were shown on top of those that the client
had, or the client joined anew and all that are in effect were shown.
-/

namespace Playhead

/-- A client that shows nothing but perhaps has corrective packets. -/
def Client.IsBlank (client : Client) : Prop :=
  client = { Client.blank with corrections := client.corrections }

/-- The acts of a recording, each from its key on. -/
abbrev Story := Timeline Act

namespace Story

/-- A client that shows what the story tells of a moment. -/
def Depicts (story : Story) (t : Time) (client : Client) : Prop :=
  match story.floor? t with
  | none => client.IsBlank
  | some e => e.2.Plays t client

theorem depicts_of_floor? {story : Story} {t k : Time} {act : Act} {client : Client}
    (h : story.floor? t = some (k, act)) : Depicts story t client ↔ act.Plays t client := by
  rw [Depicts, h]

theorem depicts_of_none {story : Story} {t : Time} {client : Client}
    (h : story.floor? t = none) : Depicts story t client ↔ client.IsBlank := by
  rw [Depicts, h]

/-- An act put at the end is played from its beginning on. -/
theorem depicts_insert {story : Story} {k t : Time} (h : ∀ e ∈ story.entries, e.1 ≤ k) (act : Act)
    {client : Client} : Depicts (SortedMap.insert story k act) t client ↔
      if k ≤ t then act.Plays t client else story.Depicts t client := by
  have hfloor := Timeline.floor?_insert h act t
  split
  · next hk =>
    rw [if_pos hk] at hfloor
    exact depicts_of_floor? hfloor
  · next hk =>
    rw [if_neg hk] at hfloor
    rw [Depicts, hfloor, Depicts]

/-- **Clients that are depicted by the same story show the same scene.** -/
theorem Depicts.sameScene {story : Story} {t : Time} {a b : Client} (ha : story.Depicts t a)
    (hb : story.Depicts t b) : a.SameScene b := by
  cases hfloor : Timeline.floor? story t with
  | none =>
    rw [(depicts_of_none hfloor).1 ha, (depicts_of_none hfloor).1 hb]
    exact ⟨rfl, rfl, rfl, rfl, rfl, rfl, rfl, rfl, rfl, rfl, rfl⟩
  | some e =>
    exact ((depicts_of_floor? hfloor).1 ha).sameScene ((depicts_of_floor? hfloor).1 hb)

end Story

namespace Volume

/-- The story that a volume tells. -/
def story (volume : Volume) : Story := volume.chapters.map fun _ chapter => chapter.act

/-- A volume whose chapters can be played and whose corrections are corrective packets. -/
structure Playable (volume : Volume) (log : Log) : Prop where
  chapters : ∀ e ∈ volume.chapters.entries, e.2.Playable log e.1
  corrective : ∀ e ∈ volume.corrections.entries, ∀ p ∈ e.2, CorrectionSlot.of? p ≠ none

/-- A client that shows what the volume tells of a moment; nothing before it was taken to one. -/
def Depicts (volume : Volume) (moment : Option Time) (client : Client) : Prop :=
  match moment with
  | none => client.IsBlank
  | some t => volume.story.Depicts t client

variable {volume : Volume} {log : Log} {key : Time} {chapter : Chapter}

theorem floor?_story {t : Time} : Timeline.floor? volume.story t =
    (volume.chapters.floor? t).map fun e => (e.1, e.2.act) :=
  Timeline.floor?_map volume.chapters (fun _ chapter => chapter.act) t

theorem depicts_iff {t : Time} (h : volume.chapters.floor? t = some (key, chapter))
    {client : Client} : volume.Depicts (some t) client ↔ chapter.act.Plays t client :=
  Story.depicts_of_floor? (by rw [floor?_story, h]; rfl)

theorem Playable.of_floor? (h : volume.Playable log) {t : Time}
    (hfloor : volume.chapters.floor? t = some (key, chapter)) : chapter.Playable log key :=
  h.chapters _ (Timeline.floor?_eq_some_iff.1 hfloor).1

/-- Only corrective packets are shown of the corrections. -/
theorem Playable.corrective_shown (h : volume.Playable log) (direction : Direction)
    (start target : Time) :
    ∀ p ∈ volume.corrections.shown correctionDiscipline direction start target,
      CorrectionSlot.of? p ≠ none := by
  intro p hp
  by_cases hlead : direction.leads start target = true
  · rw [correctionDiscipline, Timeline.shown_snapshots hlead] at hp
    split at hp
    · exact absurd hp List.not_mem_nil
    · cases hfloor : volume.corrections.floor? target with
      | none => exact absurd (hfloor ▸ hp) List.not_mem_nil
      | some e =>
        rw [hfloor] at hp
        exact h.corrective _ (Timeline.floor?_eq_some_iff.1 hfloor).1 p hp
  · rw [Timeline.shown_of_not_leads hlead] at hp
    exact absurd hp List.not_mem_nil

/-- What a client has of the corrective packets after a seek. -/
def CorrectedBy (volume : Volume) (moment : Option Time) (target : Time)
    (before after : SortedMap CorrectionSlot Packet) : Prop :=
  after = corrected before (volume.corrections.shown correctionDiscipline
      (seekDirection moment target) (moment.getD origin) target) ∨
    after = corrected .empty
      (volume.corrections.shown correctionDiscipline .forward origin target)

/-- The entrance brings the client into the world, whatever it was shown before. -/
theorem applyAll_entrance (h : volume.Playable log) {client : Client}
    {previous : Option WorldInfo} (info : WorldInfo) (target : Time)
    (hprevious : ∀ old, previous = some old → client.join = some old.join) :
    let client' := client.applyAll (volume.entrance previous info target)
    client'.Sound ∧ client'.join = some info.join ∧ client'.dimension = some info.dimension ∧
      (∀ key, client'.look key = none) ∧
      (client'.corrections = client.corrections ∨ client'.corrections = corrected .empty
        (volume.corrections.shown correctionDiscipline .forward origin target)) := by
  intro client'
  have hsound (c : Client) : (c.respawn info.dimension).Sound :=
    ⟨Client.sound_blank.columns, fun _ => rfl⟩
  have hlook (c : Client) (key : ThingKey) : (c.respawn info.dimension).look key = none :=
    Client.look_of_empty rfl rfl rfl key
  -- a respawn comes last, whether or not a join has come before it
  by_cases hsuffices : previous.any (·.respawnSuffices info) = true
  · have hclient : client' = client.respawn info.dimension := by
      rw [show client' = client.applyAll (volume.entrance previous info target) from rfl, entrance,
        if_pos hsuffices]
      rfl
    rw [hclient]
    refine ⟨hsound client, ?_, rfl, hlook client, .inl rfl⟩
    cases previous with
    | none => exact absurd hsuffices (by simp)
    | some old =>
      have hjoin : old.join = info.join := of_decide_eq_true hsuffices
      rw [← hjoin]
      exact hprevious old rfl
  · have hclient : client' = ((client.apply info.joinPacket).applyAll
        (volume.corrections.shown correctionDiscipline .forward origin target)).respawn
          info.dimension := by
      rw [show client' = client.applyAll (volume.entrance previous info target) from rfl, entrance,
        if_neg hsuffices, Client.applyAll_cons, Client.applyAll_append]
      rfl
    rw [Client.applyAll_corrective _ (h.corrective_shown .forward origin target)] at hclient
    rw [hclient]
    exact ⟨hsound _, rfl, rfl, hlook _, .inr rfl⟩

/-- **A seek takes a client that follows the seeker to the target.** -/
theorem depicts_seek (h : volume.Playable log) {moment : Option Time} {target : Time}
    (htarget : 0 ≤ target) (hother : moment ≠ some target)
    (hleave : volume.chapters.floor? target = none → volume.keyAt moment = none)
    {packets : List Packet} (hshows : volume.SeekShows moment target packets) {client : Client}
    (hclient : volume.Depicts moment client) :
    volume.Depicts (some target) (client.applyAll packets) ∧
      volume.CorrectedBy moment target client.corrections
        (client.applyAll packets).corrections := by
  obtain ⟨worlds, hworlds, rfl⟩ := hshows
  have hlead := leads_seekDirection htarget hother
  have hcorrective := h.corrective_shown (seekDirection moment target) (moment.getD origin) target
  rw [Client.applyAll_append, Client.applyAll_corrective client hcorrective]
  -- from here on the client has been shown the corrections
  generalize hc : ({ client with corrections := corrected client.corrections _ } : Client) = client'
  have hcorrections : client'.corrections = corrected client.corrections
      (volume.corrections.shown correctionDiscipline (seekDirection moment target)
        (moment.getD origin) target) := by rw [← hc]
  have hblank : client.IsBlank → client'.IsBlank := by
    intro hblank
    rw [← hc, hblank]
    rfl
  cases hworlds with
  | @stay key chapter things hfloor hsame hthings =>
    obtain ⟨s, rfl, hkey⟩ := Option.bind_eq_some_iff.1 hsame
    obtain ⟨chapter', hfloor'⟩ := Timeline.floorKey?_eq_some_iff.1 hkey
    obtain rfl := SortedMap.eq_of_mem_of_mem _ (Timeline.floor?_eq_some_iff.1 hfloor).1
      (Timeline.floor?_eq_some_iff.1 hfloor').1
    have hplays : chapter.act.Plays s client' := by
      rw [← hc]
      exact ((depicts_iff hfloor').1 hclient).setCorrections _
    obtain ⟨hplays', hkept⟩ := Chapter.plays_stay (h.of_floor? hfloor) hlead
      (Timeline.floor?_eq_some_iff.1 hfloor).2.1 hplays hthings
    exact ⟨(depicts_iff hfloor).2 hplays', .inl (hkept.trans hcorrections)⟩
  | leave hfloor =>
    refine ⟨(Story.depicts_of_none (by rw [floor?_story, hfloor]; rfl)).2 (hblank ?_),
      .inl hcorrections⟩
    have hkey := hleave hfloor
    cases moment with
    | none => exact hclient
    | some s =>
      rw [keyAt, Option.bind_some, Timeline.floorKey?, Option.map_eq_none_iff] at hkey
      exact (Story.depicts_of_none (by rw [floor?_story, hkey]; rfl)).1 hclient
  | @enter key chapter things hfloor hnew hthings =>
    have hprevious : ∀ old, volume.infoAt moment = some old → client'.join = some old.join := by
      intro old hold
      obtain ⟨⟨k, before⟩, hbefore, rfl⟩ := Option.map_eq_some_iff.1 hold
      obtain ⟨s, rfl, hfloor'⟩ := Option.bind_eq_some_iff.1 hbefore
      rw [← hc]
      exact ((depicts_iff hfloor').1 hclient).join
    obtain ⟨hsound, hjoin, hdimension, hlook, hentered⟩ :=
      applyAll_entrance h chapter.header.info target hprevious
    obtain ⟨hplays, hkept⟩ := Chapter.plays_enter (h.of_floor? hfloor)
      (Timeline.floor?_eq_some_iff.1 hfloor).2.1 hsound hjoin hdimension hlook hthings
    rw [Client.applyAll_append]
    refine ⟨(depicts_iff hfloor).2 hplays, ?_⟩
    rcases hentered with hentered | hentered
    · exact .inl (hkept.trans (hentered.trans hcorrections))
    · exact .inr (hkept.trans hentered)

/-- **Every seek succeeds**, also one to where the seeker is already, and takes a client that
follows the seeker to the target. -/
theorem exists_seek {root : Handle} (hstored : volume.StoredIn log root) (h : volume.Playable log)
    {moment : Option Time} {target : Time} (htarget : 0 ≤ target)
    (hleave : volume.chapters.floor? target = none → volume.keyAt moment = none)
    {client : Client} (hclient : volume.Depicts moment client) :
    ∃ packets, (volume.seekerAt moment).seek log target =
        .emit (volume.seekerAt (some target)) packets ∧
      volume.Depicts (some target) (client.applyAll packets) ∧
      volume.CorrectedBy moment target client.corrections
        (client.applyAll packets).corrections := by
  by_cases hother : moment = some target
  · subst hother
    refine ⟨[], seek_self target htarget, hclient, .inl ?_⟩
    have hstay : ¬ (seekDirection (some target) target).leads ((some target).getD origin)
        target := by
      rw [Option.getD_some, seekDirection, Option.getD_some, if_pos (Int.le_refl target),
        Direction.leads_forward]
      exact Int.lt_irrefl target
    rw [Timeline.shown_of_not_leads hstay]
    rfl
  · obtain ⟨packets, hseek, hshows⟩ := seek_seekerAt hstored htarget hother
    exact ⟨packets, hseek, depicts_seek h htarget hother hleave hshows hclient⟩

end Volume

end Playhead
