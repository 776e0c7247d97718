import Playhead.Proofs.Indexer.Telling

/-!
# Seeking anywhere

A seek to any moment shows the client what it would show if the recording had been played from its
beginning up to there. There are two statements, which differ in what becomes of the corrective
packets:

* `Playhead.Recording.seeks_follow` – a recording that begins with a join, and seeks in any order:
  the scene is right after every seek, and the corrective packets are too if every join is followed
  by all of them (`Playhead.Recording.HasBaselines`);
* `Playhead.Recording.cold_seek` – a recording in which nothing but preludes comes before the first
  join, and one seek of a client that has been shown nothing: everything is right.

Without baselines the first statement fails for the corrective packets, because nothing can be shown
to a client that takes one away again: a seek back to before a slot was used leaves it in use.
-/

namespace Playhead

open Wire (Fits)

/-! ### Recordings that can be sought -/

namespace Recording

/-- Whether the blocks of every packet have a place on the wire in the world that a client is in
when the packet comes to it. -/
def BlocksFit (client : Client) : Recording → Prop
  | [] => True
  | (_, packet) :: rest =>
    packet.FitsWorld client.minY ∧ BlocksFit (client.apply packet) rest

/-- A recording whose times, names and blocks have a place in an index. -/
structure FitsWire (recording : Recording) : Prop where
  times : ∀ e ∈ recording, e.1 ≤ Time.last
  names : ∀ e ∈ recording, ∀ dimension, e.2.Brings dimension → Fits dimension.name
  blocks : BlocksFit .blank recording

/-- Whether nothing but preludes comes before the first join. -/
def JoinsFirst : Recording → Prop
  | [] => True
  | (_, packet) :: rest =>
    (∃ settings dimension, packet = .joinGame settings dimension) ∨
      (packet.IsPrelude ∧ JoinsFirst rest)

/-- Whether every join is followed, in the same millisecond, by a corrective packet for every slot
that occurs in the recording. -/
def HasBaselines (recording : Recording) : Prop :=
  ∀ front t settings dimension back,
    recording = front ++ (t, .joinGame settings dimension) :: back →
      ∀ e ∈ recording, ∀ slot, CorrectionSlot.of? e.2 = some slot →
        ∃ packet, (t, packet) ∈ back ∧ CorrectionSlot.of? packet = some slot

end Recording

namespace Client

variable {client : Client}

/-- A client that has joined stays so. -/
theorem join_apply (h : client.join ≠ none) (packet : Packet) :
    (client.apply packet).join ≠ none := by
  by_cases hentrance : packet.IsEntrance
  · cases packet with
    | joinGame settings => exact Option.some_ne_none settings
    | respawn => exact h
    | _ => exact absurd hentrance id
  · rwa [(client.world_apply hentrance).1]

/-- A client that has joined stays joined, whatever it is told. -/
theorem join_applyAll (h : client.join ≠ none) (packets : List Packet) :
    (client.applyAll packets).join ≠ none := by
  induction packets generalizing client with
  | nil => exact h
  | cons packet packets ih => exact ih (join_apply h packet)

/-- Each corrective packet of a client is in its own slot. -/
theorem slotsMatch_apply (h : SlotsMatch client.corrections) (packet : Packet) :
    SlotsMatch (client.apply packet).corrections := by
  by_cases hentrance : packet.IsEntrance
  · cases packet with
    | joinGame => exact fun e he => absurd he List.not_mem_nil
    | respawn => exact h
    | _ => exact absurd hentrance id
  cases hslot : CorrectionSlot.of? packet with
  | none => rwa [corrections_apply client hentrance hslot]
  | some slot =>
    rw [apply_corrective client hslot]
    intro e he
    rcases SortedMap.mem_insert_iff.1 he with rfl | ⟨hmem, -⟩
    · exact hslot
    · exact h e hmem

/-- Corrections stay under their own slots, whatever the client is told. -/
theorem slotsMatch_applyAll (h : SlotsMatch client.corrections) (packets : List Packet) :
    SlotsMatch (client.applyAll packets).corrections := by
  induction packets generalizing client with
  | nil => exact h
  | cons packet packets ih => exact ih (slotsMatch_apply h packet)

/-- Only a join takes a corrective packet away. -/
theorem get?_corrections_apply {packet : Packet} {slot : CorrectionSlot}
    (hjoin : ∀ settings dimension, packet ≠ .joinGame settings dimension)
    (h : client.corrections.get? slot ≠ none ∨ CorrectionSlot.of? packet = some slot) :
    (client.apply packet).corrections.get? slot ≠ none := by
  by_cases hentrance : packet.IsEntrance
  · cases packet with
    | joinGame settings dimension => exact absurd rfl (hjoin settings dimension)
    | respawn => exact h.resolve_right (by simp [CorrectionSlot.of?])
    | _ => exact absurd hentrance id
  cases hslot : CorrectionSlot.of? packet with
  | none =>
    rw [corrections_apply client hentrance hslot]
    exact h.resolve_right (by simp [hslot])
  | some slot' =>
    rw [apply_corrective client hslot]
    by_cases hsame : slot = slot'
    · subst hsame
      simp
    · rw [SortedMap.get?_insert_of_ne _ hsame]
      exact h.resolve_right fun hother => hsame (Option.some.inj (hother.symm.trans hslot))

/-- A slot of which there is no packet does not come into use. -/
theorem get?_corrections_applyAll_eq_none {packets : List Packet} {slot : CorrectionSlot}
    (hpackets : ∀ p ∈ packets, CorrectionSlot.of? p ≠ some slot)
    (h : client.corrections.get? slot = none) :
    (client.applyAll packets).corrections.get? slot = none := by
  induction packets generalizing client with
  | nil => exact h
  | cons packet packets ih =>
    refine ih (fun p hp => hpackets p (List.mem_cons_of_mem _ hp)) ?_
    by_cases hentrance : packet.IsEntrance
    · cases packet with
      | joinGame => rfl
      | respawn => exact h
      | _ => exact absurd hentrance id
    cases hslot : CorrectionSlot.of? packet with
    | none => rwa [corrections_apply client hentrance hslot]
    | some slot' =>
      rw [apply_corrective client hslot, SortedMap.get?_insert_of_ne _ fun hsame => ?_]
      · exact h
      · exact hpackets packet List.mem_cons_self (hsame ▸ hslot)

end Client

namespace Recording

variable {recording : Recording} {t : Time}

/-- The corrections of a client that is told a recording lie under their own slots. -/
theorem slotsMatch_clientAt (recording : Recording) (t : Time) :
    SlotsMatch (recording.clientAt t).corrections :=
  have hblank : SlotsMatch Client.blank.corrections := fun _ he => absurd he List.not_mem_nil
  Client.slotsMatch_applyAll hblank _

/-- What comes to a client that has not joined is a prelude or a join. -/
theorem JoinsFirst.begins (h : JoinsFirst recording) {client : Client} {front back : Recording}
    {packet : Packet} (hsplit : recording = front ++ (t, packet) :: back)
    (hnone : (client.applyAll (front.map (·.2))).join = none) :
    packet.IsPrelude ∨ ∃ settings dimension, packet = .joinGame settings dimension := by
  induction front generalizing recording client with
  | nil =>
    subst hsplit
    exact (Or.symm h).imp_left And.left
  | cons e front ih =>
    obtain ⟨s, first⟩ := e
    subst hsplit
    rcases h with ⟨settings, dimension, rfl⟩ | ⟨-, h⟩
    · have hjoined : (client.apply (.joinGame settings dimension)).join ≠ none :=
        Option.some_ne_none settings
      exact absurd hnone (Client.join_applyAll hjoined _)
    · exact ih h rfl hnone

/-- Blocks that fit the worlds of a client on its way fit the world of any one packet. -/
theorem BlocksFit.fitsWorld {client : Client} (h : BlocksFit client recording)
    {front back : Recording} {packet : Packet} (hsplit : recording = front ++ (t, packet) :: back) :
    packet.FitsWorld (client.applyAll (front.map (·.2))).minY := by
  induction front generalizing recording client with
  | nil =>
    subst hsplit
    exact h.1
  | cons e front ih =>
    subst hsplit
    exact ih h.2 rfl

/-- **Every packet suits the client that it comes to**, if the blocks fit the wire and nothing but
preludes comes before the first join. -/
theorem FitsWire.suits (h : recording.FitsWire) (hjoins : JoinsFirst recording) :
    ∀ front t packet back, recording = front ++ (t, packet) :: back →
      packet.Suits (client front) := fun _ _ _ _ hsplit =>
  ⟨h.blocks.fitsWorld hsplit, hjoins.begins hsplit⟩

/-- A slot of which there is a packet still to come at the end of everything that happens up to a
moment is in use then. -/
theorem get?_corrections_applyAll {slot : CorrectionSlot} {client : Client}
    (hjoins : ∀ front s settings dimension back,
      recording = front ++ (s, .joinGame settings dimension) :: back → s ≤ t →
        ∃ e ∈ back, e.1 ≤ t ∧ CorrectionSlot.of? e.2 = some slot)
    (h : client.corrections.get? slot ≠ none ∨
      ∃ e ∈ recording, e.1 ≤ t ∧ CorrectionSlot.of? e.2 = some slot) :
    (client.applyAll ((upTo recording t).map (·.2))).corrections.get? slot ≠ none := by
  induction recording generalizing client with
  | nil => exact h.resolve_right fun ⟨_, he, _⟩ => List.not_mem_nil he
  | cons first rest ih =>
    obtain ⟨s, packet⟩ := first
    have hrest : ∀ front s settings dimension back,
        rest = front ++ (s, .joinGame settings dimension) :: back → s ≤ t →
          ∃ e ∈ back, e.1 ≤ t ∧ CorrectionSlot.of? e.2 = some slot :=
      fun front s' settings dimension back hsplit =>
        hjoins ((s, packet) :: front) s' settings dimension back (by rw [hsplit]; rfl)
    by_cases hs : s ≤ t
    · rw [upTo_cons, if_pos hs]
      show ((client.apply packet).applyAll ((upTo rest t).map (·.2))).corrections.get? slot ≠ none
      by_cases hjoin : ∃ settings dimension, packet = .joinGame settings dimension
      · -- a join empties the slot, but the slot is filled again afterwards
        obtain ⟨settings, dimension, rfl⟩ := hjoin
        exact ih hrest (.inr (hjoins [] s settings dimension rest rfl hs))
      have hkept : client.corrections.get? slot ≠ none ∨ CorrectionSlot.of? packet = some slot →
          (client.apply packet).corrections.get? slot ≠ none :=
        Client.get?_corrections_apply fun settings dimension heq =>
          hjoin ⟨settings, dimension, heq⟩
      rcases h with h | ⟨e, he, het, hslot⟩
      · exact ih hrest (.inl (hkept (.inl h)))
      · rcases List.mem_cons.1 he with rfl | he
        · exact ih hrest (.inl (hkept (.inr hslot)))
        · exact ih hrest (.inr ⟨e, he, het, hslot⟩)
    · rw [upTo_cons, if_neg hs]
      refine ih hrest (h.imp_right fun ⟨e, he, het, hslot⟩ => ⟨e, ?_, het, hslot⟩)
      rcases List.mem_cons.1 he with rfl | he
      · exact absurd het hs
      · exact he

end Recording

/-! ### Corrective packets after a seek -/

namespace Volume

variable {volume : Volume} {recording : Recording} {start target : Time} {direction : Direction}

/-- What is shown of the corrections: all that are in effect, or nothing if they were in effect
already. -/
theorem shown_corrections (hlead : direction.leads start target) :
    volume.corrections.shown correctionDiscipline direction start target =
      if volume.corrections.floorKey? start = volume.corrections.floorKey? target then []
      else (volume.corrections.at? target).getD [] := by
  rw [correctionDiscipline, Timeline.shown_snapshots hlead, Timeline.at?]
  split
  · rfl
  · cases volume.corrections.floor? target <;> rfl

/-- What is in effect is restored by showing all of it. -/
theorem corrected_empty (recording : Recording) (t : Time) :
    corrected .empty (recording.clientAt t).corrections.values =
      (recording.clientAt t).corrections :=
  corrected_values (Recording.slotsMatch_clientAt recording t) fun _ _ => rfl

/-- Equal snapshots were taken of equal corrections. -/
theorem corrections_congr (hcorrections : ∀ t,
      (volume.corrections.at? t).getD [] = (recording.clientAt t).corrections.values)
    (hsame : volume.corrections.floorKey? start = volume.corrections.floorKey? target) :
    (recording.clientAt start).corrections = (recording.clientAt target).corrections := by
  rw [← corrected_empty recording start, ← corrected_empty recording target,
    ← hcorrections start, ← hcorrections target, Life.at?_eq_of_floorKey?_eq hsame]

/-- Before anything was recorded there are no corrective packets. -/
theorem corrections_origin (hcorrections : ∀ t,
      (volume.corrections.at? t).getD [] = (recording.clientAt t).corrections.values)
    (hnonneg : ∀ e ∈ volume.corrections.entries, 0 ≤ e.1) :
    (recording.clientAt origin).corrections = .empty := by
  have hnothing : volume.corrections.at? origin = none := by
    rw [Timeline.at?, Option.map_eq_none_iff]
    exact Timeline.floor?_eq_none_iff.2 fun e he => Int.lt_of_lt_of_le (by decide) (hnonneg e he)
  rw [← corrected_empty recording origin, ← hcorrections, hnothing]
  rfl

/-- Before the recording there are no corrections. -/
theorem Tells.corrections_origin (h : volume.Tells recording) :
    (recording.clientAt origin).corrections = .empty :=
  Volume.corrections_origin h.corrections h.nonneg

/-- **After a seek a client has the corrective packets of the target**, if it had those of the
moment it came from and none of them lies in a slot that is not in use at the target. -/
theorem Tells.corrections_eq (h : volume.Tells recording) {moment : Option Time}
    (htarget : 0 ≤ target) {before after : SortedMap CorrectionSlot Packet}
    (hbefore : before = (recording.clientAt (moment.getD origin)).corrections)
    (hslots : ∀ slot, (recording.clientAt target).corrections.get? slot = none →
      before.get? slot = none)
    (hafter : volume.CorrectedBy moment target before after) :
    after = (recording.clientAt target).corrections := by
  rcases hafter with rfl | rfl
  · by_cases hother : moment = some target
    · subst hother
      rw [seekDirection, Option.getD_some, if_pos (Int.le_refl target),
        Timeline.shown_of_not_leads (by simp [Direction.leads])]
      exact hbefore
    rw [shown_corrections (leads_seekDirection htarget hother), h.corrections target]
    split
    · next hsame => exact hbefore.trans (corrections_congr h.corrections hsame)
    · exact corrected_values (Recording.slotsMatch_clientAt recording target) hslots
  · have hlead : Direction.forward.leads origin target = true := by
      rw [Direction.leads_forward, origin]
      lia
    rw [shown_corrections hlead, h.corrections target]
    split
    · next hsame =>
      rw [← corrections_congr h.corrections hsame, h.corrections_origin]
      rfl
    · exact corrected_empty recording target

end Volume

/-! ### Seeks one after the other -/

namespace Seeker

/-- Seeks to all targets succeed one after the other, and after each of them the client is right
that has been shown everything so far. -/
def Follows (log : Log) (right : Time → Client → Prop) : Seeker → Client → List Time → Prop
  | _, _, [] => True
  | seeker, client, target :: targets =>
    ∃ seeker' packets, seeker.seek log target = .emit seeker' packets ∧
      right target (client.applyAll packets) ∧
      Follows log right seeker' (client.applyAll packets) targets

/-- **What every seek preserves holds after all of them.** -/
theorem follows_of_preserved {volume : Volume} {log : Log} {right : Time → Client → Prop}
    (holds : Option Time → Client → Prop)
    (hstep : ∀ moment client target, 0 ≤ target → target < Time.last → holds moment client →
      ∃ packets, (volume.seekerAt moment).seek log target =
          .emit (volume.seekerAt (some target)) packets ∧
        right target (client.applyAll packets) ∧ holds (some target) (client.applyAll packets))
    {targets : List Time} (htargets : ∀ t ∈ targets, 0 ≤ t ∧ t < Time.last)
    {moment : Option Time} {client : Client} (h : holds moment client) :
    (volume.seekerAt moment).Follows log right client targets := by
  induction targets generalizing moment client with
  | nil => trivial
  | cons target targets ih =>
    obtain ⟨hnonneg, hlast⟩ := htargets target List.mem_cons_self
    obtain ⟨packets, hseek, hright, hholds⟩ := hstep moment client target hnonneg hlast h
    exact ⟨_, packets, hseek, hright,
      ih (fun t ht => htargets t (List.mem_cons_of_mem _ ht)) hholds⟩

end Seeker

/-! ### The statements -/

namespace Recording

variable {recording : Recording} {t : Time}

/-- A recording that starts with a join has the join before everything. -/
theorem joinsFirst_of_head {settings : JoinSettings} {dimension : Dimension} {rest : Recording}
    (h : recording = (t, .joinGame settings dimension) :: rest) : JoinsFirst recording := by
  rw [h]
  exact .inl ⟨settings, dimension, rfl⟩

/-- A recording that begins with a join is always in a world. -/
theorem floor?_ne_none {volume : Volume} (h : volume.Tells recording)
    {settings : JoinSettings} {dimension : Dimension} {rest : Recording}
    (hfirst : recording = (0, .joinGame settings dimension) :: rest) (ht : 0 ≤ t)
    (hlast : t < Time.last) : volume.chapters.floor? t ≠ none := by
  intro hfloor
  have hblank := (Story.depicts_of_none (by rw [Volume.floor?_story, hfloor]; rfl)).1
    (h.depicts t hlast)
  have hjoined : (recording.clientAt t).join ≠ none := by
    have hjoin : (Client.blank.apply (.joinGame settings dimension)).join ≠ none :=
      Option.some_ne_none settings
    rw [clientAt, client, hfirst, upTo_cons, if_pos ht]
    exact Client.join_applyAll hjoin _
  rw [hblank] at hjoined
  exact hjoined rfl

/-- With baselines, all slots that are ever used are in use from the beginning on. -/
theorem HasBaselines.get?_corrections_ne_none (h : recording.HasBaselines)
    {settings : JoinSettings} {dimension : Dimension} {rest : Recording}
    (hfirst : recording = (0, .joinGame settings dimension) :: rest) (ht : 0 ≤ t)
    {e : Time × Packet} (he : e ∈ recording) {slot : CorrectionSlot}
    (hslot : CorrectionSlot.of? e.2 = some slot) :
    (recording.clientAt t).corrections.get? slot ≠ none := by
  have hjoins : ∀ front s settings dimension back,
      recording = front ++ (s, .joinGame settings dimension) :: back → s ≤ t →
        ∃ e ∈ back, e.1 ≤ t ∧ CorrectionSlot.of? e.2 = some slot := by
    intro front s settings dimension back hsplit hs
    obtain ⟨packet, hmem, hpacket⟩ := h front s settings dimension back hsplit e he slot hslot
    exact ⟨_, hmem, hs, hpacket⟩
  obtain ⟨e', he', ht', hslot'⟩ := hjoins [] 0 settings dimension rest hfirst ht
  have hmem : e' ∈ recording := by
    rw [hfirst]
    exact List.mem_cons_of_mem _ he'
  exact get?_corrections_applyAll hjoins (.inr ⟨e', hmem, ht', hslot'⟩)

/-- A slot that is not in use at some moment has never been in use. -/
theorem HasBaselines.unused (h : recording.HasBaselines) {settings : JoinSettings}
    {dimension : Dimension} {rest : Recording}
    (hfirst : recording = (0, .joinGame settings dimension) :: rest) (ht : 0 ≤ t)
    {slot : CorrectionSlot} (hslot : (recording.clientAt t).corrections.get? slot = none)
    (s : Time) : (recording.clientAt s).corrections.get? slot = none := by
  have hblank : Client.blank.corrections.get? slot = none := rfl
  refine Client.get?_corrections_applyAll_eq_none (fun p hp hpacket => ?_) hblank
  obtain ⟨e, he, rfl⟩ := List.mem_map.1 hp
  exact h.get?_corrections_ne_none hfirst ht (List.mem_filter.1 he).1 hpacket hslot

/-- **Seeking anywhere, in any order, shows the client what playing from the beginning would.** The
index of a recording that begins with a join opens, every seek to a moment of it succeeds, and after
each one the scene is that of a client to which everything up to there has been applied. With
baselines the corrective packets are too. -/
theorem seeks_follow {log log' : Log} {root : Handle} (hlog : log.Faithful)
    (hfits : recording.FitsWire) {settings : JoinSettings} {dimension : Dimension}
    {rest : Recording} (hfirst : recording = (0, .joinGame settings dimension) :: rest)
    (hindex : recording.index log = .ok (root, log')) :
    ∃ seeker, Seeker.openAt log' root = .ok seeker ∧
      (∀ targets : List Time, (∀ t ∈ targets, 0 ≤ t ∧ t < Time.last) →
        seeker.Follows log' (fun t client => client.SameScene (recording.clientAt t))
          .blank targets) ∧
      (recording.HasBaselines →
        ∀ targets : List Time, (∀ t ∈ targets, 0 ≤ t ∧ t < Time.last) →
          seeker.Follows log' (fun t client => client.Same (recording.clientAt t))
            .blank targets) := by
  obtain ⟨volume, hstored, hplayable, htells⟩ := exists_volume hlog hfits.times hindex
    (hfits.suits (joinsFirst_of_head hfirst)) hfits.names
  have hseek (moment : Option Time) (client : Client) (target : Time) (hnonneg : 0 ≤ target)
      (hlast : target < Time.last) (hclient : volume.Depicts moment client) :=
    Volume.exists_seek hstored hplayable hnonneg
      (fun hfloor => absurd hfloor (floor?_ne_none htells hfirst hnonneg hlast)) hclient
  refine ⟨volume.seekerAt none, Volume.openAt_eq hstored, fun targets htargets => ?_,
    fun hbaselines targets htargets => ?_⟩
  · have hblank : volume.Depicts none .blank := rfl
    -- what a volume depicts is kept by every seek
    refine Seeker.follows_of_preserved volume.Depicts
      (fun moment client target hnonneg hlast hclient => ?_) htargets hblank
    obtain ⟨packets, hemit, hdepicts, -⟩ := hseek moment client target hnonneg hlast hclient
    exact ⟨packets, hemit, hdepicts.sameScene (htells.depicts target hlast), hdepicts⟩
  · have hblank : volume.Depicts none .blank ∧
        Client.blank.corrections = (recording.clientAt origin).corrections :=
      ⟨rfl, htells.corrections_origin.symm⟩
    -- with baselines the corrections are kept as well, as those of the linear client
    refine Seeker.follows_of_preserved (fun moment client => volume.Depicts moment client ∧
        client.corrections = (recording.clientAt (moment.getD origin)).corrections)
      (fun moment client target hnonneg hlast hclient => ?_) htargets hblank
    obtain ⟨packets, hemit, hdepicts, hcorrected⟩ :=
      hseek moment client target hnonneg hlast hclient.1
    have hcorrections := htells.corrections_eq hnonneg hclient.2
      (fun slot hslot => hclient.2 ▸ hbaselines.unused hfirst hnonneg hslot _) hcorrected
    have hscene : (client.applyAll packets).SameScene (recording.clientAt target) :=
      hdepicts.sameScene (htells.depicts target hlast)
    exact ⟨packets, hemit, ⟨hscene, hcorrections⟩, hdepicts, hcorrections⟩

/-- A visit to two worlds: a chunk of one section of air, a block in it, rain, the other world. -/
def visit (start : Time) : Recording :=
  [(start, .joinGame ⟨1, false, 20, 8, []⟩ ⟨"overworld", 0, 0, false, -64⟩),
    (start, .changeDifficulty 2 false), (start + 1, .chunkData 0 0 [0, 0, 0, 0, 0, 0]),
    (start + 2, .blockUpdate ⟨3, -60, 4⟩ 7), (start + 3, .beginRain),
    (start + 5, .respawn ⟨"nether", 0, 0, false, 0⟩), (start + 9, .changeDifficulty 3 true)]

/-- One section of air fits a world that has its lowest blocks there. -/
theorem fitsWorld_of_air {data : Bytes} (hne : data ≠ []) {biomes : Container}
    (h : ChunkSection.decode data = .ok (⟨0, ⟨.blocks, .single 0⟩, biomes⟩, [])) :
    (Packet.chunkData 0 0 data).FitsWorld (-64) := by
  intro column hdecode
  obtain rfl := Except.ok.inj ((Column.decode_of_section hne h).symm.trans hdecode)
  have hheights : HeightsInRange (-64) 1 := by decide
  have hair : IdInRange 0 := by decide
  refine ⟨by decide, hheights, fun s hs => ?_⟩
  obtain rfl := List.mem_singleton.1 hs
  exact ⟨trivial, fun _ _ => hair⟩

theorem fitsWorld_air : (Packet.chunkData 0 0 [0, 0, 0, 0, 0, 0]).FitsWorld (-64) :=
  fitsWorld_of_air (List.cons_ne_nil _ _) rfl

/-- The names of the dimensions of the visit are short. -/
theorem names_visit (start : Time) :
    ∀ e ∈ visit start, ∀ dimension, e.2.Brings dimension → Fits dimension.name := by
  have hoverworld : Fits "overworld" := by decide
  have hnether : Fits "nether" := by decide
  simp [visit, Packet.Brings, Packet.beginRain, hoverworld, hnether]

/-- The visit begins with a join, so it does not matter what the client was shown before. -/
theorem blocksFit_visit (client : Client) (start : Time) : BlocksFit client (visit start) :=
  have hid : IdInRange 7 := by decide
  ⟨trivial, trivial, fitsWorld_air, hid, trivial, trivial, trivial, trivial⟩

/-- Each join of the visit is followed by a difficulty at once. -/
theorem hasBaselines_visit (start : Time) : (visit start).HasBaselines := by
  intro front t settings dimension back hsplit e he slot hslot
  have hdifficulty : slot = .difficulty := by
    simp only [visit, List.mem_cons, List.not_mem_nil, or_false] at he
    rcases he with rfl | rfl | rfl | rfl | rfl | rfl | rfl <;>
      simp_all [CorrectionSlot.of?, Packet.beginRain]
  cases front with
  | nil =>
    obtain ⟨hhead, rfl⟩ := List.cons.inj hsplit
    obtain ⟨rfl, -⟩ := Prod.mk.inj hhead
    exact ⟨.changeDifficulty 2 false, List.mem_cons_self, hdifficulty ▸ rfl⟩
  | cons first front =>
    -- there is only one join
    have hmem : (t, Packet.joinGame settings dimension) ∈ (visit start).tail := by
      rw [hsplit]
      simp
    exact absurd hmem (by simp [visit, Packet.beginRain])

/-- From world to world and back, and twice to the same moment. -/
theorem seeks_follow_visit : ∃ root log' seeker,
    (visit 0).index (.inMemory none) = .ok (root, log') ∧ Seeker.openAt log' root = .ok seeker ∧
      seeker.Follows log' (fun t client => client.SameScene ((visit 0).clientAt t)) .blank
        [4, 7, 2, 2, 100, 0] ∧
      seeker.Follows log' (fun t client => client.Same ((visit 0).clientAt t)) .blank
        [4, 7, 2, 2, 100, 0] := by
  have hlog : (Log.inMemory none).Faithful := rfl
  have hfits : (visit 0).FitsWire :=
    ⟨by decide +kernel, names_visit 0, blocksFit_visit .blank 0⟩
  obtain ⟨⟨root, log'⟩, hindex⟩ : ∃ written, (visit 0).index (.inMemory none) = .ok written :=
    Wire.Codec.exists_of_isOk (by decide +kernel)
  obtain ⟨seeker, hopen, hscene, hsame⟩ := seeks_follow hlog hfits rfl hindex
  exact ⟨root, log', seeker, hindex, hopen, hscene _ (by decide +kernel),
    hsame (hasBaselines_visit 0) _ (by decide +kernel)⟩

/-- **The first seek shows everything**, corrective packets included, wherever it leads, even if
something comes before the first join, as long as nothing of it needs a world. -/
theorem cold_seek {log log' : Log} {root : Handle} (hlog : log.Faithful)
    (hfits : recording.FitsWire) (hjoins : recording.JoinsFirst)
    (hindex : recording.index log = .ok (root, log')) (ht : 0 ≤ t) (hlast : t < Time.last) :
    ∃ seeker seeker' packets, Seeker.openAt log' root = .ok seeker ∧
      seeker.seek log' t = .emit seeker' packets ∧
      (Client.blank.applyAll packets).Same (recording.clientAt t) := by
  obtain ⟨volume, hstored, hplayable, htells⟩ :=
    exists_volume hlog hfits.times hindex (hfits.suits hjoins) hfits.names
  have hblank : volume.Depicts none .blank := rfl
  obtain ⟨packets, hemit, hdepicts, hcorrected⟩ :=
    Volume.exists_seek hstored hplayable ht (fun _ => rfl) hblank
  have hscene : (Client.blank.applyAll packets).SameScene (recording.clientAt t) :=
    hdepicts.sameScene (htells.depicts t hlast)
  refine ⟨_, _, packets, Volume.openAt_eq hstored, hemit, ⟨hscene, ?_⟩⟩
  exact htells.corrections_eq ht htells.corrections_origin.symm (fun _ _ => rfl) hcorrected

/-- A difficulty that comes before the first join counts until then. -/
def lateVisit : Recording := (1, .changeDifficulty 1 true) :: visit 6

/-- A seek into a visit that begins late. -/
theorem cold_seek_lateVisit : ∃ root log' seeker seeker' packets,
    lateVisit.index (.inMemory none) = .ok (root, log') ∧
      Seeker.openAt log' root = .ok seeker ∧ seeker.seek log' 8 = .emit seeker' packets ∧
      (Client.blank.applyAll packets).Same (lateVisit.clientAt 8) := by
  have hlog : (Log.inMemory none).Faithful := rfl
  have hnames : ∀ e ∈ lateVisit, ∀ dimension, e.2.Brings dimension → Fits dimension.name :=
    List.forall_mem_cons.2 ⟨fun _ h => absurd h id, names_visit 6⟩
  have hfits : lateVisit.FitsWire :=
    ⟨by decide +kernel, hnames, trivial, blocksFit_visit _ 6⟩
  have hjoins : lateVisit.JoinsFirst := .inr ⟨trivial, .inl ⟨_, _, rfl⟩⟩
  obtain ⟨⟨root, log'⟩, hindex⟩ : ∃ written, lateVisit.index (.inMemory none) = .ok written :=
    Wire.Codec.exists_of_isOk (by decide +kernel)
  obtain ⟨seeker, seeker', packets, hopen, hseek, hsame⟩ :=
    cold_seek hlog hfits hjoins hindex (by decide : (0 : Time) ≤ 8) (by decide +kernel)
  exact ⟨root, log', seeker, seeker', packets, hindex, hopen, hseek, hsame⟩

end Recording

end Playhead
