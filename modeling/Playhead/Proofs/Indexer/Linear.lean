import Playhead.Proofs.Indexer.Following
import Playhead.Proofs.Story

/-!
# A recording, played from its beginning

The yardstick of seeking is a client to which everything recorded up to a moment has been applied
(`Playhead.Recording.clientAt`). A ledger tells a story (`Playhead.Ledger.story`), and that story
depicts this client at every moment (`Playhead.Ledger.After.follows`), as long as every packet suits
the client that it comes to (`Playhead.Packet.Suits`). The snapshots of a ledger are the corrective
packets that this client has.

What makes the induction go through is that a packet changes the story only from its own time on
(`Playhead.Ledger.Receives.depicts`), and from there on the story shows the last stage alone.
-/

namespace Playhead

/-! ### The client of a recording -/

namespace Recording

/-- The client to which a whole recording has been applied. -/
def client (recording : Recording) : Client := Client.blank.applyAll (recording.map (·.2))

/-- What has been recorded up to a moment. -/
def upTo (recording : Recording) (t : Time) : Recording := recording.filter fun e => e.1 ≤ t

/-- The client to which everything up to a moment has been applied. -/
def clientAt (recording : Recording) (t : Time) : Client := client (upTo recording t)

variable {recording : Recording} {t s : Time} {packet : Packet}

theorem upTo_cons (e : Time × Packet) (recording : Recording) (t : Time) :
    upTo (e :: recording) t = if e.1 ≤ t then e :: upTo recording t else upTo recording t := by
  by_cases h : e.1 ≤ t
  · rw [if_pos h]
    exact List.filter_cons_of_pos (decide_eq_true h)
  · rw [if_neg h]
    exact List.filter_cons_of_neg fun hd => h (of_decide_eq_true hd)

/-- What has been recorded up to a moment, with one packet more. -/
theorem upTo_concat (recording : Recording) (t s : Time) (packet : Packet) :
    upTo (recording ++ [(t, packet)]) s =
      if t ≤ s then upTo recording s ++ [(t, packet)] else upTo recording s := by
  rw [upTo, List.filter_append]
  by_cases h : t ≤ s
  · rw [if_pos h]
    exact congrArg (upTo recording s ++ ·) (List.filter_cons_of_pos (decide_eq_true h))
  · rw [if_neg h]
    refine (congrArg (upTo recording s ++ ·) (List.filter_cons_of_neg fun hd => ?_)).trans
      (List.append_nil _)
    exact h (of_decide_eq_true hd)

theorem client_concat : client (recording ++ [(t, packet)]) = (client recording).apply packet := by
  rw [client, List.map_append, Client.applyAll_append]
  rfl

theorem clientAt_concat_of_lt (hs : s < t) :
    clientAt (recording ++ [(t, packet)]) s = clientAt recording s := by
  rw [clientAt, upTo_concat, if_neg (Int.not_le.2 hs), clientAt]

theorem clientAt_eq_client (h : ∀ e ∈ recording, e.1 ≤ s) :
    clientAt recording s = client recording := by
  rw [clientAt, upTo, List.filter_eq_self.2 fun e he => decide_eq_true (h e he)]

end Recording

/-- Whether a packet may come before the client has joined. -/
def Packet.IsPrelude : Packet → Prop
  | playerPosition .. | changeDifficulty .. | foreign .. => True
  | _ => False

/-- Whether a packet makes sense to a client: its blocks fit the world that the client is in, and
the client is in one, unless the packet brings it there or does not need one. -/
structure Packet.Suits (packet : Packet) (client : Client) : Prop where
  fits : packet.FitsWorld client.minY
  begins : client.join = none →
    packet.IsPrelude ∨ ∃ settings dimension, packet = .joinGame settings dimension

/-! ### Packets of a client -/

namespace Client

/-- Only joins and respawns bring the client elsewhere. -/
theorem world_apply (client : Client) {packet : Packet} (h : ¬ packet.IsEntrance) :
    (client.apply packet).join = client.join ∧
      (client.apply packet).dimension = client.dimension := by
  cases packet with
  | joinGame | respawn => exact absurd trivial h
  | chunkData x z data =>
    rw [apply]
    split <;> exact ⟨rfl, rfl⟩
  | gameEvent event value =>
    rw [apply, gameEvent]
    split
    · exact ⟨rfl, rfl⟩
    split
    · exact ⟨rfl, rfl⟩
    split
    · split <;> exact ⟨rfl, rfl⟩
    split <;> exact ⟨rfl, rfl⟩
  | _ => exact ⟨rfl, rfl⟩

/-- A packet that is neither an entrance nor a correction leaves the corrections alone. -/
theorem corrections_apply (client : Client) {packet : Packet} (hentrance : ¬ packet.IsEntrance)
    (hcorrective : CorrectionSlot.of? packet = none) :
    (client.apply packet).corrections = client.corrections := by
  cases packet with
  | joinGame | respawn => exact absurd trivial hentrance
  | changeDifficulty | foreign => exact absurd hcorrective (by simp [CorrectionSlot.of?])
  | chunkData x z data =>
    rw [apply]
    split <;> rfl
  | gameEvent event value =>
    rw [apply, gameEvent]
    split
    · rfl
    split
    · rfl
    split
    · split <;> rfl
    split <;> rfl
  | _ => rfl

/-- A corrective packet takes its slot and does nothing else. -/
theorem apply_corrective (client : Client) {packet : Packet} {slot : CorrectionSlot}
    (h : CorrectionSlot.of? packet = some slot) : client.apply packet =
      { client with corrections := client.corrections.insert slot packet } := by
  cases packet with
  | changeDifficulty | foreign =>
    obtain rfl := Option.some.inj h
    rfl
  | _ => exact absurd h (by simp [CorrectionSlot.of?])

end Client

/-! ### The story of a ledger -/

namespace Ledger

/-- The story of the stages that are over. -/
def closedStory (ledger : Ledger) : Story := ledger.closed.map fun _ stage => stage.act

/-- The story of all stages. -/
def story (ledger : Ledger) : Story :=
  match ledger.current with
  | none => ledger.closedStory
  | some stage => ledger.closedStory.insert stage.start stage.act

variable {ledger ledger' : Ledger} {recording : Recording} {now t s : Time} {packet : Packet}
  {stage : Stage} {client : Client}

theorem story_of_none (h : ledger.current = none) : ledger.story = ledger.closedStory := by
  rw [story, h]

/-- The story of the worlds that are over tells of no later ones. -/
theorem key_closedStory_le {k : Time} (h : ∀ e ∈ ledger.closed.entries, e.1 ≤ k) :
    ∀ e ∈ ledger.closedStory.entries, e.1 ≤ k := by
  intro e he
  obtain ⟨e', he', rfl⟩ := List.mem_map.1 he
  exact h e' he'

/-- The stage that lasts is shown from its beginning on. -/
theorem depicts_of_some (h : ledger.current = some stage)
    (hlast : ∀ e ∈ ledger.closed.entries, e.1 ≤ stage.start) :
    ledger.story.Depicts s client ↔
      if stage.start ≤ s then stage.act.Plays s client
      else ledger.closedStory.Depicts s client := by
  rw [story, h]
  exact Story.depicts_insert (key_closedStory_le hlast) stage.act

/-- **Nothing changes before the stage that lasts ends.** -/
theorem Closes.depicts (hcloses : ledger.Closes t ledger') (horder : ledger.Orderly t)
    (hs : s < t) (hlast : s < Time.last) (h : ledger.story.Depicts s client) :
    ledger'.story.Depicts s client := by
  cases hcloses with
  | idle => exact h
  | @busy stage keys hcurrent =>
    obtain ⟨horderly, hkeys⟩ := horder.current stage hcurrent
    have hinsert : (ledger.closed.insert stage.start (stage.close t keys)).map
        (fun _ stage => stage.act) =
          ledger.closedStory.insert stage.start (stage.close t keys).act := by
      refine SortedMap.ext_get? fun key => ?_
      rw [closedStory, SortedMap.get?_map, SortedMap.get?_insert, SortedMap.get?_insert,
        SortedMap.get?_map]
      split <;> rfl
    rw [story_of_none rfl, closedStory, hinsert, Story.depicts_insert (key_closedStory_le hkeys)]
    rw [depicts_of_some hcurrent hkeys] at h
    split
    · next hstart =>
      rw [if_pos hstart] at h
      exact (Stage.sameAt_close horderly hs hlast keys).plays h
    · next hstart =>
      rwa [if_neg hstart] at h

/-- Nothing changes before a stage begins. -/
theorem depicts_open (h : ledger.Orderly t) (hnone : ledger.current = none) (hs : s < t)
    (info : WorldInfo) (seeds : Channel → Packet) (hdepicts : ledger.story.Depicts s client) :
    ({ ledger with current := some (.begin t info seeds) } : Ledger).story.Depicts s client := by
  have hstart : ¬ (Stage.begin t info seeds).start ≤ s := Int.not_le.2 hs
  rw [depicts_of_some rfl h.key_le, if_neg hstart]
  rwa [story_of_none hnone] at hdepicts

/-- **Nothing changes before a packet arrives.** -/
theorem Receives.depicts (hreceives : ledger.Receives t packet ledger')
    (horder : ledger.Orderly t) (hs : s < t) (hlast : s < Time.last)
    (h : ledger.story.Depicts s client) : ledger'.story.Depicts s client := by
  cases hreceives with
  | join hcloses =>
    exact depicts_open (hcloses.orderly horder.wipe) hcloses.current_eq_none hs _ _
      (hcloses.depicts horder.wipe hs hlast h)
  | respawn _ hcloses =>
    exact depicts_open (hcloses.orderly horder) hcloses.current_eq_none hs _ _
      (hcloses.depicts horder hs hlast h)
  | stray => exact h
  | correct => exact h
  | other =>
    -- without a stage the packet goes nowhere
    cases hcurrent : ledger.current with
    | none =>
      rw [story, hcurrent] at h
      exact h
    | some stage =>
      obtain ⟨horderly, hkeys⟩ := horder.current stage hcurrent
      rw [depicts_of_some hcurrent hkeys] at h
      have hafter := Stage.start_receive stage t packet
      rw [Option.map_some, depicts_of_some rfl (by rwa [hafter]), hafter]
      split
      · next hstart =>
        rw [if_pos hstart] at h
        exact ((Stage.moves_receive stage t packet).sameAt horderly hs hlast).plays h
      · next hstart =>
        rwa [if_neg hstart] at h

/-- A packet does not change the snapshots before it. -/
theorem Receives.at?_snapshots (hreceives : ledger.Receives t packet ledger')
    (horder : ledger.Orderly t) (hs : s < t) :
    ledger'.snapshots.at? s = ledger.snapshots.at? s := by
  have hinsert (packets : List Packet) :
      Timeline.at? (ledger.snapshots.insert t packets) s = ledger.snapshots.at? s := by
    rw [Timeline.at?_insert fun e he => (horder.snapshots e he).1.2, if_neg (Int.not_le.2 hs)]
  cases hreceives with
  | join hcloses =>
    show Timeline.at? (Ledger.snapshots _) s = _
    rw [hcloses.snapshots_eq.1]
    exact hinsert []
  | respawn _ hcloses =>
    show Timeline.at? (Ledger.snapshots _) s = _
    rw [hcloses.snapshots_eq.1]
  | stray => rfl
  | correct => exact hinsert _
  | other => rfl

/-- **The corrective packets are those of a client** to which the packets are applied. -/
theorem Receives.corrections_eq (hreceives : ledger.Receives t packet ledger')
    (h : ledger.corrections = client.corrections) :
    ledger'.corrections = (client.apply packet).corrections := by
  cases hreceives with
  | join hcloses => exact hcloses.snapshots_eq.2
  | respawn _ hcloses => exact hcloses.snapshots_eq.2.trans h
  | stray => exact h
  | correct hcorrective =>
    rw [Client.apply_corrective client hcorrective, ← h]
    rfl
  | other hentrance hcorrective =>
    exact h.trans (Client.corrections_apply client hentrance hcorrective).symm

/-- No packet of a recording comes after its end. -/
theorem After.times (h : After recording now ledger) : ∀ e ∈ recording, e.1 ≤ now := by
  induction h with
  | blank => exact fun e he => absurd he List.not_mem_nil
  | packet _ hle _ ih =>
    intro e he
    rcases List.mem_append.1 he with he | he
    · exact Int.le_trans (ih e he) hle
    · obtain rfl := List.mem_singleton.1 he
      exact Int.le_refl _

/-- **The corrections of a ledger are those of a client** that is told the recording. -/
theorem After.corrections_eq (h : After recording now ledger) :
    ledger.corrections = recording.client.corrections := by
  induction h with
  | blank => rfl
  | packet _ _ hreceives ih =>
    rw [Recording.client_concat]
    exact hreceives.corrections_eq ih

/-- **The snapshots are the corrective packets of the client at every moment.** -/
theorem After.at?_snapshots (h : After recording now ledger) (s : Time) :
    (ledger.snapshots.at? s).getD [] = (recording.clientAt s).corrections.values := by
  induction h with
  | blank => rfl
  | @packet recording now t ledger ledger' packet hbefore hle hreceives ih =>
    have hafter := After.packet hbefore hle hreceives
    have horder := hbefore.orderly.mono hle
    by_cases hs : s < t
    · rw [Recording.clientAt_concat_of_lt hs, hreceives.at?_snapshots horder hs]
      exact ih
    · have hle' := Int.not_lt.1 hs
      rw [Recording.clientAt_eq_client fun e he => Int.le_trans (hafter.times e he) hle',
        ← hafter.corrections_eq]
      exact (hreceives.orderly horder).latest s hle'

/-- **Packets that fit the world keep all stages sound.** -/
theorem Receives.sound (hreceives : ledger.Receives t packet ledger') (horder : ledger.Orderly t)
    (h : ledger.All fun stage => stage.Sound t)
    (hfits : ∀ stage, ledger.current = some stage → packet.FitsWorld stage.minY) :
    ledger'.All fun stage => stage.Sound t :=
  hreceives.all h (fun _ keys _ _ hsound => hsound.close t keys)
    (fun info seeds _ => .begin t info seeds) fun stage _ _ hstage hsound =>
      hsound.receive (horder.current stage hstage).1 (hfits stage hstage)

/-! ### A ledger follows its recording -/

/-- A ledger that knows what a client shows. -/
structure Knows (ledger : Ledger) (client : Client) (now : Time) : Prop where
  sound : ledger.All fun stage => stage.Sound now
  idle : ledger.current = none → ledger.closed.entries = [] ∧ client.IsBlank
  busy : ∀ stage, ledger.current = some stage → stage.ShownBy now client
  corrections : ledger.corrections = client.corrections

/-- What a ledger knows at a time it knows later. -/
theorem Knows.mono (h : ledger.Knows client now) (hle : now ≤ t) : ledger.Knows client t :=
  { h with
    sound := h.sound.imp fun _ hsound => hsound.mono hle
    busy := fun stage hstage => (h.busy stage hstage).mono hle }

/-- Before the client has joined, only preludes and joins suit it. -/
theorem Knows.suits_idle (h : ledger.Knows client t) (hidle : ledger.current = none)
    (hsuits : packet.Suits client) :
    packet.IsPrelude ∨ ∃ settings dimension, packet = .joinGame settings dimension := by
  refine hsuits.begins ?_
  rw [(h.idle hidle).2]
  rfl

/-- **Packets that suit the client keep all stages sound.** -/
theorem Knows.sound_receive (h : ledger.Knows client t) (horder : ledger.Orderly t)
    (hreceives : ledger.Receives t packet ledger') (hsuits : packet.Suits client) :
    ledger'.All fun stage => stage.Sound t :=
  hreceives.sound horder h.sound fun stage hstage => (h.busy stage hstage).minY_eq ▸ hsuits.fits

/-- **What a packet does to the client, the ledger knows.** -/
theorem Knows.receive (h : ledger.Knows client t) (horder : ledger.Orderly t)
    (hreceives : ledger.Receives t packet ledger') (hsuits : packet.Suits client) :
    ledger'.Knows (client.apply packet) t := by
  have hsound := h.sound_receive horder hreceives hsuits
  have hcorrections := hreceives.corrections_eq h.corrections
  cases hreceives with
  | @join closed settings dimension hcloses =>
    refine ⟨hsound, fun hnone => absurd hnone (by simp), fun stage hstage => ?_, hcorrections⟩
    obtain rfl := Option.some.inj hstage
    exact .begin_join ..
  | @respawn closed stage dimension hbusy hcloses =>
    refine ⟨hsound, fun hnone => absurd hnone (by simp), fun stage hstage => ?_, hcorrections⟩
    obtain rfl := Option.some.inj hstage
    exact (h.busy stage hbusy).begin_respawn (horder.current stage hbusy).1 dimension
  | stray hidle =>
    rcases h.suits_idle hidle hsuits with hprelude | ⟨settings, dimension, hjoin⟩
    · exact absurd hprelude id
    · exact absurd hjoin (by simp)
  | @correct packet slot hcorrective =>
    rw [Client.apply_corrective client hcorrective] at hcorrections ⊢
    refine ⟨hsound, fun hnone => ⟨(h.idle hnone).1, ?_⟩,
      fun stage hstage => (h.busy stage hstage).setCorrections _, hcorrections⟩
    -- there is no stage, so the client has been told nothing else
    have hblank := (h.idle hnone).2
    generalize client.corrections.insert slot packet = corrections
    rw [hblank]
    rfl
  | @other packet hentrance hcorrective =>
    refine ⟨hsound, fun hnone => ?_, fun stage' hstage' => ?_, hcorrections⟩
    · -- without a stage only what does nothing comes, or the first join
      have hidle := Option.map_eq_none_iff.1 hnone
      have hsame : client.apply packet = client := by
        rcases h.suits_idle hidle hsuits with hprelude | ⟨settings, dimension, rfl⟩
        · cases packet with
          | playerPosition => rfl
          | changeDifficulty | foreign => exact absurd hcorrective (by simp [CorrectionSlot.of?])
          | _ => exact absurd hprelude id
        · exact absurd trivial hentrance
      rw [hsame]
      exact h.idle hidle
    · obtain ⟨stage, hstage, rfl⟩ := Option.map_eq_some_iff.1 hstage'
      have hshown := h.busy stage hstage
      exact hshown.receive (horder.current stage hstage).1 (h.sound.current stage hstage)
        (hshown.minY_eq ▸ hsuits.fits) hentrance hcorrective

/-- What a client shows now is what the story tells of every moment from now on. -/
theorem Knows.depicts (h : ledger.Knows client now) (horder : ledger.Orderly now) (hs : now ≤ s)
    (hlast : s < Time.last) : ledger.story.Depicts s client := by
  cases hcurrent : ledger.current with
  | none =>
    obtain ⟨hnil, hblank⟩ := h.idle hcurrent
    rw [story_of_none hcurrent]
    refine (Story.depicts_of_none (Timeline.floor?_eq_none_iff.2 fun e he => ?_)).2 hblank
    obtain ⟨e', he', -⟩ := List.mem_map.1 he
    exact absurd (hnil ▸ he') List.not_mem_nil
  | some stage =>
    obtain ⟨horderly, hkeys⟩ := horder.current stage hcurrent
    rw [depicts_of_some hcurrent hkeys, if_pos (Int.le_trans horderly.start_le hs)]
    exact (h.busy stage hcurrent).plays horderly hs hlast

/-- A ledger that knows what a client shows to which the whole recording has been applied, and tells
what it showed at every moment. -/
structure Follows (ledger : Ledger) (recording : Recording) (now : Time) : Prop where
  knows : ledger.Knows recording.client now
  depicts : ∀ t, t < Time.last → ledger.story.Depicts t (recording.clientAt t)
  snapshots : ∀ t, (ledger.snapshots.at? t).getD [] = (recording.clientAt t).corrections.values

/-- A ledger of nothing follows nothing. -/
theorem follows_blank : blank.Follows [] 0 where
  knows := ⟨all_blank _, fun _ => ⟨rfl, rfl⟩, (all_blank _).current, rfl⟩
  depicts _ _ := (Story.depicts_of_none rfl).2 rfl
  snapshots _ := rfl

/-- **A recording whose packets all suit the client is followed.** -/
theorem After.follows (h : After recording now ledger)
    (hsuits : ∀ front t packet back, recording = front ++ (t, packet) :: back →
      packet.Suits (Recording.client front)) : ledger.Follows recording now := by
  induction h with
  | blank => exact follows_blank
  | @packet recording now t ledger ledger' packet hbefore hle hreceives ih =>
    have hfollows := ih fun front t' packet' back hsplit =>
      hsuits front t' packet' (back ++ [(t, packet)]) (by rw [hsplit, List.append_assoc]; rfl)
    have horder := hbefore.orderly.mono hle
    have horder' := hreceives.orderly horder
    have hknows := (hfollows.knows.mono hle).receive horder hreceives
      (hsuits recording t packet [] rfl)
    rw [← Recording.client_concat (t := t)] at hknows
    have hafter := After.packet hbefore hle hreceives
    refine ⟨hknows, fun s hlast => ?_, hafter.at?_snapshots⟩
    by_cases hs : s < t
    · rw [Recording.clientAt_concat_of_lt hs]
      exact hreceives.depicts horder hs hlast (hfollows.depicts s hlast)
    · have hle' := Int.not_lt.1 hs
      rw [Recording.clientAt_eq_client fun e he => Int.le_trans (hafter.times e he) hle']
      exact hknows.depicts horder' hle' hlast

end Ledger

end Playhead
