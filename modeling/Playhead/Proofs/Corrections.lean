import Mathlib.Data.List.Induction
import Playhead.Proofs.Indexer.Sessions
import Playhead.Proofs.Locality
import Playhead.Proofs.Seeking

/-!
# Corrective packets across sessions

In effect at a moment is, of each slot, the latest corrective packet since the last join
(`Playhead.Recording.inEffect?`). This file is about seeks on whose way there is a join, so that
their ends lie in two sessions.

Such a seek shows all that is in effect at its target. What becomes of the slots that are not in use
there is decided by the settings of the two sessions
(`Playhead.Recording.corrections_across_sessions`). If they differ, the client joins, which takes
everything away from it, and is shown just what is in effect. If they are equal, a respawn is
thought to suffice. That takes no corrective packet away, so a slot that was in use only in the
session that was left still shows what was in effect there. A client to which the packets are
applied as they were recorded does not show it: a join that comes to it always wipes all slots.

Nothing is asked of what the packets bring; only the joins and the corrective packets of a recording
count here, and the things and channels of its worlds leave the corrective packets alone
(`Playhead.Volume.KnowsSessions.corrections_world`).
-/

namespace Playhead

/-! ### What is in effect -/

/-- What was heard since the last join. -/
def sinceJoin (heard : List Packet) : List Packet :=
  (heard.reverse.takeWhile fun packet => packet.join?.isNone).reverse

/-- The latest corrective packet of a slot. -/
def latest? (packets : List Packet) (slot : CorrectionSlot) : Option Packet :=
  packets.reverse.find? fun packet => CorrectionSlot.of? packet = some slot

namespace Recording

/-- The settings of the last join up to a moment. -/
def joinAt? (recording : Recording) (t : Time) : Option JoinSettings :=
  lastJoin? ((upTo recording t).map (·.2))

/-- The corrective packet that is in effect in a slot: the latest since the last join. -/
def inEffect? (recording : Recording) (t : Time) (slot : CorrectionSlot) : Option Packet :=
  latest? (sinceJoin ((upTo recording t).map (·.2))) slot

end Recording

/-- A join forgets what was heard before, and any other packet is heard in addition. -/
theorem sinceJoin_concat (heard : List Packet) (packet : Packet) :
    sinceJoin (heard ++ [packet]) =
      if packet.join?.isSome then [] else sinceJoin heard ++ [packet] := by
  rw [sinceJoin, List.reverse_concat, List.takeWhile_cons]
  cases packet.join? <;> simp [sinceJoin]

/-- The latest packet of a slot is the last one, if that is of the slot. -/
theorem latest?_concat (packets : List Packet) (packet : Packet) (slot : CorrectionSlot) :
    latest? (packets ++ [packet]) slot =
      if CorrectionSlot.of? packet = some slot then some packet else latest? packets slot := by
  rw [latest?, List.reverse_concat, List.find?_cons]
  by_cases h : CorrectionSlot.of? packet = some slot <;> simp [h, latest?]

namespace Client

variable {client : Client} {packets : List Packet}

/-- What a packet does to the corrections of a client: a join empties all slots, and a corrective
packet takes its own. -/
theorem get?_corrections_apply_eq (client : Client) (packet : Packet) (slot : CorrectionSlot) :
    (client.apply packet).corrections.get? slot =
      if packet.join?.isSome then none
      else if CorrectionSlot.of? packet = some slot then some packet
      else client.corrections.get? slot := by
  by_cases hentrance : packet.IsEntrance
  · cases packet <;> first | rfl | exact absurd hentrance id
  rw [Packet.join?_eq_none hentrance, Option.isSome_none, if_neg (by simp)]
  cases hslot : CorrectionSlot.of? packet with
  | none =>
    rw [corrections_apply client hentrance hslot, if_neg (by simp)]
  | some slot' =>
    rw [apply_corrective client hslot, SortedMap.get?_insert]
    simp only [Option.some.injEq, eq_comm]

/-- **A client has in each slot the latest corrective packet since the last join.** -/
theorem get?_corrections_applyAll_blank (heard : List Packet) (slot : CorrectionSlot) :
    (blank.applyAll heard).corrections.get? slot = latest? (sinceJoin heard) slot := by
  induction heard using List.reverseRecOn with
  | nil => rfl
  | append_singleton heard packet ih =>
    rw [applyAll_append, applyAll_cons, applyAll, List.foldl_nil, get?_corrections_apply_eq,
      sinceJoin_concat, ih]
    split
    · rfl
    · rw [latest?_concat]

/-- The settings that a client has been told are those of the last join. -/
theorem join_applyAll_blank (heard : List Packet) :
    (blank.applyAll heard).join = lastJoin? heard := by
  induction heard using List.reverseRecOn with
  | nil => rfl
  | append_singleton heard packet ih =>
    rw [applyAll_append, applyAll_cons, applyAll, List.foldl_nil, join_apply_eq, ih,
      lastJoin?_append]
    cases h : packet.join? <;> simp [lastJoin?, h]

/-- Packets that bring the client nowhere and are not corrective leave the corrective ones alone. -/
theorem corrections_applyAll
    (h : ∀ p ∈ packets, ¬ p.IsEntrance ∧ CorrectionSlot.of? p = none) :
    (client.applyAll packets).corrections = client.corrections := by
  induction packets generalizing client with
  | nil => rfl
  | cons p packets ih =>
    obtain ⟨hentrance, hcorrective⟩ := h p List.mem_cons_self
    rw [applyAll_cons, ih fun q hq => h q (List.mem_cons_of_mem _ hq),
      corrections_apply client hentrance hcorrective]

end Client

/-! ### What worlds show -/

/-- A packet about a thing brings the client nowhere and is not corrective. -/
theorem Packet.IsOfThing.leaves {packet : Packet} (h : packet.IsOfThing) :
    ¬ packet.IsEntrance ∧ CorrectionSlot.of? packet = none := by
  cases packet <;> first | exact ⟨id, rfl⟩ | exact absurd h id

/-- Nor does one of a channel. -/
theorem Packet.leaves_of_channel {packet : Packet} {channel : Channel}
    (h : Channel.of? packet = some channel) :
    ¬ packet.IsEntrance ∧ CorrectionSlot.of? packet = none := by
  cases packet <;> first | exact ⟨id, rfl⟩ | exact absurd h (by simp [Channel.of?])

namespace Role

variable {role : Role} {direction : Direction} {a b : Time} {p : Packet}

/-- The packets that show and hide a thing are of the thing, so they are neither joins nor
corrections. -/
theorem isOfThing_appearance (role : Role) : role.appearance.IsOfThing := by
  cases role with
  | entity | chunk => trivial
  | weather => exact Packet.isOfThing_beginRain

theorem isOfThing_disappearance (role : Role) : role.disappearance.IsOfThing := by
  cases role with
  | entity | chunk => trivial
  | weather => exact Packet.isOfThing_endRain

/-- What is shown of a thing is about a thing, whether or not its blocks are in their place. -/
theorem isOfThing_shown (hp : p ∈ role.shown direction a b) : p.IsOfThing := by
  cases role with
  | entity =>
    rw [shown, entityDiscipline] at hp
    obtain ⟨-, e, -, hshown⟩ := Timeline.exists_mem_of_shown_snapshots hp
    obtain rfl := List.mem_singleton.1 hshown
    trivial
  | chunk =>
    obtain ⟨e, -, -, hshown | hshown⟩ := Timeline.exists_mem_of_shown_changes hp
    all_goals
      obtain ⟨c, -, rfl⟩ := List.mem_map.1 hshown
      trivial
  | weather =>
    rw [shown, weatherDiscipline] at hp
    obtain ⟨-, e, -, hshown⟩ := Timeline.exists_mem_of_shown_snapshots hp
    obtain rfl := List.mem_singleton.1 hshown
    exact Packet.isOfThing_rainLevel e.2

end Role

namespace Roster

variable {roster : Roster} {direction : Direction} {start target t : Time} {is : List Nat}
  {p : Packet}

/-- What is shown of those that leave is of things. -/
theorem isOfThing_departures (hp : p ∈ roster.departures is) : p.IsOfThing := by
  obtain ⟨_, -, q, -, -, hp⟩ := exists_of_mem_flatMap hp
  obtain rfl := List.mem_singleton.1 hp
  exact q.2.role.isOfThing_disappearance

/-- What is shown of those that enter is of things. -/
theorem isOfThing_arrivals (hp : p ∈ roster.arrivals t is) : p.IsOfThing := by
  obtain ⟨_, -, q, -, -, hp⟩ := exists_of_mem_flatMap hp
  rcases List.mem_cons.1 hp with rfl | hp
  · exact q.2.role.isOfThing_appearance
  · exact Role.isOfThing_shown hp

/-- What is shown of those that stay is of things. -/
theorem isOfThing_passages (hp : p ∈ roster.passages direction start target is) :
    p.IsOfThing := by
  obtain ⟨_, -, q, -, -, hp⟩ := exists_of_mem_flatMap hp
  exact Role.isOfThing_shown hp

/-- **All that a cast shows is about things.** -/
theorem Strides.isOfThing {moment : Option Time} {packets : List Packet}
    (h : roster.Strides moment direction start target packets) (hp : p ∈ packets) :
    p.IsOfThing := by
  obtain ⟨front, back, hfront, ⟨_, _, _, -, rfl⟩, rfl⟩ := h
  rcases List.mem_append.1 hp with hp | hp
  · split at hfront
    · rw [hfront] at hp
      exact absurd hp List.not_mem_nil
    · obtain ⟨_, _, -, -, -, -, rfl⟩ := hfront
      exact (List.mem_append.1 hp).elim isOfThing_departures isOfThing_arrivals
  · rcases List.mem_append.1 hp with hp | hp
    · exact isOfThing_departures hp
    · exact (List.mem_append.1 hp).elim isOfThing_arrivals isOfThing_passages

end Roster

/-- All that the channels show is in the packets of the channels. -/
theorem Chapter.exists_of_mem_channelsShown {chapter : Chapter} {direction : Direction}
    {start target : Time} {p : Packet} (hp : p ∈ chapter.channelsShown direction start target) :
    ∃ channel, ∃ e ∈ (chapter.line channel).entries, p = e.2 := by
  obtain ⟨channel, -, hp⟩ := List.mem_flatMap.1 hp
  obtain ⟨-, e, he, hshown⟩ := Timeline.exists_mem_of_shown_snapshots hp
  exact ⟨channel, e, he, List.mem_singleton.1 hshown⟩

/-! ### Seeks on whose way there is a join -/

/-- When the way leads over an entry, the entry in effect changes. -/
theorem Timeline.floorKey?_ne_of_onTheWay {V : Type} {line : Timeline V} {a b τ : Time}
    (hmem : τ ∈ line.keys) (hway : OnTheWay a b τ) : line.floorKey? a ≠ line.floorKey? b := by
  obtain ⟨e, he, rfl⟩ := List.mem_map.1 hmem
  obtain ⟨hlow, hhigh⟩ := hway
  intro hsame
  have hfloor := floor?_eq_of_floorKey?_eq hsame
  obtain ⟨k, v, hk, hle⟩ : ∃ k v, line.floor? (max a b) = some (k, v) ∧ e.1 ≤ k :=
    exists_floor? he hhigh
  have hmin : line.floor? (min a b) = some (k, v) := by
    rcases Int.le_total a b with hab | hab
    · rwa [Int.min_eq_left hab, hfloor, ← Int.max_eq_right hab]
    · rwa [Int.min_eq_right hab, ← hfloor, ← Int.max_eq_left hab]
  obtain ⟨-, hbefore, -⟩ := floor?_eq_some_iff.1 hmin
  lia

namespace Volume

variable {volume : Volume} {recording : Recording} {a b : Time} {direction : Direction}
  {packets : List Packet} {client : Client}

/-- A join on the way begins a world and a snapshot there. -/
theorem KnowsSessions.parted (h : volume.KnowsSessions recording)
    (hjoin : ∃ e ∈ recording, OnTheWay a b e.1 ∧ e.2.join? ≠ none) :
    volume.keyAt (some a) ≠ volume.keyAt (some b) ∧
      volume.corrections.floorKey? a ≠ volume.corrections.floorKey? b := by
  obtain ⟨e, he, hway, hjoin⟩ := hjoin
  obtain ⟨hworld, hsnapshot⟩ := h.begun e he hjoin
  exact ⟨Timeline.floorKey?_ne_of_onTheWay hworld hway,
    Timeline.floorKey?_ne_of_onTheWay hsnapshot hway⟩

/-- What is shown of the corrections: all that are in effect, or nothing if they were in effect
already. -/
theorem KnowsSessions.shown_corrections (h : volume.KnowsSessions recording)
    (hlead : direction.leads a b) :
    volume.corrections.shown correctionDiscipline direction a b =
      if volume.corrections.floorKey? a = volume.corrections.floorKey? b then []
      else (recording.clientAt b).corrections.values := by
  rw [Volume.shown_corrections hlead, h.corrections]

/-- Before the recording nothing is in effect. -/
theorem KnowsSessions.corrections_origin (h : volume.KnowsSessions recording) :
    (recording.clientAt origin).corrections = .empty :=
  Volume.corrections_origin h.corrections fun e he => (h.snapshots e he).1

/-- What a step of the corrections shows is corrective. -/
theorem KnowsSessions.corrective_shown (h : volume.KnowsSessions recording)
    (direction : Direction) (a b : Time) :
    ∀ p ∈ volume.corrections.shown correctionDiscipline direction a b,
      CorrectionSlot.of? p ≠ none := by
  intro p hp
  obtain ⟨-, e, he, hp⟩ := Timeline.exists_mem_of_shown_snapshots hp
  exact (h.snapshots e he).2 p hp

/-- From the beginning on, all that is in effect is shown. -/
theorem KnowsSessions.corrected_shown (h : volume.KnowsSessions recording) (hb : 0 ≤ b) :
    corrected .empty (volume.corrections.shown correctionDiscipline .forward origin b) =
      (recording.clientAt b).corrections := by
  have hlead : Direction.forward.leads origin b = true := by
    rw [Direction.leads_forward, origin]
    lia
  rw [h.shown_corrections hlead]
  split
  · next hsame =>
    rw [← corrections_congr h.corrections hsame, h.corrections_origin]
    rfl
  · exact corrected_empty recording b

/-- The corrective packets after an entrance: those that there were, if a respawn is thought to
suffice, and else just those in effect. -/
theorem KnowsSessions.corrections_entrance (h : volume.KnowsSessions recording) (hb : 0 ≤ b)
    (previous : Option WorldInfo) (info : WorldInfo) (client : Client) :
    (client.applyAll (volume.entrance previous info b)).corrections =
      if previous.any (·.respawnSuffices info) then client.corrections
      else (recording.clientAt b).corrections := by
  rw [entrance]
  split
  · rfl
  · rw [Client.applyAll_cons, Client.applyAll_append,
      Client.applyAll_corrective _ (h.corrective_shown .forward origin b)]
    exact h.corrected_shown hb

/-- What a world shows leaves the corrective packets alone. -/
theorem KnowsSessions.corrections_world (h : volume.KnowsSessions recording) {key : Time}
    {chapter : Chapter} {things : List Packet} {moment : Option Time} {start : Time}
    (hfloor : volume.chapters.floor? b = some (key, chapter))
    (hstrides : chapter.roster.Strides moment direction start b things) (client : Client) :
    (client.applyAll (things ++ chapter.channelsShown direction start b)).corrections =
      client.corrections := by
  refine Client.corrections_applyAll fun p hp => ?_
  rcases List.mem_append.1 hp with hp | hp
  · exact (hstrides.isOfThing hp).leaves
  · obtain ⟨channel, e, he, rfl⟩ := Chapter.exists_of_mem_channelsShown hp
    exact Packet.leaves_of_channel
      (h.kinds _ (Timeline.floor?_eq_some_iff.1 hfloor).1 channel e he)

/-- **What the worlds make of the corrective packets**: they leave them alone, or the client joins
and has just those in effect. -/
theorem KnowsSessions.corrections_shows (h : volume.KnowsSessions recording) (hb : 0 ≤ b)
    {moment : Option Time} {start : Time} {worlds : List Packet}
    (hworlds : volume.Shows moment direction start b worlds) (client : Client) :
    (client.applyAll worlds).corrections = client.corrections ∨
      (client.applyAll worlds).corrections = (recording.clientAt b).corrections := by
  cases hworlds with
  | stay hfloor _ hstrides => exact .inl (h.corrections_world hfloor hstrides client)
  | leave => exact .inl rfl
  | enter hfloor _ hstrides =>
    rw [Client.applyAll_append, h.corrections_world hfloor hstrides, h.corrections_entrance hb]
    split
    · exact .inl rfl
    · exact .inr rfl

end Volume

/-- Whether a client has all corrective packets of a map. -/
def Client.Heeds (client : Client) (effect : SortedMap CorrectionSlot Packet) : Prop :=
  ∀ slot p, effect.get? slot = some p → client.corrections.get? slot = some p

namespace Volume

variable {volume : Volume} {recording : Recording} {a b : Time} {packets : List Packet}
  {client : Client}

/-- **A client that had all that was in effect has, after a seek, all that is.** -/
theorem KnowsSessions.heeds_seek (h : volume.KnowsSessions recording) (hb : 0 ≤ b)
    {moment : Option Time} (hother : moment ≠ some b)
    (hshows : volume.SeekShows moment b packets)
    (hclient : client.Heeds (recording.clientAt (moment.getD origin)).corrections) :
    (client.applyAll packets).Heeds (recording.clientAt b).corrections := by
  obtain ⟨worlds, hworlds, rfl⟩ := hshows
  have hfirst : (client.applyAll (volume.corrections.shown correctionDiscipline
      (seekDirection moment b) (moment.getD origin) b)).Heeds
        (recording.clientAt b).corrections := by
    intro slot p hp
    rw [Client.applyAll_corrective client (h.corrective_shown _ _ _),
      h.shown_corrections (leads_seekDirection hb hother)]
    split
    · next hsame =>
      rw [← corrections_congr h.corrections hsame] at hp
      exact hclient slot p hp
    · dsimp only
      rw [get?_corrected_values _ (recording.slotsMatch_clientAt b), hp, Option.some_or]
  rw [Client.applyAll_append]
  intro slot p hp
  rcases h.corrections_shows hb hworlds (client.applyAll _) with hkept | hjoined
  · rw [hkept]
    exact hfirst slot p hp
  · rwa [hjoined]

/-- A respawn is thought to suffice between worlds of equal settings. -/
theorem KnowsSessions.respawnSuffices_iff (h : volume.KnowsSessions recording) {key : Time}
    {chapter : Chapter} (hfloor : volume.chapters.floor? b = some (key, chapter)) :
    (volume.infoAt (some a)).any (·.respawnSuffices chapter.header.info) = true ↔
      recording.joinAt? a = recording.joinAt? b := by
  have hjoin (t : Time) : (volume.infoAt (some t)).map (·.join) = recording.joinAt? t :=
    (h.join t).trans (Client.join_applyAll_blank _)
  have hinfo : volume.infoAt (some b) = some chapter.header.info := by
    rw [infoAt, Option.bind_some, hfloor]
    rfl
  rw [← hjoin a, ← hjoin b, hinfo]
  cases volume.infoAt (some a) <;> simp [WorldInfo.respawnSuffices]

/-- **What a seek to another session makes of the corrective packets**: all that are in effect are
shown, and whether anything is taken away depends on the settings. -/
theorem KnowsSessions.get?_corrections_seek (h : volume.KnowsSessions recording) (hb : 0 ≤ b)
    {settings : JoinSettings} {dimension : Dimension} {rest : Recording}
    (hbegins : recording = (0, .joinGame settings dimension) :: rest)
    (hjoin : ∃ e ∈ recording, OnTheWay a b e.1 ∧ e.2.join? ≠ none)
    (hshows : volume.SeekShows (some a) b packets) (client : Client) (slot : CorrectionSlot) :
    (client.applyAll packets).corrections.get? slot =
      if recording.joinAt? a = recording.joinAt? b then
        (recording.inEffect? b slot).or (client.corrections.get? slot)
      else recording.inEffect? b slot := by
  obtain ⟨worlds, hworlds, rfl⟩ := hshows
  obtain ⟨hworld, hsnapshot⟩ := h.parted hjoin
  have hlead : (seekDirection (some a) b).leads a b = true :=
    leads_seekDirection hb fun hsame => hworld (hsame ▸ rfl)
  have heffect : (recording.clientAt b).corrections.get? slot = recording.inEffect? b slot :=
    Client.get?_corrections_applyAll_blank _ slot
  rw [Client.applyAll_append]
  cases hworlds with
  | stay hfloor hsame => exact absurd (hsame.trans (keyAt_some hfloor).symm) hworld
  | leave hfloor =>
    -- the first world has begun by then
    have hmem : (0, Packet.joinGame settings dimension) ∈ recording :=
      hbegins ▸ List.mem_cons_self
    obtain ⟨e, he, hkey⟩ := List.mem_map.1 (h.begun _ hmem (Option.some_ne_none settings)).1
    exact absurd (Timeline.floor?_eq_none_iff.1 hfloor e he) (Int.not_lt.2 (hkey ▸ hb))
  | enter hfloor _ hstrides =>
    rw [Client.applyAll_append, h.corrections_world hfloor hstrides, h.corrections_entrance hb]
    simp only [h.respawnSuffices_iff hfloor]
    split
    · rw [Client.applyAll_corrective client (h.corrective_shown _ _ _), Option.getD_some,
        h.shown_corrections hlead, if_neg hsnapshot, ← heffect]
      exact get?_corrected_values _ (recording.slotsMatch_clientAt b) slot
    · exact heffect

end Volume

namespace Seeker

/-- The seekers that seeks can lead to, whether these succeed or fail, each with a client that has
been shown all that was emitted on the way. -/
inductive Watched (log : Log) (root : Handle) : Seeker → Client → Prop
  | opened {seeker : Seeker} (opens : openAt log root = .ok seeker) : Watched log root seeker .blank
  | sought {seeker : Seeker} {client : Client} (before : Watched log root seeker client)
      (target : Time) :
      Watched log root (seeker.seek log target).state
        (client.applyAll (seeker.seek log target).emitted)

variable {log : Log} {root : Handle} {seeker : Seeker} {client : Client}

/-- A seeker that a client has been watched with was opened. -/
theorem Watched.exists_opened (h : Watched log root seeker client) :
    ∃ first, openAt log root = .ok first := by
  induction h with
  | opened hopen => exact ⟨_, hopen⟩
  | sought _ _ ih => exact ih

/-- **Whatever seeks there were, the client has all corrective packets in effect.** -/
theorem Watched.heeds {volume : Volume} {recording : Recording}
    (h : Watched log root seeker client) (hstored : volume.StoredIn log root)
    (hknows : volume.KnowsSessions recording) :
    ∃ moment, seeker = volume.seekerAt moment ∧
      client.Heeds (recording.clientAt (moment.getD origin)).corrections := by
  induction h with
  | opened hopen =>
    refine ⟨none, Except.ok.inj (hopen.symm.trans (Volume.openAt_eq hstored)), fun slot p hp => ?_⟩
    rw [Option.getD_none, hknows.corrections_origin] at hp
    exact absurd hp (by simp)
  | sought _ target ih =>
    obtain ⟨moment, rfl, hheeds⟩ := ih
    by_cases hnegative : target < 0
    · rw [Volume.seek_negative moment hnegative]
      exact ⟨moment, rfl, hheeds⟩
    · have htarget := Int.not_lt.1 hnegative
      refine ⟨some target, state_seek hstored moment htarget, ?_⟩
      by_cases hself : moment = some target
      · subst hself
        rw [Volume.seek_self target htarget]
        exact hheeds
      · obtain ⟨packets, hseek, hshows⟩ := Volume.seek_seekerAt hstored htarget hself
        rw [hseek]
        exact hknows.heeds_seek htarget hself hshows hheeds

end Seeker

/-! ### The statement -/

namespace Recording

variable {recording : Recording} {log log' : Log} {root : Handle} {seeker : Seeker}
  {client : Client} {a b : Time}

/-- **Corrective packets across sessions.** Take a recording that begins with a join, whatever its
packets bring, and a seeker on its index whose client has been shown all that was ever emitted. A
seek on whose way there is a join succeeds, and after it the client has

* in every slot that is in use at the target what is in effect there;
* in the other slots nothing, if the settings of the two sessions differ;
* but if they are equal, in the other slots what it had before – in those that were in use in the
  session that was left, what was in effect there. -/
theorem corrections_across_sessions (hlog : log.Faithful)
    (htimes : ∀ e ∈ recording, e.1 ≤ Time.last) {settings : JoinSettings} {dimension : Dimension}
    {rest : Recording} (hbegins : recording = (0, .joinGame settings dimension) :: rest)
    (hindex : recording.index log = .ok (root, log'))
    (hwatched : Seeker.Watched log' root seeker client) (hcurrent : seeker.current = some a)
    (hb : 0 ≤ b) (hjoin : ∃ e ∈ recording, OnTheWay a b e.1 ∧ e.2.join? ≠ none) :
    ∃ seeker' packets, seeker.seek log' b = .emit seeker' packets ∧
      let after := (client.applyAll packets).corrections
      (∀ slot p, recording.inEffect? b slot = some p → after.get? slot = some p) ∧
      (recording.joinAt? a ≠ recording.joinAt? b →
        ∀ slot, recording.inEffect? b slot = none → after.get? slot = none) ∧
      (recording.joinAt? a = recording.joinAt? b →
        ∀ slot, recording.inEffect? b slot = none →
          after.get? slot = client.corrections.get? slot ∧
            ∀ p, recording.inEffect? a slot = some p → after.get? slot = some p) := by
  obtain ⟨first, hopen⟩ := hwatched.exists_opened
  obtain ⟨volume, hstored, hknows⟩ := exists_sessions hlog htimes hindex hopen
  obtain ⟨moment, rfl, hheeds⟩ := hwatched.heeds hstored hknows
  obtain rfl : moment = some a := hcurrent
  -- a join lies between the two moments, so they differ
  obtain ⟨packets, hseek, hshows⟩ := Volume.seek_seekerAt hstored hb fun hsame =>
    (hknows.parted hjoin).1 (hsame ▸ rfl)
  have hslots := hknows.get?_corrections_seek hb hbegins hjoin hshows client
  refine ⟨_, packets, hseek, fun slot p hp => ?_, fun hother slot hslot => ?_,
    fun hsame slot hslot => ?_⟩
  · rw [hslots, hp, Option.some_or, ite_self]
  · rw [hslots, if_neg hother, hslot]
  · have hkept := hslots slot
    rw [if_pos hsame, hslot, Option.none_or] at hkept
    refine ⟨hkept, fun p hp => hkept.trans (hheeds slot p ?_)⟩
    exact (Client.get?_corrections_applyAll_blank _ slot).trans hp

/-- A client joins, the difficulty is set, and the client joins again in the same settings. -/
def reconnection : Recording :=
  [(0, .joinGame ⟨1, false, 0, 8, []⟩ ⟨"overworld", 0, 0, false, 0⟩), (1, .changeDifficulty 3 true),
    (5, .joinGame ⟨1, false, 0, 8, []⟩ ⟨"overworld", 0, 0, false, 0⟩)]

/-- From the one session to the other: the difficulty is still shown. -/
theorem corrections_across_sessions_reconnection : ∃ root log' seeker client seeker' packets,
    reconnection.index (.inMemory none) = .ok (root, log') ∧
      Seeker.Watched log' root seeker client ∧ seeker.current = some 2 ∧
      seeker.seek log' 6 = .emit seeker' packets ∧
      (client.applyAll packets).corrections.get? .difficulty = some (.changeDifficulty 3 true) := by
  have hlog : (Log.inMemory none).Faithful := rfl
  obtain ⟨root, log', first, hindex, hopen⟩ :=
    Seeker.exists_openAt (x := reconnection.index (.inMemory none)) (by decide +kernel)
  obtain ⟨volume, hstored, -⟩ := exists_sessions hlog (by decide +kernel) hindex hopen
  obtain rfl := Except.ok.inj (hopen.symm.trans (Volume.openAt_eq hstored))
  have hwatched := (Seeker.Watched.opened hopen).sought 2
  have hcurrent : ((volume.seekerAt none).seek log' 2).state.current = some 2 :=
    congrArg Seeker.current (Seeker.state_seek hstored none (by decide : (0 : Time) ≤ 2))
  obtain ⟨seeker', packets, hseek, -, -, hkept⟩ := corrections_across_sessions hlog
    (by decide +kernel) rfl hindex hwatched hcurrent (by decide : (0 : Time) ≤ 6)
    ⟨_, List.mem_of_getElem? (i := 2) rfl, by decide, by decide⟩
  exact ⟨root, log', _, _, seeker', packets, hindex, hwatched, hcurrent, hseek,
    (hkept (by decide) .difficulty (by decide)).2 _ (by decide)⟩

/-- So the difficulty of the first session leaks: a client that was taken to 2 and then to 6 shows
it, and no difficulty has been set between the second join and then. -/
theorem difficulty_leaks : ∃ root log' first second third packets packets',
    reconnection.index (.inMemory none) = .ok (root, log') ∧ Seeker.openAt log' root = .ok first ∧
      first.seek log' 2 = .emit second packets ∧ second.seek log' 6 = .emit third packets' ∧
      (∃ e ∈ reconnection, OnTheWay 2 6 e.1 ∧ e.2.join? ≠ none) ∧
      reconnection.inEffect? 6 .difficulty = none ∧
      ((Client.blank.applyAll packets).applyAll packets').corrections.get? .difficulty =
        some (.changeDifficulty 3 true) := by
  have hlog : (Log.inMemory none).Faithful := rfl
  obtain ⟨root, log', first, hindex, hopen⟩ :=
    Seeker.exists_openAt (x := reconnection.index (.inMemory none)) (by decide +kernel)
  obtain ⟨volume, hstored, hknows⟩ := exists_sessions hlog (by decide +kernel) hindex hopen
  obtain rfl := Except.ok.inj (hopen.symm.trans (Volume.openAt_eq hstored))
  have hjoin : ∃ e ∈ reconnection, OnTheWay 2 6 e.1 ∧ e.2.join? ≠ none :=
    ⟨_, List.mem_of_getElem? (i := 2) rfl, by decide, by decide⟩
  obtain ⟨packets, hseek, hshows⟩ := Volume.seek_seekerAt hstored (by decide : (0 : Time) ≤ 2)
    (Option.some_ne_none 2).symm
  obtain ⟨packets', hseek', hshows'⟩ := Volume.seek_seekerAt hstored (by decide : (0 : Time) ≤ 6)
    (by decide : some 2 ≠ some (6 : Time))
  have hshown : (Client.blank.applyAll packets).corrections.get? .difficulty =
      some (.changeDifficulty 3 true) := by
    refine hknows.heeds_seek (by decide) (Option.some_ne_none 2).symm hshows ?_ _ _ (by decide)
    rw [Option.getD_none, hknows.corrections_origin]
    exact fun slot p hp => absurd hp (by simp)
  refine ⟨root, log', _, _, _, packets, packets', hindex, hopen, hseek, hseek', hjoin,
    by decide, ?_⟩
  rw [hknows.get?_corrections_seek (by decide) rfl hjoin hshows', if_pos (by decide), hshown]
  decide

end Recording

end Playhead
