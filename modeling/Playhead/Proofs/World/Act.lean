import Playhead.Packet.Correction
import Playhead.Proofs.World.Chapter

/-!
# A client that plays a world

An **act** is what a client can be shown of a world: the info, the lives and the channels. A client
plays an act at a moment (`Playhead.Act.Plays`) when it is in that world, shows the lives of the
moment, and shows on every channel the latest packet. Clients that play the same act at the same
moment show the same scene (`Playhead.Act.Plays.sameScene`).

A step of a chapter takes a client that plays it to the target (`Playhead.Chapter.plays_stay`), and
a client that has just been brought into the world plays it once it is played from its beginning
(`Playhead.Chapter.plays_enter`).

The corrective packets are apart from that: `Playhead.corrected` says what a client has of them
after more of them arrive.
-/

namespace Playhead

/-! ### Channels -/

namespace Client

/-- The packet that would show on a channel what the client shows there. -/
def signal (client : Client) : Channel → Packet
  | .viewCenter => .setViewCenter client.viewCenter.1 client.viewCenter.2
  | .viewDistance => .setViewDistance client.viewDistance
  | .clock => .setTime client.worldAge client.timeOfDay
  | .thunder => .thunderLevel client.thunderLevel

theorem signal_bare (client : Client) : client.bare.signal = client.signal := by
  funext channel
  cases channel <;> rfl

/-- A client that is like another one, except perhaps on the channels. -/
structure Tunes (client client' : Client) (next : Channel → Packet) : Prop where
  join : client'.join = client.join
  dimension : client'.dimension = client.dimension
  corrections : client'.corrections = client.corrections
  look : client'.look = client.look
  sound : client'.Sound
  signal : client'.signal = next

theorem Tunes.trans {a b c : Client} {next next' : Channel → Packet} (h : a.Tunes b next)
    (h' : b.Tunes c next') : a.Tunes c next' where
  join := h'.join.trans h.join
  dimension := h'.dimension.trans h.dimension
  corrections := h'.corrections.trans h.corrections
  look := h'.look.trans h.look
  sound := h'.sound
  signal := h'.signal

/-- **A packet of a channel changes that channel and nothing else.** -/
theorem tunes_apply {client : Client} (h : client.Sound) {packet : Packet} {channel : Channel}
    (hchannel : Channel.of? packet = some channel) :
    client.Tunes (client.apply packet) (Function.update client.signal channel packet) := by
  cases packet with
  | setViewCenter x z =>
    obtain rfl := Option.some.inj hchannel
    refine ⟨rfl, rfl, rfl, rfl, ⟨h.columns, h.dry⟩, ?_⟩
    funext channel
    cases channel <;> rfl
  | setViewDistance distance =>
    obtain rfl := Option.some.inj hchannel
    refine ⟨rfl, rfl, rfl, rfl, ⟨h.columns, h.dry⟩, ?_⟩
    funext channel
    cases channel <;> rfl
  | setTime worldAge timeOfDay =>
    obtain rfl := Option.some.inj hchannel
    refine ⟨rfl, rfl, rfl, rfl, ⟨h.columns, h.dry⟩, ?_⟩
    funext channel
    cases channel <;> rfl
  | gameEvent event value =>
    rw [Channel.of?] at hchannel
    by_cases hevent : event = GameEvent.thunderLevel
    · subst hevent
      rw [if_pos rfl] at hchannel
      obtain rfl := Option.some.inj hchannel
      refine ⟨rfl, rfl, rfl, rfl, ⟨h.columns, h.dry⟩, ?_⟩
      funext channel
      cases channel <;> rfl
    · exact absurd hchannel (by simp [hevent])
  | _ => exact absurd hchannel (by simp [Channel.of?])

/-- Channels are shown one after the other, those that have not changed by nothing. -/
theorem tunes_applyAll {client : Client} (h : client.Sound) {next : Channel → Packet}
    (hnext : ∀ channel, Channel.of? (next channel) = some channel)
    {shown : Channel → List Packet} (channels : List Channel)
    (hshown : ∀ channel ∈ channels, shown channel = [next channel] ∨
      (shown channel = [] ∧ client.signal channel = next channel))
    (hothers : ∀ channel, channel ∉ channels → client.signal channel = next channel) :
    client.Tunes (client.applyAll (channels.flatMap shown)) next := by
  induction channels generalizing client with
  | nil => exact ⟨rfl, rfl, rfl, rfl, h, funext fun channel => hothers channel List.not_mem_nil⟩
  | cons first channels ih =>
    -- the first channel takes its packet, or has it already
    have hfirst : client.Tunes (client.applyAll (shown first))
        (Function.update client.signal first (next first)) := by
      rcases hshown first List.mem_cons_self with hs | ⟨hs, hsame⟩
      · rw [hs]
        exact tunes_apply h (hnext first)
      · rw [hs, ← hsame, Function.update_eq_self]
        exact ⟨rfl, rfl, rfl, rfl, h, rfl⟩
    -- a channel that is right stays right
    have hsignal (channel : Channel) (hs : client.signal channel = next channel) :
        (client.applyAll (shown first)).signal channel = next channel := by
      rw [hfirst.signal]
      by_cases hc : channel = first
      · rw [hc, Function.update_self]
      · rw [Function.update_of_ne hc, hs]
    rw [List.flatMap_cons, applyAll_append]
    refine hfirst.trans (ih hfirst.sound (fun channel hc => ?_) fun channel hc => ?_)
    · exact (hshown channel (List.mem_cons_of_mem _ hc)).imp_right fun hs =>
        ⟨hs.1, hsignal channel hs.2⟩
    · by_cases hcf : channel = first
      · rw [hfirst.signal, hcf, Function.update_self]
      · exact hsignal channel (hothers channel (by simp [hcf, hc]))

end Client

/-! ### Acts -/

/-- What a client can be shown of a world. -/
structure Act where
  info : WorldInfo
  lives : Set Life
  line : Channel → Timeline Packet

namespace Act

/-- The lowest height of the world. -/
def minY (act : Act) : Int32 := act.info.dimension.minY

/-- A client that is in the world and shows it as it is at a moment. -/
structure Plays (act : Act) (t : Time) (client : Client) : Prop where
  sound : client.Sound
  join : client.join = some act.info.join
  dimension : client.dimension = some act.info.dimension
  shows : client.Shows act.minY act.lives t
  signals : ∀ channel, (act.line channel).at? t = some (client.signal channel)

variable {act : Act} {t : Time} {client : Client}

theorem Plays.minY_eq (h : act.Plays t client) : client.minY = act.minY := by
  rw [Client.minY, h.dimension]
  rfl

/-- Whatever corrective packets a client has, it plays the act. -/
theorem Plays.setCorrections (h : act.Plays t client)
    (corrections : SortedMap CorrectionSlot Packet) :
    act.Plays t { client with corrections } :=
  ⟨⟨h.sound.columns, h.sound.dry⟩, h.join, h.dimension, h.shows.of_look rfl, fun channel =>
    (h.signals channel).trans (by cases channel <;> rfl)⟩

/-- **Clients that play the same act show the same scene.** -/
theorem Plays.sameScene {a b : Client} (ha : act.Plays t a) (hb : act.Plays t b) :
    a.SameScene b := by
  have hsignal (channel : Channel) : a.signal channel = b.signal channel :=
    Option.some.inj ((ha.signals channel).symm.trans (hb.signals channel))
  have hcenter : a.viewCenter.1 = b.viewCenter.1 ∧ a.viewCenter.2 = b.viewCenter.2 :=
    Packet.setViewCenter.inj (hsignal .viewCenter)
  have hclock : a.worldAge = b.worldAge ∧ a.timeOfDay = b.timeOfDay :=
    Packet.setTime.inj (hsignal .clock)
  have hthunder : a.thunderLevel = b.thunderLevel :=
    (Packet.gameEvent.inj (hsignal .thunder)).2
  have hdistance : a.viewDistance = b.viewDistance :=
    Packet.setViewDistance.inj (hsignal .viewDistance)
  -- the corrections, which the scene leaves out, may differ
  have halike : ({ a with corrections := b.corrections } : Client).Alike b := by
    refine ⟨?_, ha.shows.look_eq hb.shows⟩
    simp only [Client.bare, Client.mk.injEq, true_and, and_true]
    exact ⟨ha.join.trans hb.join.symm, ha.dimension.trans hb.dimension.symm, hthunder, hclock.1,
      hclock.2, Prod.ext hcenter.1 hcenter.2, hdistance⟩
  have hsame := halike.sameScene ⟨ha.sound.columns, ha.sound.dry⟩ hb.sound
  exact { hsame with }

end Act

/-! ### Corrective packets -/

/-- The corrective packets in effect after more of them. -/
def corrected (m : SortedMap CorrectionSlot Packet) (packets : List Packet) :
    SortedMap CorrectionSlot Packet :=
  packets.foldl (fun m p => match CorrectionSlot.of? p with
    | some slot => m.insert slot p
    | none => m) m

/-- Corrective packets change nothing else. -/
theorem Client.applyAll_corrective (client : Client) {packets : List Packet}
    (h : ∀ p ∈ packets, CorrectionSlot.of? p ≠ none) :
    client.applyAll packets =
      { client with corrections := corrected client.corrections packets } := by
  induction packets generalizing client with
  | nil => rfl
  | cons p packets ih =>
    have hp : client.apply p = { client with corrections := corrected client.corrections [p] } := by
      have hcorrective := h p List.mem_cons_self
      cases p with
      | changeDifficulty | foreign => rfl
      | _ => exact absurd rfl hcorrective
    rw [Client.applyAll_cons, ih _ fun q hq => h q (List.mem_cons_of_mem _ hq), hp]
    rfl

/-- Each packet is in its own slot. -/
def SlotsMatch (m : SortedMap CorrectionSlot Packet) : Prop :=
  ∀ e ∈ m.entries, CorrectionSlot.of? e.2 = some e.1

/-- What a map of corrective packets has in its slots prevails over what was there. -/
theorem get?_corrected (m : SortedMap CorrectionSlot Packet)
    {l : List (CorrectionSlot × Packet)} (h : ∀ e ∈ l, CorrectionSlot.of? e.2 = some e.1)
    (hnodup : (l.map (·.1)).Nodup) :
    (∀ e ∈ l, (corrected m (l.map (·.2))).get? e.1 = some e.2) ∧
      ∀ slot, slot ∉ l.map (·.1) → (corrected m (l.map (·.2))).get? slot = m.get? slot := by
  induction l generalizing m with
  | nil => exact ⟨fun e he => absurd he List.not_mem_nil, fun _ _ => rfl⟩
  | cons first l ih =>
    obtain ⟨hfirst, hnodup⟩ := List.nodup_cons.1 hnodup
    have hstep : corrected m ((first :: l).map (·.2)) =
        corrected (m.insert first.1 first.2) (l.map (·.2)) := by
      rw [List.map_cons, corrected, List.foldl_cons, h first List.mem_cons_self]
      rfl
    obtain ⟨hthere, hothers⟩ :=
      ih (m.insert first.1 first.2) (fun e he => h e (List.mem_cons_of_mem _ he)) hnodup
    rw [hstep]
    refine ⟨fun e he => ?_, fun slot hslot => ?_⟩
    · rcases List.mem_cons.1 he with rfl | he
      · rw [hothers e.1 hfirst, SortedMap.get?_insert, if_pos rfl]
      · exact hthere e he
    · rw [List.map_cons, List.mem_cons, not_or] at hslot
      rw [hothers slot hslot.2, SortedMap.get?_insert_of_ne _ hslot.1]

/-- **After all corrective packets of a map have been shown**, its slots have them, and the others
have what was there. -/
theorem get?_corrected_values (m : SortedMap CorrectionSlot Packet)
    {n : SortedMap CorrectionSlot Packet} (hn : SlotsMatch n) (slot : CorrectionSlot) :
    (corrected m n.values).get? slot = (n.get? slot).or (m.get? slot) := by
  obtain ⟨hthere, hothers⟩ := get?_corrected m hn n.nodup_keys
  cases hslot : n.get? slot with
  | some p => exact hthere (slot, p) (SortedMap.get?_eq_some_iff.1 hslot)
  | none =>
    refine hothers slot fun hmem => ?_
    obtain ⟨e, he, rfl⟩ := List.mem_map.1 hmem
    exact SortedMap.get?_eq_none_iff.1 hslot e he rfl

/-- Showing all corrective packets of a map restores it where it has all slots that there were. -/
theorem corrected_values {m n : SortedMap CorrectionSlot Packet} (hn : SlotsMatch n)
    (h : ∀ slot, n.get? slot = none → m.get? slot = none) : corrected m n.values = n := by
  refine SortedMap.ext_get? fun slot => ?_
  rw [get?_corrected_values m hn]
  cases hslot : n.get? slot with
  | some p => rfl
  | none => rw [Option.none_or, h slot hslot]

/-! ### Chapters -/

namespace Chapter

/-- What a client can be shown of a chapter. -/
def act (chapter : Chapter) : Act :=
  ⟨chapter.header.info, {life | life ∈ chapter.roster.lives}, chapter.line⟩

/-- A chapter whose lives can be shown together and whose channels have something to show from its
beginning on. -/
structure Playable (chapter : Chapter) (log : Log) (start : Time) : Prop where
  fits : chapter.roster.Fits log chapter.act.minY
  nonneg : 0 ≤ start
  kinds : ∀ channel, ∀ e ∈ (chapter.line channel).entries, Channel.of? e.2 = some channel
  begins : ∀ channel, (chapter.line channel).get? start ≠ none
  times : ∀ channel, ∀ e ∈ (chapter.line channel).entries, start ≤ e.1

variable {chapter : Chapter} {log : Log} {start : Time}

/-- There is always something to show on a channel. -/
theorem Playable.exists_signal (h : chapter.Playable log start) {t : Time} (ht : start ≤ t)
    (channel : Channel) : ∃ k p, (chapter.line channel).floor? t = some (k, p) ∧
      Channel.of? p = some channel := by
  obtain ⟨k, p, hfloor⟩ := Life.exists_floor? (h.begins channel) ht
  exact ⟨k, p, hfloor, h.kinds channel _ (Timeline.floor?_eq_some_iff.1 hfloor).1⟩

/-- The latest packets of all channels. -/
theorem Playable.exists_signals (h : chapter.Playable log start) {t : Time} (ht : start ≤ t) :
    ∃ next : Channel → Packet, ∀ channel, (chapter.line channel).at? t = some (next channel) ∧
      Channel.of? (next channel) = some channel := by
  refine Classical.axiomOfChoice (r := fun channel (p : Packet) =>
    (chapter.line channel).at? t = some p ∧ Channel.of? p = some channel) fun channel => ?_
  obtain ⟨k, p, hfloor, hkind⟩ := h.exists_signal ht channel
  exact ⟨p, by rw [Timeline.at?, hfloor]; rfl, hkind⟩

/-- The channels are shown as they are at the target. -/
theorem Playable.tunes_channelsShown (h : chapter.Playable log start) {client : Client}
    (hsound : client.Sound) {direction : Direction} {a b : Time}
    (hlead : direction.leads a b) (hb : start ≤ b)
    (hsignal : ∀ channel, (chapter.line channel).at? a = none ∨
      (chapter.line channel).at? a = some (client.signal channel)) :
    ∃ next, client.Tunes (client.applyAll (chapter.channelsShown direction a b)) next ∧
      ∀ channel, (chapter.line channel).at? b = some (next channel) := by
  obtain ⟨next, hnext⟩ := h.exists_signals hb
  refine ⟨next, ?_, fun channel => (hnext channel).1⟩
  refine Client.tunes_applyAll hsound (fun channel => (hnext channel).2) Channel.all
    (fun channel _ => ?_) fun channel hc => absurd channel.mem_all hc
  obtain ⟨k, p, hfloor, -⟩ := h.exists_signal hb channel
  have hat : (chapter.line channel).at? b = some p := by rw [Timeline.at?, hfloor]; rfl
  obtain rfl := Option.some.inj (hat.symm.trans (hnext channel).1)
  rw [channelDiscipline, Timeline.shown_snapshots hlead, hfloor]
  by_cases hsame : (chapter.line channel).floorKey? a = (chapter.line channel).floorKey? b
  · refine .inr ⟨if_pos hsame, ?_⟩
    have hat' := Life.at?_eq_of_floorKey?_eq hsame
    rw [hat] at hat'
    rcases hsignal channel with hnone | hsome
    · exact absurd (hnone.symm.trans hat') (by simp)
    · exact Option.some.inj (hsome.symm.trans hat')
  · exact .inl (if_neg hsame)

/-- Once the things of a moment are shown, showing the channels completes the act. -/
theorem Playable.plays (h : chapter.Playable log start) {client : Client} (hsound : client.Sound)
    {direction : Direction} {a b : Time} (hlead : direction.leads a b) (hb : start ≤ b)
    (hjoin : client.join = some chapter.header.info.join)
    (hdimension : client.dimension = some chapter.header.info.dimension)
    (hshows : client.Shows chapter.act.minY chapter.act.lives b)
    (hsignal : ∀ channel, (chapter.line channel).at? a = none ∨
      (chapter.line channel).at? a = some (client.signal channel)) :
    chapter.act.Plays b (client.applyAll (chapter.channelsShown direction a b)) ∧
      (client.applyAll (chapter.channelsShown direction a b)).corrections =
        client.corrections := by
  obtain ⟨next, htunes, hnext⟩ := h.tunes_channelsShown hsound hlead hb hsignal
  refine ⟨⟨htunes.sound, htunes.join.trans hjoin, htunes.dimension.trans hdimension,
    hshows.of_look htunes.look, fun channel => ?_⟩, htunes.corrections⟩
  rw [htunes.signal]
  exact hnext channel

/-- **A step takes a client that plays the chapter to the target.** -/
theorem plays_stay (h : chapter.Playable log start) {direction : Direction} {a b : Time}
    (hlead : direction.leads a b) (hb : start ≤ b) {client : Client}
    (hplays : chapter.act.Plays a client) {things : List Packet}
    (hthings : chapter.roster.Strides (some a) direction a b things) :
    chapter.act.Plays b (client.applyAll (things ++ chapter.channelsShown direction a b)) ∧
      (client.applyAll (things ++ chapter.channelsShown direction a b)).corrections =
        client.corrections := by
  obtain ⟨hbare, hsound, hshown⟩ :=
    hthings.takesTo h.fits hlead client hplays.sound hplays.minY_eq hplays.shows
  have hfield : ∀ {α : Type} (f : Client → α), f (client.applyAll things).bare = f client.bare :=
    fun f => by rw [hbare]
  obtain ⟨hplays', hcorrections⟩ := h.plays hsound hlead hb
    ((hfield Client.join).trans hplays.join) ((hfield Client.dimension).trans hplays.dimension)
    hshown fun channel => by
      rw [← Client.signal_bare, hbare, Client.signal_bare]
      exact .inr (hplays.signals channel)
  rw [Client.applyAll_append]
  exact ⟨hplays', hcorrections.trans (hfield Client.corrections)⟩

/-- **A client that has been brought into the world plays it** once it is played from its
beginning. -/
theorem plays_enter (h : chapter.Playable log start) {t : Time} (ht : start ≤ t) {client : Client}
    (hsound : client.Sound) (hjoin : client.join = some chapter.header.info.join)
    (hdimension : client.dimension = some chapter.header.info.dimension)
    (hlook : ∀ key, client.look key = none) {things : List Packet}
    (hthings : chapter.roster.Strides none .forward origin t things) :
    chapter.act.Plays t (client.applyAll (things ++ chapter.channelsShown .forward origin t)) ∧
      (client.applyAll (things ++ chapter.channelsShown .forward origin t)).corrections =
        client.corrections := by
  have hnonneg := h.nonneg
  have hlead : Direction.forward.leads origin t = true := by
    rw [Direction.leads_forward, origin]
    lia
  have hminY : client.minY = chapter.act.minY := by
    rw [Client.minY, hdimension]
    rfl
  obtain ⟨hbare, hsound, hshown⟩ := hthings.takesTo h.fits hlead client hsound hminY hlook
  -- the packets of things leave the bare client alone
  have hfield : ∀ {α : Type} (f : Client → α), f (client.applyAll things).bare = f client.bare :=
    fun f => by rw [hbare]
  obtain ⟨hplays, hcorrections⟩ := h.plays hsound hlead ht ((hfield Client.join).trans hjoin)
    ((hfield Client.dimension).trans hdimension) hshown fun channel => by
      refine .inl ?_
      rw [Timeline.at?, Option.map_eq_none_iff, Timeline.floor?_eq_none_iff]
      intro e he
      have hstart := h.times channel e he
      rw [origin]
      lia
  rw [Client.applyAll_append]
  exact ⟨hplays, hcorrections.trans (hfield Client.corrections)⟩

end Chapter

end Playhead
