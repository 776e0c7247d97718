import Playhead.Proofs.Indexer.Stage
import Playhead.Proofs.World.Act

/-!
# A recording, as stages

A **ledger** is what there is to know of a recording: the stages that are over, each under the time
at which it began, the one that lasts, and the corrective packets with their snapshots. What a
packet does to a ledger is a relation (`Playhead.Ledger.Receives`), one rule for each kind of
packet. `Playhead.Ledger.After` says which ledger a recording leads to; there is only one
(`Playhead.Ledger.After.unique`).

Packets come in order of time, so a ledger is always in order (`Playhead.Ledger.After.orderly`):
nothing in it is later than the last packet, and the snapshot in effect is that of the corrective
packets in effect.
-/

namespace Playhead

/-! ### What the channels start with -/

/-- What a channel of a world starts with. Thunder starts with none. -/
def ChannelSeeds.packet (seeds : ChannelSeeds) : Channel → Packet
  | .viewCenter => seeds.viewCenter
  | .viewDistance => seeds.viewDistance
  | .clock => seeds.clock
  | .thunder => .thunderLevel 0

/-- Each channel starts with a packet of its own. -/
theorem ChannelSeeds.of?_packet_ofJoin (join : JoinSettings) (channel : Channel) :
    Channel.of? ((ofJoin join).packet channel) = some channel := by
  cases channel <;> rfl

namespace Stage

/-- What the channels of the next world of the session start with: the view and the clock are
kept. -/
def seeds (stage : Stage) : Channel → Packet
  | .thunder => .thunderLevel 0
  | channel =>
    ((stage.line channel).last?.map (·.2)).getD
      ((ChannelSeeds.ofJoin stage.info.join).packet channel)

variable {stage : Stage} {now t : Time}

/-- From its beginning on a stage has something on every channel. -/
theorem Orderly.exists_last? (h : stage.Orderly now) (channel : Channel) :
    ∃ k p, (stage.line channel).last? = some (k, p) ∧ Channel.of? p = some channel := by
  obtain ⟨k, p, hfloor⟩ := Life.exists_floor? (h.begins channel) h.start_le
  rw [Timeline.floor?_eq_last? fun e he => (h.signals channel e he).2] at hfloor
  exact ⟨k, p, hfloor, h.kinds channel _ (List.mem_of_getLast? hfloor)⟩

/-- What the next world starts with is what is in effect now. -/
theorem Orderly.at?_eq_seeds (h : stage.Orderly now) (ht : now ≤ t) {channel : Channel}
    (hchannel : channel ≠ .thunder) : (stage.line channel).at? t = some (stage.seeds channel) := by
  obtain ⟨k, p, hlast, -⟩ := h.exists_last? channel
  have hfloor : (stage.line channel).floor? t = some (k, p) := by
    rw [Timeline.floor?_eq_last? fun e he => Int.le_trans (h.signals channel e he).2 ht]
    exact hlast
  rw [Timeline.at?, hfloor]
  cases channel with
  | thunder => exact absurd rfl hchannel
  | viewCenter | viewDistance | clock =>
    rw [seeds]
    · rw [hlast]
      rfl
    · simp

/-- Each channel of the next world starts with a packet of its own. -/
theorem Orderly.of?_seeds (h : stage.Orderly now) (channel : Channel) :
    Channel.of? (stage.seeds channel) = some channel := by
  obtain ⟨k, p, hlast, hkind⟩ := h.exists_last? channel
  cases channel with
  | thunder => rfl
  | viewCenter | viewDistance | clock =>
    rw [seeds]
    · rw [hlast]
      exact hkind
    · simp

end Stage

/-- Whether a packet brings the client into a dimension. -/
def Packet.Brings (dimension : Dimension) : Packet → Prop
  | joinGame _ brought => brought = dimension
  | respawn brought => brought = dimension
  | _ => False

/-- Only an entrance brings a dimension. -/
theorem Packet.Brings.isEntrance {dimension : Dimension} {packet : Packet}
    (h : packet.Brings dimension) : packet.IsEntrance := by
  cases packet with
  | joinGame | respawn => trivial
  | _ => exact absurd h id

/-! ### Ledgers -/

/-- What there is to know of a recording. -/
structure Ledger where
  /-- The stages that are over, each from its key on. -/
  closed : Timeline Stage
  current : Option Stage
  /-- The latest corrective packet of each slot since the last join. -/
  corrections : SortedMap CorrectionSlot Packet
  snapshots : Timeline (List Packet)

namespace Ledger

/-- Nothing has been recorded. -/
def blank : Ledger := ⟨.empty, none, .empty, .empty⟩

/-- The stage that lasts ends, if there is one. -/
inductive Closes (t : Time) (ledger : Ledger) : Ledger → Prop
  | idle (idle : ledger.current = none) : Closes t ledger ledger
  | busy {stage : Stage} {keys : List ThingKey} (busy : ledger.current = some stage)
      (cover : stage.Cover keys) :
      Closes t ledger
        { ledger with
          closed := ledger.closed.insert stage.start (stage.close t keys)
          current := none }

/-- No corrective packets are in effect any more. -/
def wipe (ledger : Ledger) (t : Time) : Ledger :=
  { ledger with
    corrections := .empty
    snapshots := ledger.snapshots.insert t [] }

/-- A corrective packet takes its slot. -/
def correct (ledger : Ledger) (t : Time) (slot : CorrectionSlot) (packet : Packet) : Ledger :=
  { ledger with
    corrections := ledger.corrections.insert slot packet
    snapshots := ledger.snapshots.insert t (ledger.corrections.insert slot packet).values }

/-- What a packet does to a ledger. -/
inductive Receives (t : Time) (ledger : Ledger) : Packet → Ledger → Prop
  | join {closed : Ledger} {settings : JoinSettings} {dimension : Dimension}
      (closes : (ledger.wipe t).Closes t closed) :
      Receives t ledger (.joinGame settings dimension)
        { closed with
          current := some (.begin t ⟨settings, dimension⟩ (ChannelSeeds.ofJoin settings).packet) }
  | respawn {closed : Ledger} {stage : Stage} {dimension : Dimension}
      (busy : ledger.current = some stage) (closes : ledger.Closes t closed) :
      Receives t ledger (.respawn dimension)
        { closed with current := some (.begin t ⟨stage.info.join, dimension⟩ stage.seeds) }
  | stray {dimension : Dimension} (idle : ledger.current = none) :
      Receives t ledger (.respawn dimension) ledger
  | correct {packet : Packet} {slot : CorrectionSlot}
      (corrective : CorrectionSlot.of? packet = some slot) :
      Receives t ledger packet (ledger.correct t slot packet)
  | other {packet : Packet} (entrance : ¬ packet.IsEntrance)
      (corrective : CorrectionSlot.of? packet = none) :
      Receives t ledger packet
        { ledger with current := ledger.current.map fun stage => stage.receive t packet }

/-- The ledgers that a recording leads to, with the time of its last packet. -/
inductive After : Recording → Time → Ledger → Prop
  | blank : After [] 0 blank
  | packet {recording : Recording} {now t : Time} {ledger ledger' : Ledger} {packet : Packet}
      (before : After recording now ledger) (le : now ≤ t)
      (receives : ledger.Receives t packet ledger') :
      After (recording ++ [(t, packet)]) t ledger'

/-! ### Order -/

/-- A ledger in which everything is in order at a moment. -/
structure Orderly (ledger : Ledger) (now : Time) : Prop where
  nonneg : 0 ≤ now
  closed : ∀ e ∈ ledger.closed.entries, e.2.start = e.1 ∧ e.2.Orderly now
  ended : ∀ e ∈ ledger.closed.entries, ∀ key, e.2.present key = none
  current : ∀ stage, ledger.current = some stage →
    stage.Orderly now ∧ ∀ e ∈ ledger.closed.entries, e.1 ≤ stage.start
  slots : SlotsMatch ledger.corrections
  snapshots : ∀ e ∈ ledger.snapshots.entries,
    (0 ≤ e.1 ∧ e.1 ≤ now) ∧ ∀ p ∈ e.2, CorrectionSlot.of? p ≠ none
  latest : ∀ t, now ≤ t → (ledger.snapshots.at? t).getD [] = ledger.corrections.values

variable {ledger ledger' : Ledger} {recording : Recording} {now t : Time} {packet : Packet}

/-- A ledger of nothing is in order. -/
theorem orderly_blank : blank.Orderly 0 where
  nonneg := Int.le_refl 0
  closed e he := absurd he List.not_mem_nil
  ended e he := absurd he List.not_mem_nil
  current stage h := absurd h (by simp [blank])
  slots e he := absurd he List.not_mem_nil
  snapshots e he := absurd he List.not_mem_nil
  latest t _ := rfl

/-- A ledger that is in order at a time is in order later. -/
theorem Orderly.mono (h : ledger.Orderly now) (hle : now ≤ t) : ledger.Orderly t :=
  { h with
    nonneg := Int.le_trans h.nonneg hle
    closed := fun e he => ⟨(h.closed e he).1, (h.closed e he).2.mono hle⟩
    current := fun stage hstage =>
      ⟨(h.current stage hstage).1.mono hle, (h.current stage hstage).2⟩
    snapshots := fun e he =>
      have ⟨⟨hnonneg, hend⟩, hcorrective⟩ := h.snapshots e he
      ⟨⟨hnonneg, Int.le_trans hend hle⟩, hcorrective⟩
    latest := fun s hs => h.latest s (Int.le_trans hle hs) }

/-- All stages that are over began before now. -/
theorem Orderly.key_le (h : ledger.Orderly now) : ∀ e ∈ ledger.closed.entries, e.1 ≤ now :=
  fun e he => (h.closed e he).1 ▸ (h.closed e he).2.start_le

/-- New corrective packets have a snapshot from now on. -/
theorem Orderly.snapshot (h : ledger.Orderly t) {corrections : SortedMap CorrectionSlot Packet}
    (hslots : SlotsMatch corrections) :
    ({ ledger with
      corrections
      snapshots := ledger.snapshots.insert t corrections.values } : Ledger).Orderly t :=
  { h with
    slots := hslots
    snapshots := fun e he => by
      rcases SortedMap.mem_insert_iff.1 he with rfl | ⟨he, -⟩
      · refine ⟨⟨h.nonneg, Int.le_refl t⟩, fun p hp => ?_⟩
        obtain ⟨slot, hslot, rfl⟩ := List.mem_map.1 hp
        rw [hslots slot hslot]
        exact Option.some_ne_none _
      · exact h.snapshots e he
    latest := fun s hs => by
      rw [Timeline.at?, Timeline.floor?_insert fun e he => (h.snapshots e he).1.2, if_pos hs]
      rfl }

theorem Orderly.wipe (h : ledger.Orderly t) : (ledger.wipe t).Orderly t :=
  h.snapshot fun _ he => absurd he List.not_mem_nil

/-- A ledger stays in order when a slot is taken. -/
theorem Orderly.correct (h : ledger.Orderly t) {slot : CorrectionSlot}
    (hslot : CorrectionSlot.of? packet = some slot) : (ledger.correct t slot packet).Orderly t := by
  refine h.snapshot fun e he => ?_
  rcases SortedMap.mem_insert_iff.1 he with rfl | ⟨he, -⟩
  · exact hslot
  · exact h.slots e he

/-- After closing there is no stage. -/
theorem Closes.current_eq_none (h : ledger.Closes t ledger') : ledger'.current = none := by
  cases h with
  | idle hidle => exact hidle
  | busy => rfl

theorem Closes.snapshots_eq (h : ledger.Closes t ledger') :
    ledger'.snapshots = ledger.snapshots ∧ ledger'.corrections = ledger.corrections := by
  cases h <;> exact ⟨rfl, rfl⟩

/-- **Order is kept when the stage that lasts ends.** -/
theorem Closes.orderly (hcloses : ledger.Closes t ledger') (h : ledger.Orderly t) :
    ledger'.Orderly t := by
  cases hcloses with
  | idle => exact h
  | @busy stage keys hcurrent hcover =>
    obtain ⟨horderly, -⟩ := h.current stage hcurrent
    exact
      { h with
        closed := fun e he => by
          rcases SortedMap.mem_insert_iff.1 he with rfl | ⟨he, -⟩
          · exact ⟨Stage.start_close .., horderly.close keys⟩
          · exact h.closed e he
        ended := fun e he => by
          rcases SortedMap.mem_insert_iff.1 he with rfl | ⟨he, -⟩
          · exact hcover.present_close t
          · exact h.ended e he
        current := fun stage hstage => absurd hstage (by simp) }

/-- A stage begins after the others. -/
theorem Orderly.open (h : ledger.Orderly t) (info : WorldInfo) {seeds : Channel → Packet}
    (hseeds : ∀ channel, Channel.of? (seeds channel) = some channel) :
    ({ ledger with current := some (.begin t info seeds) } : Ledger).Orderly t :=
  { h with
    current := fun stage hstage => by
      obtain rfl := Option.some.inj hstage
      exact ⟨Stage.orderly_begin h.nonneg info hseeds, h.key_le⟩ }

/-- **Whatever arrives, the ledger stays in order.** -/
theorem Receives.orderly (hreceives : ledger.Receives t packet ledger') (h : ledger.Orderly t) :
    ledger'.Orderly t := by
  cases hreceives with
  | join hcloses =>
    exact (hcloses.orderly h.wipe).open _ (ChannelSeeds.of?_packet_ofJoin _)
  | @respawn closed stage dimension hbusy hcloses =>
    exact (hcloses.orderly h).open _ (h.current stage hbusy).1.of?_seeds
  | stray => exact h
  | correct hslot => exact h.correct hslot
  | other =>
    exact
      { h with
        current := fun stage hstage => by
          obtain ⟨old, hold, rfl⟩ := Option.map_eq_some_iff.1 hstage
          have horderly := (h.current old hold).1.receive packet
          exact ⟨horderly, by rw [Stage.start_receive]; exact (h.current old hold).2⟩ }

/-- **A recording leads to ledgers in order.** -/
theorem After.orderly (h : After recording now ledger) : ledger.Orderly now := by
  induction h with
  | blank => exact orderly_blank
  | packet _ hle hreceives ih => exact hreceives.orderly (ih.mono hle)

/-- The last packet is no later than all are. -/
theorem After.le_of_times (h : After recording now ledger)
    (htimes : ∀ e ∈ recording, e.1 ≤ Time.last) : now ≤ Time.last := by
  cases h with
  | blank => decide
  | packet => exact htimes _ List.mem_concat_self

/-! ### There is only one ledger -/

/-- There is one way for a ledger to close. -/
theorem Closes.unique {closed closed' : Ledger} (h : ledger.Closes t closed)
    (h' : ledger.Closes t closed') : closed = closed' := by
  cases h with
  | idle hidle =>
    cases h' with
    | idle => rfl
    | busy hbusy => exact absurd (hidle.symm.trans hbusy) (by simp)
  | busy hbusy hcover =>
    cases h' with
    | idle hidle => exact absurd (hidle.symm.trans hbusy) (by simp)
    | busy hbusy' hcover' =>
      obtain rfl := Option.some.inj (hbusy.symm.trans hbusy')
      rw [hcover.unique hcover']

/-- There is one way for a ledger to receive a packet. -/
theorem Receives.unique {ledger'' : Ledger} (h : ledger.Receives t packet ledger')
    (h' : ledger.Receives t packet ledger'') : ledger' = ledger'' := by
  cases h with
  | join hcloses =>
    cases h' with
    | join hcloses' => rw [hcloses.unique hcloses']
    | correct hslot => exact absurd hslot (by simp [CorrectionSlot.of?])
    | other hentrance => exact absurd trivial hentrance
  | respawn hbusy hcloses =>
    cases h' with
    | respawn hbusy' hcloses' =>
      obtain rfl := Option.some.inj (hbusy.symm.trans hbusy')
      rw [hcloses.unique hcloses']
    | stray hidle => exact absurd (hidle.symm.trans hbusy) (by simp)
    | correct hslot => exact absurd hslot (by simp [CorrectionSlot.of?])
    | other hentrance => exact absurd trivial hentrance
  | stray hidle =>
    cases h' with
    | respawn hbusy => exact absurd (hidle.symm.trans hbusy) (by simp)
    | stray => rfl
    | correct hslot => exact absurd hslot (by simp [CorrectionSlot.of?])
    | other hentrance => exact absurd trivial hentrance
  | correct hslot =>
    cases h' with
    | join | respawn | stray => exact absurd hslot (by simp [CorrectionSlot.of?])
    | correct hslot' => rw [Option.some.inj (hslot.symm.trans hslot')]
    | other _ hcorrective => exact absurd (hcorrective.symm.trans hslot) (by simp)
  | other hentrance hcorrective =>
    cases h' with
    | join | respawn | stray => exact absurd trivial hentrance
    | correct hslot => exact absurd (hcorrective.symm.trans hslot) (by simp)
    | other => rfl

/-- **A recording leads to one ledger.** -/
theorem After.unique (h : After recording now ledger) {now' : Time}
    (h' : After recording now' ledger') : ledger = ledger' := by
  induction h generalizing now' ledger' with
  | blank =>
    generalize hnil : ([] : Recording) = none at h'
    cases h' with
    | blank => rfl
    | packet => exact absurd hnil (by simp)
  | @packet front now t ledger ledger₁ packet hafter hle hreceives ih =>
    generalize hsplit : front ++ [(t, packet)] = recording at h'
    cases h' with
    | blank => exact absurd hsplit (by simp)
    | packet hafter' hle' hreceives' =>
      obtain ⟨rfl, hlast⟩ := List.append_inj' hsplit rfl
      obtain ⟨rfl, rfl⟩ := Prod.mk.inj (List.singleton_inj.1 hlast)
      obtain rfl := ih hafter'
      exact hreceives.unique hreceives'

/-! ### What holds of all stages -/

/-- Whether all stages have a property. -/
structure All (P : Stage → Prop) (ledger : Ledger) : Prop where
  closed : ∀ e ∈ ledger.closed.entries, P e.2
  current : ∀ stage, ledger.current = some stage → P stage

theorem all_blank (P : Stage → Prop) : blank.All P :=
  ⟨fun e he => absurd he List.not_mem_nil, fun stage h => absurd h (by simp [blank])⟩

theorem All.imp {P Q : Stage → Prop} (h : ledger.All P) (himp : ∀ stage, P stage → Q stage) :
    ledger.All Q :=
  ⟨fun e he => himp e.2 (h.closed e he), fun stage hstage => himp stage (h.current stage hstage)⟩

/-- What is so of all stages stays so when the last one closes, if closing keeps it. -/
theorem Closes.all {P : Stage → Prop} (hcloses : ledger.Closes t ledger') (h : ledger.All P)
    (hclose : ∀ stage keys, ledger.current = some stage → P stage → P (stage.close t keys)) :
    ledger'.All P := by
  cases hcloses with
  | idle => exact h
  | @busy stage keys hcurrent =>
    refine ⟨fun e he => ?_, fun stage hstage => absurd hstage (by simp)⟩
    rcases SortedMap.mem_insert_iff.1 he with rfl | ⟨he, -⟩
    · exact hclose stage keys hcurrent (h.current stage hcurrent)
    · exact h.closed e he

/-- **A property is kept** that stages have as they begin, when they receive a packet, and when they
end. -/
theorem Receives.all {P : Stage → Prop} (hreceives : ledger.Receives t packet ledger')
    (h : ledger.All P)
    (hclose : ∀ stage keys, packet.IsEntrance → ledger.current = some stage → P stage →
      P (stage.close t keys))
    (hbegin : ∀ info seeds, packet.Brings info.dimension → P (.begin t info seeds))
    (hreceive : ∀ stage, ¬ packet.IsEntrance → CorrectionSlot.of? packet = none →
      ledger.current = some stage → P stage → P (stage.receive t packet)) :
    ledger'.All P := by
  cases hreceives with
  | join hcloses =>
    have hwiped : (ledger.wipe t).All P := ⟨h.closed, h.current⟩
    refine ⟨(hcloses.all hwiped fun stage keys => hclose stage keys trivial).closed,
      fun stage hstage => ?_⟩
    obtain rfl := Option.some.inj hstage
    exact hbegin _ _ rfl
  | respawn _ hcloses =>
    refine ⟨(hcloses.all h fun stage keys => hclose stage keys trivial).closed,
      fun stage hstage => ?_⟩
    obtain rfl := Option.some.inj hstage
    exact hbegin _ _ rfl
  | stray => exact h
  | correct => exact ⟨h.closed, h.current⟩
  | other hentrance hcorrective =>
    refine ⟨h.closed, fun stage hstage => ?_⟩
    obtain ⟨old, hold, rfl⟩ := Option.map_eq_some_iff.1 hstage
    exact hreceive old hentrance hcorrective hold (h.current old hold)

/-- **Every stage begins with a packet of the recording**, which brings its dimension. -/
theorem After.begun (h : After recording now ledger) : ledger.All fun stage =>
    ∃ packet, (stage.start, packet) ∈ recording ∧ packet.Brings stage.info.dimension := by
  induction h with
  | blank => exact all_blank _
  | packet _ _ hreceives ih =>
    refine hreceives.all (ih.imp fun _ ⟨entrance, hmem, hbrings⟩ =>
      ⟨entrance, List.mem_append_left _ hmem, hbrings⟩) (fun stage keys _ _ h => ?_)
      (fun info seeds hbrings => ⟨_, List.mem_concat_self, hbrings⟩) fun stage _ _ _ h => ?_
    · rwa [Stage.start_close, Stage.info_close]
    · rwa [Stage.start_receive, Stage.info_receive]

end Ledger

end Playhead
