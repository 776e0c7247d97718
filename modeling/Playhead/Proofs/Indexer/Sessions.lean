import Playhead.Proofs.Indexer.Linear
import Playhead.Proofs.Indexer.Writing
import Playhead.Proofs.World.Session

/-!
# The sessions of a recording

A session lasts from one join to the next. What an index knows of sessions is little: each world
holds the settings of its join, which is that of the latest session (`Playhead.Ledger.joins`), and
each join leaves a snapshot without corrective packets. Both are so whatever the packets in between
bring, whether or not their blocks fit the world: a join that comes to a client is also the one that
the ledger holds (`Playhead.Ledger.After.at?_joins`), and every join begins a world and a snapshot
(`Playhead.Ledger.After.begun_join`).
-/

namespace Playhead

/-- What a client was last told of its session. -/
theorem Client.join_apply_eq (client : Client) (packet : Packet) :
    (client.apply packet).join = packet.join?.or client.join := by
  by_cases hentrance : packet.IsEntrance
  · cases packet <;> first | rfl | exact absurd hentrance id
  · rw [(client.world_apply hentrance).1, Packet.join?_eq_none hentrance, Option.none_or]

namespace Ledger

variable {ledger ledger' : Ledger} {recording : Recording} {now t s τ : Time} {packet : Packet}
  {client : Client}

/-- The join settings of the worlds that are over. -/
def closedJoins (ledger : Ledger) : Timeline JoinSettings :=
  ledger.closed.map fun _ stage => stage.info.join

/-- The join settings of all worlds. -/
def joins (ledger : Ledger) : Timeline JoinSettings :=
  match ledger.current with
  | none => ledger.closedJoins
  | some stage => ledger.closedJoins.insert stage.start stage.info.join

theorem joins_of_none (h : ledger.current = none) : ledger.joins = ledger.closedJoins := by
  rw [joins, h]

theorem joins_of_some {stage : Stage} (h : ledger.current = some stage) :
    ledger.joins = ledger.closedJoins.insert stage.start stage.info.join := by
  rw [joins, h]

/-- All worlds began before now. -/
theorem Orderly.key_joins_le (h : ledger.Orderly now) : ∀ e ∈ ledger.joins.entries, e.1 ≤ now := by
  have hclosed : ∀ e ∈ ledger.closedJoins.entries, e.1 ≤ now := by
    intro e he
    obtain ⟨e', he', rfl⟩ := List.mem_map.1 he
    exact h.key_le e' he'
  cases hcurrent : ledger.current with
  | none => rwa [joins_of_none hcurrent]
  | some stage =>
    intro e he
    rw [joins_of_some hcurrent] at he
    rcases SortedMap.mem_insert_iff.1 he with rfl | ⟨he, -⟩
    · exact (h.current stage hcurrent).1.start_le
    · exact hclosed e he

/-- The settings of the world that lasts are those in effect. -/
theorem Orderly.at?_joins (h : ledger.Orderly now) {stage : Stage}
    (hcurrent : ledger.current = some stage) (hs : now ≤ s) :
    ledger.joins.at? s = some stage.info.join := by
  obtain ⟨horderly, hkeys⟩ := h.current stage hcurrent
  have hclosed : ∀ e ∈ ledger.closedJoins.entries, e.1 ≤ stage.start := by
    intro e he
    obtain ⟨e', he', rfl⟩ := List.mem_map.1 he
    exact hkeys e' he'
  rw [joins_of_some hcurrent, Timeline.at?_insert hclosed,
    if_pos (Int.le_trans horderly.start_le hs)]

/-- The end of a world changes nothing about its join. -/
theorem Closes.joins_eq (h : ledger.Closes t ledger') : ledger'.joins = ledger.joins := by
  cases h with
  | idle => rfl
  | @busy stage keys hcurrent =>
    rw [joins_of_some hcurrent]
    refine SortedMap.ext_get? fun key => ?_
    rw [joins_of_none rfl, closedJoins, closedJoins, SortedMap.get?_map, SortedMap.get?_insert,
      SortedMap.get?_insert, SortedMap.get?_map]
    split
    · rw [Option.map_some, Stage.info_close]
    · rfl

/-- A world begins with the settings of its session. -/
theorem joins_open (h : ledger.current = none) (info : WorldInfo) (seeds : Channel → Packet) :
    ({ ledger with current := some (.begin t info seeds) } : Ledger).joins =
      ledger.joins.insert t info.join := by
  rw [joins_of_none h]
  rfl

/-- What packets do to the joins: those that bring the client into a world put the settings of the
session there. -/
theorem Receives.joins_eq (hreceives : ledger.Receives t packet ledger') :
    (∃ join, ledger'.joins = ledger.joins.insert t join ∧ (packet.join? = some join ∨
      packet.join? = none ∧ ∃ stage, ledger.current = some stage ∧ stage.info.join = join)) ∨
    packet.join? = none ∧ ledger'.joins = ledger.joins := by
  cases hreceives with
  | join hcloses =>
    refine .inl ⟨_, ?_, .inl rfl⟩
    rw [joins_open hcloses.current_eq_none, hcloses.joins_eq]
    rfl
  | respawn hbusy hcloses =>
    refine .inl ⟨_, ?_, .inr ⟨rfl, _, hbusy, rfl⟩⟩
    rw [joins_open hcloses.current_eq_none, hcloses.joins_eq]
  | stray => exact .inr ⟨rfl, rfl⟩
  | correct hcorrective =>
    refine .inr ⟨?_, rfl⟩
    cases packet <;> first | rfl | exact absurd hcorrective (by simp [CorrectionSlot.of?])
  | other hentrance =>
    refine .inr ⟨Packet.join?_eq_none hentrance, ?_⟩
    cases hcurrent : ledger.current with
    | none =>
      rw [joins_of_none hcurrent]
      rfl
    | some stage =>
      rw [joins_of_some hcurrent, ← Stage.start_receive stage t packet,
        ← Stage.info_receive stage t packet]
      rfl

/-- A packet changes the joins only from its own time on. -/
theorem Receives.at?_joins_of_lt (hreceives : ledger.Receives t packet ledger')
    (horder : ledger.Orderly t) (hs : s < t) : ledger'.joins.at? s = ledger.joins.at? s := by
  rcases hreceives.joins_eq with ⟨join, hjoins, -⟩ | ⟨-, hjoins⟩
  · rw [hjoins, Timeline.at?_insert horder.key_joins_le, if_neg (Int.not_le.2 hs)]
  · rw [hjoins]

/-- From its own time on they are what a client makes of it. -/
theorem Receives.at?_joins (hreceives : ledger.Receives t packet ledger')
    (horder : ledger.Orderly t) (h : ∀ s, t ≤ s → ledger.joins.at? s = client.join) (hs : t ≤ s) :
    ledger'.joins.at? s = (client.apply packet).join := by
  rw [Client.join_apply_eq]
  rcases hreceives.joins_eq with ⟨join, hjoins, hjoin⟩ | ⟨hnone, hjoins⟩
  · rw [hjoins, Timeline.at?_insert horder.key_joins_le, if_pos hs]
    rcases hjoin with hjoin | ⟨hnone, stage, hcurrent, rfl⟩
    · rw [hjoin, Option.some_or]
    · rw [hnone, Option.none_or, ← h t (Int.le_refl t), horder.at?_joins hcurrent (Int.le_refl t)]
  · rw [hjoins, hnone, Option.none_or, h s hs]

/-- **The world of a moment holds the join that a client was last told.** -/
theorem After.at?_joins (h : After recording now ledger) (s : Time) :
    ledger.joins.at? s = (recording.clientAt s).join := by
  induction h generalizing s with
  | blank => rfl
  | @packet recording now t ledger ledger' packet hbefore hle hreceives ih =>
    have hafter := After.packet hbefore hle hreceives
    have horder := hbefore.orderly.mono hle
    by_cases hs : s < t
    · rw [Recording.clientAt_concat_of_lt hs, hreceives.at?_joins_of_lt horder hs, ih]
    · have hle' := Int.not_lt.1 hs
      rw [Recording.clientAt_eq_client fun e he => Int.le_trans (hafter.times e he) hle',
        Recording.client_concat]
      refine hreceives.at?_joins horder (fun s hs => ?_) hle'
      rw [ih, Recording.clientAt_eq_client fun e he =>
        Int.le_trans (hbefore.times e he) (Int.le_trans hle hs)]

/-- What began a world or a snapshot is not forgotten, and a join begins both. -/
theorem Receives.begun_join (hreceives : ledger.Receives t packet ledger')
    (h : τ ∈ ledger.joins.keys ∧ τ ∈ ledger.snapshots.keys ∨ τ = t ∧ packet.join? ≠ none) :
    τ ∈ ledger'.joins.keys ∧ τ ∈ ledger'.snapshots.keys := by
  constructor
  · rcases hreceives.joins_eq with ⟨join, hjoins, -⟩ | ⟨hnone, hjoins⟩
    · rw [hjoins, SortedMap.mem_keys_insert]
      exact h.imp And.left And.left
    · rw [hjoins]
      exact (h.resolve_right fun hjoin => hjoin.2 hnone).1
  · cases hreceives with
    | join hcloses =>
      show τ ∈ (Ledger.snapshots _).keys
      rw [hcloses.snapshots_eq.1]
      exact SortedMap.mem_keys_insert.2 (h.imp And.right And.left)
    | respawn _ hcloses =>
      show τ ∈ (Ledger.snapshots _).keys
      rw [hcloses.snapshots_eq.1]
      exact (h.resolve_right fun hjoin => hjoin.2 rfl).2
    | stray => exact (h.resolve_right fun hjoin => hjoin.2 rfl).2
    | correct => exact SortedMap.mem_keys_insert.2 (h.imp And.right And.left)
    | other hentrance =>
      exact (h.resolve_right fun hjoin => hjoin.2 (Packet.join?_eq_none hentrance)).2

/-- **Every join begins a world and a snapshot.** -/
theorem After.begun_join (h : After recording now ledger) {e : Time × Packet} (he : e ∈ recording)
    (hjoin : e.2.join? ≠ none) : e.1 ∈ ledger.joins.keys ∧ e.1 ∈ ledger.snapshots.keys := by
  induction h with
  | blank => exact absurd he List.not_mem_nil
  | packet _ _ hreceives ih =>
    refine hreceives.begun_join ?_
    rcases List.mem_append.1 he with he | he
    · exact .inl (ih he)
    · obtain rfl := List.mem_singleton.1 he
      exact .inr ⟨rfl, hjoin⟩

end Ledger

/-! ### Volumes -/

namespace Volume

/-- A volume that knows the sessions of a recording: the join and the corrective packets of every
moment, and that each join begins a world and a snapshot. -/
structure KnowsSessions (volume : Volume) (recording : Recording) : Prop where
  join : ∀ t, (volume.infoAt (some t)).map (·.join) = (recording.clientAt t).join
  corrections : ∀ t,
    (volume.corrections.at? t).getD [] = (recording.clientAt t).corrections.values
  snapshots : ∀ e ∈ volume.corrections.entries,
    0 ≤ e.1 ∧ ∀ p ∈ e.2, CorrectionSlot.of? p ≠ none
  begun : ∀ e ∈ recording, e.2.join? ≠ none →
    e.1 ∈ volume.chapters.keys ∧ e.1 ∈ volume.corrections.keys
  kinds : ∀ e ∈ volume.chapters.entries, ∀ channel, ∀ entry ∈ (e.2.line channel).entries,
    Channel.of? entry.2 = some channel

variable {volume : Volume} {ledger : Ledger}

/-- The joins that a volume holds are those of the ledger. -/
theorem Records.joins_eq (h : volume.Records ledger) (hnone : ledger.current = none) :
    (volume.chapters.map fun _ chapter => chapter.header.info.join) = ledger.joins := by
  rw [Ledger.joins_of_none hnone, Ledger.closedJoins]
  exact SortedMap.map_eq_map_of_rel h.chapters fun _ _ hrecords => by rw [hrecords.info]

end Volume

/-- **The index of a recording knows its sessions**, whatever the packets bring. -/
theorem Recording.exists_sessions {recording : Recording} {log log' : Log} {root : Handle}
    (hlog : log.Faithful) (htimes : ∀ e ∈ recording, e.1 ≤ Time.last)
    (hok : recording.index log = .ok (root, log')) {seeker : Seeker}
    (hopen : Seeker.openAt log' root = .ok seeker) :
    ∃ volume : Volume, volume.StoredIn log' root ∧ volume.KnowsSessions recording := by
  obtain ⟨now, ledger, closed, volume, hnow, hafter, hcloses, hrecords, hstored, hnames⟩ :=
    Recording.exists_records hlog htimes hok
  have horder := hcloses.orderly (hafter.orderly.mono hnow)
  have hjoins := (hrecords.joins_eq hcloses.current_eq_none).trans hcloses.joins_eq
  have hsnapshots := hrecords.corrections.trans hcloses.snapshots_eq.1
  refine ⟨volume, hstored (hnames seeker hopen), ⟨fun t => ?_, fun t => ?_,
    fun e he => (horder.snapshots e (hrecords.corrections ▸ he)).imp_left And.left,
    fun e he hjoin => ?_,
    fun e he channel => ?_⟩⟩
  · rw [← hafter.at?_joins, ← hjoins, Timeline.at?, Timeline.floor?_map, Volume.infoAt,
      Option.bind_some, Option.map_map, Option.map_map]
    rfl
  · rw [hsnapshots]
    exact hafter.at?_snapshots t
  · rw [hsnapshots, ← SortedMap.keys_map, hjoins]
    exact hafter.begun_join he hjoin
  · obtain ⟨stage, hmem, hrecord⟩ := hrecords.of_mem he
    rw [hrecord.line]
    exact (horder.closed _ hmem).2.kinds channel

end Playhead
