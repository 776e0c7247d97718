import Playhead.Proofs.Indexer.Ledger
import Playhead.Proofs.Indexer.Progress
import Playhead.Proofs.Volume

/-!
# The index of a recording

An index in the making tells a ledger (`Playhead.Indexer.Tells`): what it knows of the open world is
the stage that lasts, and what it has written of the others are chapters that record the stages that
are over (`Playhead.Chapter.Records`). Every packet that the indexer takes is received by the ledger
(`Playhead.Indexer.Tells.push`), and finishing writes a volume that records the closed ledger
(`Playhead.Indexer.Tells.finish`).

So the index of a recording is a volume that records a ledger the recording leads to
(`Playhead.Recording.exists_written`). It can be opened if the names of all dimensions fit the
wire, and only then (`Playhead.Recording.exists_records`).
-/

namespace Playhead

open Wire (Codec Fits)

/-! ### Worlds that are written -/

/-- A chapter that holds a stage as it is stored. -/
structure Chapter.Records (chapter : Chapter) (stage : Stage) : Prop where
  info : chapter.header.info = stage.info
  lives : chapter.roster.lives = stage.past.map Life.stored
  line : chapter.line = stage.line

/-- A life of the chapter is one of the stage, as it is read back. -/
theorem Chapter.Records.exists_past {chapter : Chapter} {stage : Stage}
    (h : chapter.Records stage) {life : Life} (hlife : life ∈ chapter.roster.lives) :
    ∃ old ∈ stage.past, life = old.stored := by
  rw [h.lives] at hlife
  obtain ⟨old, hold, rfl⟩ := List.mem_map.1 hlife
  exact ⟨old, hold, rfl⟩

/-- A life of the stage is one of the chapter, as it is read back. -/
theorem Chapter.Records.exists_mem {chapter : Chapter} {stage : Stage}
    (h : chapter.Records stage) {old : Life} (hold : old ∈ stage.past) :
    ∃ p ∈ chapter.roster, p.2 = old.stored := by
  have hlife : old.stored ∈ chapter.roster.lives := by
    rw [h.lives]
    exact List.mem_map_of_mem hold
  exact List.mem_map.1 hlife

/-- What is stored of a life tells when it began and ended, and of what it is. -/
theorem Life.KeptBy.tells {log : Log} {old : Life} {r : ThingRecord} (h : old.stored.KeptBy log r) :
    r.spawn = old.spawn ∧ r.despawn = old.despawn ∧ r.key = old.role.key :=
  ⟨h.spawn, h.despawn, h.key.trans old.role.key_stored⟩

/-- The timeline of a channel. -/
def WorldDraft.line (draft : WorldDraft) : Channel → Timeline Packet
  | .viewCenter => draft.viewCenter
  | .viewDistance => draft.viewDistance
  | .clock => draft.clock
  | .thunder => draft.thunder

/-- A channel that has been written is held. -/
theorem Log.holds_commitChannel {log log' : Log} (hlog : log.Faithful) {line : Timeline Packet}
    (hline : ∀ e ∈ line.entries, (0 ≤ e.1 ∧ e.1 ≤ Time.last) ∧ e.2.IsPlain)
    {compression : Option Compression} {handle : Handle}
    (h : log.commitTimeline (Stored.packet compression) line = .ok (handle, log')) :
    log.GrowsTo log' ∧ log'.Holds (Timeline.codec (Stored.packet compression)) handle line :=
  Log.holds_commitTimeline_self hlog h (Stored.packet_readsBack compression)
    (Timeline.stepsFit_of_nonneg (Int.le_refl 0) (by decide) fun e he => (hline e he).1)
    fun e he => Packet.back_of_isPlain (hline e he).2

/-- **A world that has been written is in the log.** -/
theorem WorldDraft.storedIn_commit {draft : WorldDraft} {log log' : Log} {header : WorldHeader}
    (hlog : log.Faithful) (hok : draft.commit log = .ok (header, log')) {roster : Roster}
    (hroster : roster.map (·.1) = draft.things) (hkept : ∀ q ∈ roster, q.2.KeptBy log q.1)
    (hline : ∀ channel, ∀ e ∈ (draft.line channel).entries,
      (0 ≤ e.1 ∧ e.1 ≤ Time.last) ∧ e.2.IsPlain) :
    log.GrowsTo log' ∧ header.info = draft.info ∧
      (⟨header, roster, draft.line⟩ : Chapter).StoredIn log' := by
  obtain ⟨⟨things, log₁⟩, hthings, hok⟩ := Codec.ok_of_bind hok
  obtain ⟨⟨viewCenter, log₂⟩, hviewCenter, hok⟩ := Codec.ok_of_bind hok
  obtain ⟨⟨viewDistance, log₃⟩, hviewDistance, hok⟩ := Codec.ok_of_bind hok
  obtain ⟨⟨clock, log₄⟩, hclock, hok⟩ := Codec.ok_of_bind hok
  obtain ⟨⟨thunder, log₅⟩, hthunder, hok⟩ := Codec.ok_of_bind hok
  obtain ⟨rfl, rfl⟩ := Prod.mk.inj (Except.ok.inj hok)
  -- why a write would have failed does not matter to what it has written
  rw [Codec.mapError_eq_ok_iff] at hthings hviewCenter hviewDistance hclock hthunder
  obtain ⟨hgrow₁, hheld₁⟩ := Cast.holds_commit hlog hthings fun r hr => by
    rw [← hroster] at hr
    obtain ⟨q, hq, rfl⟩ := List.mem_map.1 hr
    exact (hkept q hq).storable
  obtain ⟨hgrow₂, hheld₂⟩ :=
    Log.holds_commitChannel hgrow₁.faithful (hline .viewCenter) hviewCenter
  obtain ⟨hgrow₃, hheld₃⟩ :=
    Log.holds_commitChannel hgrow₂.faithful (hline .viewDistance) hviewDistance
  obtain ⟨hgrow₄, hheld₄⟩ := Log.holds_commitChannel hgrow₃.faithful (hline .clock) hclock
  obtain ⟨hgrow₅, hheld₅⟩ := Log.holds_commitChannel hgrow₄.faithful (hline .thunder) hthunder
  have hfrom₃ := hgrow₄.trans hgrow₅
  have hfrom₂ := hgrow₃.trans hfrom₃
  have hfrom₁ := hgrow₂.trans hfrom₂
  have hgrow := hgrow₁.trans hfrom₁
  refine ⟨hgrow, rfl, ?_, fun channel => ?_, fun q hq => (hkept q hq).grow hlog hgrow⟩
  · dsimp only
    rw [hgrow.compression, hroster]
    exact hheld₁.grow hgrow₁.faithful hfrom₁
  · rw [hgrow.compression]
    cases channel with
    | viewCenter => exact hheld₂.grow hgrow₂.faithful hfrom₂
    | viewDistance => exact hheld₃.grow hgrow₃.faithful hfrom₃
    | clock => exact hheld₄.grow hgrow₄.faithful hgrow₅
    | thunder => exact hheld₅

/-- Whether a log holds chapters, under the headers of worlds, that record stages. -/
def Log.Writes (log : Log) (worlds : Timeline WorldHeader) (closed : Timeline Stage) : Prop :=
  ∃ chapters : Timeline Chapter, worlds = chapters.map (fun _ chapter => chapter.header) ∧
    ∀ key, Option.Rel (fun chapter stage => chapter.Records stage ∧ chapter.StoredIn log)
      (chapters.get? key) (closed.get? key)

namespace Log.Writes

variable {log log' : Log} {worlds : Timeline WorldHeader} {closed : Timeline Stage}

/-- What has been written is in every later log. -/
theorem grow (h : log.Writes worlds closed) (hlog : log.Faithful) (hgrow : log.GrowsTo log') :
    log'.Writes worlds closed := by
  obtain ⟨chapters, hworlds, hchapters⟩ := h
  exact ⟨chapters, hworlds, SortedMap.rel_imp hchapters fun _ _ ⟨hrecords, hstored⟩ =>
    ⟨hrecords, hstored.grow hlog hgrow⟩⟩

/-- A chapter that has been written joins the others. -/
theorem insert (h : log.Writes worlds closed) (key : Time) {chapter : Chapter} {stage : Stage}
    (hrecords : chapter.Records stage) (hstored : chapter.StoredIn log) :
    log.Writes (worlds.insert key chapter.header) (closed.insert key stage) := by
  obtain ⟨chapters, rfl, hchapters⟩ := h
  refine ⟨chapters.insert key chapter, SortedMap.ext_get? fun k => ?_, fun k => ?_⟩
  · simp only [SortedMap.get?_insert, SortedMap.get?_map]
    split <;> rfl
  · rw [SortedMap.get?_insert, SortedMap.get?_insert]
    split
    · exact .some ⟨hrecords, hstored⟩
    · exact hchapters k

end Log.Writes

/-! ### The indexer tells the ledger -/

/-- What an index in the making tells of a ledger. -/
structure Indexer.Tells (ix : Indexer) (ledger : Ledger) : Prop where
  faithful : ix.log.Faithful
  scene : Option.Rel (fun scene stage => (Progress.mk scene ix.log ix.stats).Tells stage) ix.scene
    ledger.current
  corrections : ix.corrections = ledger.corrections
  snapshots : ix.draft.corrections = ledger.snapshots
  worlds : ix.log.Writes ix.draft.worlds ledger.closed

/-- The timelines of the channels are those of the stage. -/
theorem Scene.Matches.line {scene : Scene} {stage : Stage} (h : scene.Matches stage) :
    scene.draft.line = stage.line := by
  funext channel
  cases channel with
  | viewCenter => exact h.viewCenter
  | viewDistance => exact h.viewDistance
  | clock => exact h.clock
  | thunder => exact h.thunder

/-- A respawn keeps what the stage would keep. -/
theorem Scene.Matches.packet_ofPrevious {scene : Scene} {stage : Stage} (h : scene.Matches stage) :
    (ChannelSeeds.ofPrevious scene.draft).packet = stage.seeds := by
  funext channel
  cases channel with
  | viewCenter =>
    simp only [ChannelSeeds.ofPrevious, ChannelSeeds.packet, h.viewCenter, h.info, Stage.seeds]
  | viewDistance =>
    simp only [ChannelSeeds.ofPrevious, ChannelSeeds.packet, h.viewDistance, h.info, Stage.seeds]
  | clock => simp only [ChannelSeeds.ofPrevious, ChannelSeeds.packet, h.clock, h.info, Stage.seeds]
  | thunder => rfl

/-- A world that begins matches the stage that begins. -/
theorem Scene.matches_begin (t : Time) (info : WorldInfo) (seeds : ChannelSeeds) :
    (Scene.begin t info seeds).Matches (.begin t info seeds.packet) where
  start := rfl
  info := rfl
  entities _ := .none
  chunks _ _ := .none _
  weather := .none
  viewCenter := rfl
  viewDistance := rfl
  clock := rfl
  thunder := rfl

namespace Indexer.Tells

variable {ix ix' : Indexer} {ledger ledger' : Ledger} {t : Time}

/-- An index of nothing tells of nothing. -/
theorem start {log : Log} (h : log.Faithful) : (Indexer.start log).Tells .blank where
  faithful := h
  scene := .none
  corrections := rfl
  snapshots := rfl
  worlds := ⟨.empty, rfl, fun _ => .none⟩

/-- The counts and the time do not matter. -/
theorem setCounts (h : ix.Tells ledger) (last : Time) (stats : Stats) :
    ({ ix with last, stats } : Indexer).Tells ledger :=
  { h with
    scene := by
      have hscene := h.scene
      generalize ledger.current = current at hscene
      show Option.Rel _ ix.scene current
      generalize ix.scene = scene at hscene
      cases hscene with
      | none => exact .none
      | some htells => exact .some (htells.setStats stats) }

/-- **When the open world is closed, it is written.** -/
theorem closeWorld (h : ix.Tells ledger) (horder : ledger.Orderly t) (ht : t ≤ Time.last)
    (hok : ix.closeWorld t = .done ix') :
    ∃ closed, ledger.Closes t closed ∧ ix'.Tells closed ∧ ix'.last = ix.last := by
  have hscene := h.scene
  generalize hcurrent : ledger.current = current at hscene
  generalize hopen : ix.scene = scene at hscene
  cases hscene with
  | none =>
    -- nothing is open
    rw [Indexer.closeWorld, hopen] at hok
    obtain rfl := Outcome.done_inj.1 hok
    exact ⟨ledger, .idle hcurrent, h, rfl⟩
  | @some scene stage htells =>
    -- what is open ends, and what has ended is written
    obtain ⟨p, header, log, hend, hcommit, rfl⟩ := closeWorld_eq_done hopen hok
    obtain ⟨horderly, -⟩ := horder.current stage hcurrent
    obtain ⟨keys, hcover, hkeeps, hgrow, things, hstart, hdraft⟩ :=
      htells.endAll horderly ht hend
    obtain ⟨roster, hthings, hlives, hkept⟩ := hkeeps.roster
    have hline : p.scene.draft.line = stage.line := by
      rw [hdraft]
      exact htells.scene.line
    obtain ⟨hgrow', hinfo, hstored⟩ := WorldDraft.storedIn_commit hkeeps.faithful hcommit hthings
      hkept fun channel e he => by
        rw [hline] at he
        obtain ⟨hlo, hhi⟩ := horderly.signals channel e he
        exact ⟨⟨Int.le_trans horderly.nonneg hlo, Int.le_trans hhi ht⟩,
          Channel.isPlain (horderly.kinds channel e he)⟩
    have hlog := hgrow.trans hgrow'
    refine ⟨_, .busy hcurrent hcover, ⟨hlog.faithful, .none, h.corrections, h.snapshots, ?_⟩, rfl⟩
    -- the chapter that is written records the stage as it has been closed
    have hrecords : Chapter.Records ⟨header, roster, p.scene.draft.line⟩ (stage.close t keys) := by
      refine ⟨?_, hlives, ?_⟩
      · rw [hinfo, hdraft, Stage.info_close]
        exact htells.scene.info
      · rw [Stage.line_close]
        exact hline
    rw [← htells.scene.start, ← hstart]
    exact (h.worlds.grow h.faithful hlog).insert p.scene.start hrecords hstored

/-- **When a world is opened, a stage begins.** -/
theorem openWorld (h : ix.Tells ledger) (horder : ledger.Orderly t) (ht : t ≤ Time.last)
    {info : WorldInfo} {seeds : ChannelSeeds} (hok : ix.openWorld t info seeds = .done ix') :
    ∃ closed, ledger.Closes t closed ∧
      ix'.Tells { closed with current := some (.begin t info seeds.packet) } ∧
      ix'.last = ix.last := by
  obtain ⟨ix₁, hclose, hok⟩ := Outcome.andThen_eq_done_iff.1 hok
  obtain rfl := Outcome.done_inj.1 hok
  obtain ⟨closed, hcloses, htells, hlast⟩ := h.closeWorld horder ht hclose
  refine ⟨closed, hcloses, ?_, hlast⟩
  exact
    { htells with
      scene := .some ⟨Scene.matches_begin t info seeds, htells.faithful, [], rfl, rfl,
        fun _ hq => absurd hq List.not_mem_nil⟩ }

/-- A packet for the open world. -/
theorem receive (h : ix.Tells ledger) (horder : ledger.Orderly t) (ht : t ≤ Time.last)
    {packet : Packet} (hok : ix.receive t packet = .done ix') :
    ix'.Tells { ledger with current := ledger.current.map fun stage => stage.receive t packet } ∧
      ix'.last = ix.last := by
  have hscene := h.scene
  rw [Indexer.receive] at hok
  generalize hcurrent : ledger.current = current at hscene
  split at hok
  · next hopen =>
    rw [hopen] at hscene
    cases hscene
    obtain rfl := Outcome.done_inj.1 hok
    have hsame : ({ ledger with
        current := (none : Option Stage).map fun stage => stage.receive t packet } : Ledger) =
        ledger := by
      rw [Option.map_none, ← hcurrent]
    rw [hsame]
    exact ⟨h.setCounts ix.last _, rfl⟩
  · next scene hopen =>
    rw [hopen] at hscene
    cases hscene with
    | @some _ stage htells =>
      obtain ⟨p, hreceive, rfl⟩ := Outcome.map_eq_done_iff.1 hok
      obtain ⟨htells', hgrow⟩ := htells.receive (horder.current stage hcurrent).1 ht hreceive
      exact ⟨⟨hgrow.faithful, .some htells', h.corrections, h.snapshots,
        h.worlds.grow h.faithful hgrow⟩, rfl⟩

/-- No corrective packets are in effect any more. -/
theorem wipe (h : ix.Tells ledger) (t : Time) :
    ({ ix with
      corrections := .empty
      draft.corrections := ix.draft.corrections.insert t [] } : Indexer).Tells (ledger.wipe t) :=
  { h with
    corrections := rfl
    snapshots := congrArg (SortedMap.insert · t []) h.snapshots }

/-- The client joins. -/
theorem join (h : ix.Tells ledger) (horder : ledger.Orderly t) (ht : t ≤ Time.last)
    {settings : JoinSettings} {dimension : Dimension}
    (hok : ix.join t settings dimension = .done ix') :
    ∃ ledger', ledger.Receives t (.joinGame settings dimension) ledger' ∧ ix'.Tells ledger' ∧
      ix'.last = ix.last := by
  obtain ⟨closed, hcloses, htells, hlast⟩ := (h.wipe t).openWorld horder.wipe ht hok
  exact ⟨_, .join hcloses, htells, hlast⟩

/-- The client respawns. -/
theorem respawn (h : ix.Tells ledger) (horder : ledger.Orderly t) (ht : t ≤ Time.last)
    {dimension : Dimension} (hok : ix.respawn t dimension = .done ix') :
    ∃ ledger', ledger.Receives t (.respawn dimension) ledger' ∧ ix'.Tells ledger' ∧
      ix'.last = ix.last := by
  have hscene := h.scene
  rw [Indexer.respawn] at hok
  generalize hcurrent : ledger.current = current at hscene
  split at hok
  · next hopen =>
    rw [hopen] at hscene
    cases hscene
    obtain rfl := Outcome.done_inj.1 hok
    exact ⟨ledger, .stray hcurrent, h.setCounts ix.last _, rfl⟩
  · next scene hopen =>
    rw [hopen] at hscene
    cases hscene with
    | @some _ stage htells =>
      obtain ⟨closed, hcloses, htells', hlast⟩ := h.openWorld horder ht hok
      refine ⟨_, .respawn hcurrent hcloses, ?_, hlast⟩
      rw [← htells.scene.packet_ofPrevious, ← htells.scene.info]
      exact htells'

/-- A corrective packet. -/
theorem correct (h : ix.Tells ledger) (slot : CorrectionSlot) (packet : Packet) :
    (ix.correct t slot packet).Tells (ledger.correct t slot packet) := by
  have hcorrections : ix.corrections.insert slot packet =
      ledger.corrections.insert slot packet := by
    rw [h.corrections]
  exact
    { h with
      corrections := hcorrections
      snapshots := by
        show ix.draft.corrections.insert t (ix.corrections.insert slot packet).values = _
        rw [hcorrections, h.snapshots]
        rfl }

/-- **What the indexer takes, the ledger receives.** -/
theorem handle (h : ix.Tells ledger) (horder : ledger.Orderly t) (ht : t ≤ Time.last)
    {packet : Packet} (hok : ix.handle t packet = .done ix') :
    ∃ ledger', ledger.Receives t packet ledger' ∧ ix'.Tells ledger' ∧ ix'.last = ix.last := by
  have hother (hentrance : ¬ packet.IsEntrance) (hcorrective : CorrectionSlot.of? packet = none)
      (hreceive : ix.receive t packet = .done ix') :
      ∃ ledger', ledger.Receives t packet ledger' ∧ ix'.Tells ledger' ∧ ix'.last = ix.last := by
    obtain ⟨htells, hlast⟩ := h.receive horder ht hreceive
    exact ⟨_, .other hentrance hcorrective, htells, hlast⟩
  cases packet with
  | joinGame settings dimension => exact h.join horder ht hok
  | respawn dimension => exact h.respawn horder ht hok
  | playerPosition location teleport =>
    obtain rfl := Outcome.done_inj.1 hok
    refine ⟨_, .other (fun h => h) rfl, ?_, rfl⟩
    have hsame : (ledger.current.map fun stage =>
        stage.receive t (.playerPosition location teleport)) = ledger.current := Option.map_id'
    rw [hsame]
    exact h
  | changeDifficulty | foreign =>
    obtain rfl := Outcome.done_inj.1 hok
    exact ⟨_, .correct rfl, h.correct _ _, rfl⟩
  | spawnEntity | teleportEntity | removeEntities | chunkData | unloadChunk | blockUpdate
  | gameEvent | setTime | setViewCenter | setViewDistance => exact hother (fun h => h) rfl hok

/-- **A packet that is not refused is received**, and it is not earlier than those before. -/
theorem push (h : ix.Tells ledger) (horder : ledger.Orderly ix.last) (ht : t ≤ Time.last)
    {packet : Packet} (hok : ix.push t packet = .done ix') :
    ix.last ≤ t ∧ ix'.last = t ∧ ∃ ledger', ledger.Receives t packet ledger' ∧
      ix'.Tells ledger' := by
  obtain ⟨hle, hhandle⟩ := push_eq_done hok
  obtain ⟨ledger', hreceives, htells, hlast⟩ :=
    (h.setCounts t _).handle (horder.mono hle) ht hhandle
  exact ⟨hle, hlast, ledger', hreceives, htells⟩

/-- **All packets of a recording are received.** -/
theorem pushAll {front rest : Recording} (h : ix.Tells ledger)
    (hafter : Ledger.After front ix.last ledger) (htimes : ∀ e ∈ rest, e.1 ≤ Time.last)
    (hok : Indexer.pushAll rest ix = .done ix') :
    ∃ ledger', Ledger.After (front ++ rest) ix'.last ledger' ∧ ix'.Tells ledger' := by
  induction rest generalizing front ix ledger with
  | nil =>
    obtain rfl := Outcome.done_inj.1 hok
    exact ⟨ledger, by rwa [List.append_nil], h⟩
  | cons e rest ih =>
    obtain ⟨t, packet⟩ := e
    rw [pushAll_cons] at hok
    obtain ⟨ix₁, hpush, hok⟩ := Outcome.andThen_eq_done_iff.1 hok
    obtain ⟨hle, hlast, ledger₁, hreceives, htells⟩ :=
      h.push hafter.orderly (htimes _ List.mem_cons_self) hpush
    rw [List.append_cons]
    refine ih htells ?_ (fun e he => htimes e (List.mem_cons_of_mem _ he)) hok
    rw [hlast]
    exact .packet hafter hle hreceives

end Indexer.Tells

/-! ### Volumes that are written -/

/-- A volume that holds a ledger as it is stored. -/
structure Volume.Records (volume : Volume) (ledger : Ledger) : Prop where
  corrections : volume.corrections = ledger.snapshots
  chapters : ∀ key, Option.Rel Chapter.Records (volume.chapters.get? key) (ledger.closed.get? key)

/-- A chapter of the volume records a stage of the ledger. -/
theorem Volume.Records.of_mem {volume : Volume} {ledger : Ledger} (h : volume.Records ledger)
    {e : Time × Chapter} (he : e ∈ volume.chapters.entries) :
    ∃ stage, (e.1, stage) ∈ ledger.closed.entries ∧ e.2.Records stage :=
  SortedMap.exists_of_rel h.chapters he

/-- Whether the names of all dimensions can be read back. -/
def Volume.NamesFit (volume : Volume) : Prop :=
  ∀ e ∈ volume.chapters.entries, Fits e.2.header.info.dimension.name

/-- The chapters of a volume, as they are written. -/
def Volume.headers (volume : Volume) : Timeline WorldHeader :=
  volume.chapters.map fun _ chapter => chapter.header

/-- What comes back of a world: nothing if the name of the dimension is too long. -/
def World.back (world : World) : Option World :=
  (if Fits world.info.dimension.name then some world.header else none).map .ofHeader

theorem World.codec_readsBack : World.codec.ReadsBack World.back :=
  (WorldHeader.codec_readsBack.mapError Failure.wire).iso World.ofHeader World.header

/-- A world comes back if the name of its dimension fits. -/
theorem World.back_of_fits {header : WorldHeader} (h : Fits header.info.dimension.name) :
    (ofHeader header).back = some (.ofHeader header) :=
  congrArg (Option.map World.ofHeader) (if_pos h)

/-- A world does not come back if the name of its dimension is too long. -/
theorem World.back_of_not_fits {header : WorldHeader} (h : ¬ Fits header.info.dimension.name) :
    (ofHeader header).back = none :=
  congrArg (Option.map World.ofHeader) (if_neg h)

/-- The headers are written as the worlds of these headers would be. -/
theorem Volume.encode_headers (volume : Volume) :
    (Timeline.codec World.codec).encode
        (volume.chapters.map fun _ chapter => .ofHeader chapter.header) =
      (Timeline.codec (WorldHeader.codec.mapError Failure.wire)).encode volume.headers := by
  rw [World.codec, Timeline.encode_iso]
  refine congrArg (Timeline.codec _).encode (SortedMap.ext_get? fun key => ?_)
  simp only [Volume.headers, SortedMap.get?_map, Option.map_map]
  rfl

/-- A volume that has been written under a root. All of it is held, but for the worlds of which only
the bytes are there: names that are too long are not read back. -/
structure Volume.WrittenIn (volume : Volume) (log : Log) (root : Handle) : Prop where
  root : log.Holds rootCodec root (volume.correctionsAt, volume.worldsAt)
  corrections : log.Holds (Timeline.codec (Stored.packets log.compression)) volume.correctionsAt
    volume.corrections
  worlds : log.Has (Timeline.codec (WorldHeader.codec.mapError Failure.wire)) volume.worldsAt
    volume.headers
  chapters : ∀ e ∈ volume.chapters.entries, e.2.StoredIn log

namespace Volume.WrittenIn

variable {volume : Volume} {log : Log} {root : Handle}

/-- **A volume that has been written is stored**, if all names can be read back. -/
theorem storedIn (h : volume.WrittenIn log root) (hnames : volume.NamesFit)
    (htimes : ∀ e ∈ volume.chapters.entries, 0 ≤ e.1 ∧ e.1 ≤ Time.last) :
    volume.StoredIn log root := by
  have hfit : Timeline.StepsFit 0 (volume.chapters.map fun _ chapter =>
      World.ofHeader chapter.header).entries := by
    refine Timeline.stepsFit_of_nonneg (Int.le_refl 0) (by decide) fun e he => ?_
    obtain ⟨e', he', rfl⟩ := List.mem_map.1 he
    exact htimes e' he'
  refine ⟨h.root, h.corrections, h.worlds.reads fun bytes rest hbytes => ⟨rest, ?_⟩, h.chapters⟩
  rw [← volume.encode_headers] at hbytes
  have hdecode := Timeline.decode_encode World.codec_readsBack (f := id) hfit (fun e he => by
    obtain ⟨e', he', rfl⟩ := List.mem_map.1 he
    exact World.back_of_fits (hnames e' he')) hbytes rest
  rwa [show (SortedMap.map _ fun _ v => id v) = _ from SortedMap.map_id _] at hdecode

/-- A name that cannot be read back makes the worlds unreadable. -/
theorem refuses (h : volume.WrittenIn log root) (hnames : ¬ volume.NamesFit) :
    log.Refuses (Timeline.codec World.codec) volume.worldsAt := by
  obtain ⟨e, he⟩ := Classical.not_forall.1 hnames
  obtain ⟨he, hname⟩ := Classical.not_imp.1 he
  have hmem : (e.1, World.ofHeader e.2.header) ∈ (volume.chapters.map fun _ chapter =>
      World.ofHeader chapter.header).entries := List.mem_map.2 ⟨e, he, rfl⟩
  refine h.worlds.reads fun bytes rest hbytes => ?_
  rw [← volume.encode_headers] at hbytes
  exact Timeline.decode_error World.codec_readsBack hmem (World.back_of_not_fits hname) hbytes rest

/-- **Nothing opens on a volume** of which a name cannot be read back. -/
theorem openAt_ne_ok (h : volume.WrittenIn log root) (hnames : ¬ volume.NamesFit)
    (seeker : Seeker) : Seeker.openAt log root ≠ .ok seeker := by
  intro hok
  obtain ⟨replay, hload, -⟩ := Codec.ok_of_bind hok
  obtain ⟨hsince, rest, hrest⟩ := h.root.read
  obtain ⟨failure, hfailure⟩ := (h.refuses hnames).load_track none
  have hworlds : ((WorldSequence.atHandle volume.worldsAt).load log).result = .error failure := by
    rw [WorldSequence.load, WorldSequence.atHandle]
    dsimp only
    rw [Track.atHandle, hfailure]
    rfl
  simp only [Replay.load, hsince, Codec.mapError_ok, bind, Except.bind, hrest, hworlds] at hload
  -- the corrections may load, but the worlds do not
  split at hload <;> exact absurd hload (by simp)

end Volume.WrittenIn

/-! ### Volumes that are finished -/

/-- The snapshots of a ledger are held when they have been written. -/
theorem Log.holds_commitSnapshots {ledger : Ledger} (horder : ledger.Orderly Time.last)
    {log log' : Log} (hlog : log.Faithful) {compression : Option Compression} {handle : Handle}
    (h : log.commitTimeline (Stored.packets compression) ledger.snapshots = .ok (handle, log')) :
    log.GrowsTo log' ∧
      log'.Holds (Timeline.codec (Stored.packets compression)) handle ledger.snapshots := by
  refine Log.holds_commitTimeline_self hlog h (Stored.packets_readsBack _)
    (Timeline.stepsFit_of_nonneg (Int.le_refl 0) (by decide) fun e he =>
      (horder.snapshots e he).1)
    fun e he => Stored.mapM_back_of_isPlain fun p hp => ?_
  have hcorrective := (horder.snapshots e he).2 p hp
  cases p with
  | changeDifficulty | foreign => trivial
  | _ => exact absurd rfl hcorrective

/-- The root is held when it has been written. -/
theorem Log.holds_commitRoot {log : Log} (hlog : log.Faithful) {handles : Handle × Handle}
    {bytes : Bytes} (h : rootCodec.encode handles = .ok bytes) :
    (log.commit bytes).2.Holds rootCodec (log.commit bytes).1 handles := by
  have hexact : rootCodec.Exact := Stored.handle_exact.pair Stored.handle_exact
  exact Log.holds_commit hlog (hexact.some_eq h rfl)

/-- The worlds have been written when their headers have. -/
theorem Log.has_commitWorlds {log log' : Log} (hlog : log.Faithful) {handle : Handle}
    {headers : Timeline WorldHeader}
    (h : log.commitTimeline (WorldHeader.codec.mapError Failure.wire) headers =
      .ok (handle, log')) :
    log.GrowsTo log' ∧
      log'.Has (Timeline.codec (WorldHeader.codec.mapError Failure.wire)) handle headers := by
  obtain ⟨bytes, hbytes, h⟩ := Codec.ok_of_bind h
  obtain ⟨rfl, rfl⟩ : (log.commit bytes).1 = handle ∧ (log.commit bytes).2 = log' :=
    Prod.ext_iff.1 (Except.ok.inj h)
  exact ⟨Log.growsTo_commit hlog bytes, Log.has_commit hlog hbytes⟩

/-- **When the last world is closed, the index is written.** -/
theorem Indexer.Tells.finish {ix : Indexer} {ledger : Ledger} (h : ix.Tells ledger)
    (horder : ledger.Orderly Time.last) {root : Handle} {log : Log}
    (hok : ix.finish = .ok (root, log)) :
    ∃ (ix' : Indexer) (closed : Ledger) (volume : Volume), ix.closeWorld Time.last = .done ix' ∧
      ledger.Closes Time.last closed ∧ volume.Records closed ∧ volume.WrittenIn log root := by
  obtain ⟨ix', hclose, hok⟩ := finish_eq_ok hok
  obtain ⟨closed, hcloses, htells, -⟩ := h.closeWorld horder (Int.le_refl _) hclose
  obtain ⟨chapters, hworlds, hchapters⟩ := htells.worlds
  obtain ⟨⟨correctionsAt, log₁⟩, hcorrections, hok⟩ := Codec.ok_of_bind hok
  obtain ⟨⟨worldsAt, log₂⟩, hheaders, hok⟩ := Codec.ok_of_bind hok
  obtain ⟨bytes, hbytes, hok⟩ := Codec.ok_of_bind hok
  obtain ⟨rfl, rfl⟩ : (log₂.commit bytes).1 = root ∧ (log₂.commit bytes).2 = log :=
    Prod.ext_iff.1 (Except.ok.inj hok)
  rw [Codec.mapError_eq_ok_iff] at hcorrections hheaders hbytes
  rw [htells.snapshots] at hcorrections
  rw [hworlds] at hheaders
  obtain ⟨hgrow₁, hheld⟩ :=
    Log.holds_commitSnapshots (hcloses.orderly horder) htells.faithful hcorrections
  obtain ⟨hgrow₂, hhas⟩ := Log.has_commitWorlds hgrow₁.faithful hheaders
  have hgrow₃ := Log.growsTo_commit hgrow₂.faithful bytes
  have hrecords := SortedMap.rel_imp hchapters fun _ _ hboth => hboth.1
  -- what was written first is still there at the end
  refine ⟨ix', closed, ⟨correctionsAt, worldsAt, closed.snapshots, chapters⟩, hclose, hcloses,
    ⟨rfl, hrecords⟩, Log.holds_commitRoot hgrow₂.faithful hbytes, ?_,
    hhas.grow hgrow₂.faithful hgrow₃, fun e he => ?_⟩
  · rw [hgrow₃.compression, hgrow₂.compression, hgrow₁.compression]
    exact hheld.grow hgrow₁.faithful (hgrow₂.trans hgrow₃)
  · obtain ⟨stage, -, -, hstored⟩ := SortedMap.exists_of_rel hchapters he
    exact hstored.grow htells.faithful ((hgrow₁.trans hgrow₂).trans hgrow₃)

/-- **The index of a recording is a volume that records a ledger it leads to**, as the indexer told
it on the way. -/
theorem Recording.exists_written {recording : Recording} {log log' : Log} {root : Handle}
    (hlog : log.Faithful) (htimes : ∀ e ∈ recording, e.1 ≤ Time.last)
    (hok : recording.index log = .ok (root, log')) :
    ∃ (ix ix' : Indexer) (ledger closed : Ledger) (volume : Volume),
      Indexer.pushAll recording (.start log) = .done ix ∧ ix.closeWorld Time.last = .done ix' ∧
        ix.last ≤ Time.last ∧ Ledger.After recording ix.last ledger ∧ ix.Tells ledger ∧
          ledger.Closes Time.last closed ∧ volume.Records closed ∧ volume.WrittenIn log' root := by
  obtain ⟨ix, hpush, hfinish⟩ := Recording.index_eq_ok hok
  obtain ⟨ledger, hafter, htells⟩ :=
    (Indexer.Tells.start hlog).pushAll .blank htimes hpush
  rw [List.nil_append] at hafter
  have hlast := hafter.le_of_times htimes
  obtain ⟨ix', closed, volume, hclose, hcloses, hrecords, hwritten⟩ :=
    htells.finish (hafter.orderly.mono hlast) hfinish
  exact ⟨ix, ix', ledger, closed, volume, hpush, hclose, hlast, hafter, htells, hcloses, hrecords,
    hwritten⟩

/-- **The index of a recording opens on a volume that records a ledger it leads to**, if all names
can be read back, and only then. -/
theorem Recording.exists_records {recording : Recording} {log log' : Log} {root : Handle}
    (hlog : log.Faithful) (htimes : ∀ e ∈ recording, e.1 ≤ Time.last)
    (hok : recording.index log = .ok (root, log')) :
    ∃ (now : Time) (ledger closed : Ledger) (volume : Volume), now ≤ Time.last ∧
      Ledger.After recording now ledger ∧ ledger.Closes Time.last closed ∧
      volume.Records closed ∧ (volume.NamesFit → volume.StoredIn log' root) ∧
        ∀ seeker, Seeker.openAt log' root = .ok seeker → volume.NamesFit := by
  obtain ⟨ix, _, ledger, closed, volume, -, -, hlast, hafter, -, hcloses, hrecords, hwritten⟩ :=
    Recording.exists_written hlog htimes hok
  have horder := hcloses.orderly (hafter.orderly.mono hlast)
  refine ⟨ix.last, ledger, closed, volume, hlast, hafter, hcloses, hrecords,
    fun hnames => hwritten.storedIn hnames fun e he => ?_, fun seeker hopen => ?_⟩
  · obtain ⟨stage, hmem, -⟩ := hrecords.of_mem he
    obtain ⟨hstart, horderly⟩ := horder.closed _ hmem
    exact hstart ▸ ⟨horderly.nonneg, horderly.start_le⟩
  · by_contra hnames
    exact hwritten.openAt_ne_ok hnames seeker hopen

/-- An index that is written and opens. -/
theorem Seeker.exists_openAt {x : Except Unfinished (Handle × Log)}
    (h : (x.toOption.any fun written => (Seeker.openAt written.2 written.1).isOk) = true) :
    ∃ root log seeker, x = .ok (root, log) ∧ Seeker.openAt log root = .ok seeker := by
  cases x with
  | error => exact absurd h Bool.false_ne_true
  | ok written =>
    obtain ⟨seeker, hopen⟩ := Codec.exists_of_isOk h
    exact ⟨written.1, written.2, seeker, rfl, hopen⟩

end Playhead
