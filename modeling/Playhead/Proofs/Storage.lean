import Playhead.Proofs.Indexer.Writing
import Playhead.Proofs.Zlib.Stored

/-!
# What is shown does not depend on where it is stored

Two logs can hold the same recording in different bytes: packets are compressed or not, regions are
longer or shorter, and so every handle in one index is different from its counterpart in the other.
None of that can be told from what a seeker emits (`Playhead.Recording.heard_eq_heard`).

An index **tells** a tale (`Playhead.Volume.tale`): the corrections, and of each world the info, the
lives and the channels, without any handle. The argument has two parts. A recording leads to one
ledger, so both indexes tell the same tale (`Playhead.Volume.Records.tale_eq`). And what a seek
shows is determined by the tale (`Playhead.Volume.SeekShows.unique`): which things leave, enter and
stay, and in which order, depends on their lives alone.
-/

namespace Playhead

open Wire (Codec)

/-! ### What a step of a cast shows is determined by the lives -/

namespace Roster

variable {roster roster' : Roster}

/-- What a member shows is up to its life. -/
theorem packets_eq_lives (roster : Roster) (f : Life → List Packet) (i : Nat) :
    roster.packets f i = ((roster.lives[i]?).map f).getD [] := by
  rw [packets, lives, List.getElem?_map, Option.map_map]
  rfl

theorem alive_eq_lives (roster : Roster) (t : Time) (i : Nat) :
    roster.alive t i = (roster.lives[i]?).any fun life => decide (life.AliveAt t) := by
  rw [alive, lives, List.getElem?_map, Option.any_map]

/-- The order of the members is up to their lives. -/
theorem precedes_congr (h : roster.lives = roster'.lives) :
    roster.Precedes = roster'.Precedes := by
  have htime (roster : Roster) (time : Life → Time) (i : Nat) :
      roster.timeOf time i = ((roster.lives[i]?).map time).getD 0 := by
    rw [timeOf, lives, List.getElem?_map, Option.map_map]
    rfl
  funext time i j
  simp only [Precedes, htime, h]

theorem packets_congr (h : roster.lives = roster'.lives) : roster.packets = roster'.packets := by
  funext f i
  rw [packets_eq_lives, packets_eq_lives, h]

theorem alive_congr (h : roster.lives = roster'.lives) : roster.alive = roster'.alive := by
  funext t i
  rw [alive_eq_lives, alive_eq_lives, h]

/-- What a rebuild shows is up to the lives. -/
theorem Rebuilds.unique (h : roster.lives = roster'.lives) {moment : Option Time} {t : Time}
    {packets packets' : List Packet} (hrebuilds : roster.Rebuilds moment t packets)
    (hrebuilds' : roster'.Rebuilds moment t packets') : packets = packets' := by
  obtain ⟨leaving, entering, hleaving, hmem, hentering, hmem', rfl⟩ := hrebuilds
  obtain ⟨leaving', entering', hleaving', hmem₁, hentering', hmem₁', rfl⟩ := hrebuilds'
  simp only [← alive_congr h] at hmem₁ hmem₁'
  rw [← precedes_congr h] at hentering'
  obtain rfl : leaving = leaving' := eq_of_pairwise_of_mem (fun _ _ => Nat.lt_asymm) hleaving
    hleaving' fun i => (hmem i).trans (hmem₁ i).symm
  obtain rfl : entering = entering' := eq_of_pairwise_of_mem (fun _ _ => Precedes.not_symm)
    hentering hentering' fun i => (hmem' i).trans (hmem₁' i).symm
  rw [departures, departures, arrivals, arrivals, packets_congr h]

/-- What an advance shows is up to the lives. -/
theorem Advances.unique (h : roster.lives = roster'.lives) {direction : Direction}
    {start target : Time} {packets packets' : List Packet}
    (hadvances : roster.Advances direction start target packets)
    (hadvances' : roster'.Advances direction start target packets') : packets = packets' := by
  obtain ⟨leaving, entering, staying, hparts, rfl⟩ := hadvances
  obtain ⟨leaving', entering', staying', hparts', rfl⟩ := hadvances'
  obtain ⟨hleaving, hmem₁, hentering, hmem₂, hstaying, hmem₃⟩ := hparts
  obtain ⟨hleaving', hmem₁', hentering', hmem₂', hstaying', hmem₃'⟩ := hparts'
  simp only [← alive_congr h] at hmem₁' hmem₂' hmem₃'
  rw [← precedes_congr h] at hleaving' hentering'
  obtain rfl : leaving = leaving' := eq_of_pairwise_of_mem (fun _ _ => Precedes.not_symm) hleaving
    hleaving' fun i => (hmem₁ i).trans (hmem₁' i).symm
  obtain rfl : entering = entering' := eq_of_pairwise_of_mem (fun _ _ => Precedes.not_symm)
    hentering hentering' fun i => (hmem₂ i).trans (hmem₂' i).symm
  obtain rfl : staying = staying' := eq_of_pairwise_of_mem (fun _ _ => Nat.lt_asymm) hstaying
    hstaying' fun i => (hmem₃ i).trans (hmem₃' i).symm
  simp only [departures, arrivals, passages, packets_congr h]

/-- **What a step shows of a cast is determined by the lives** that the records tell of. -/
theorem Strides.unique (h : roster.lives = roster'.lives) {moment : Option Time}
    {direction : Direction} {start target : Time} {packets packets' : List Packet}
    (hstrides : roster.Strides moment direction start target packets)
    (hstrides' : roster'.Strides moment direction start target packets') :
    packets = packets' := by
  obtain ⟨front, back, hfront, hback, rfl⟩ := hstrides
  obtain ⟨front', back', hfront', hback', rfl⟩ := hstrides'
  rw [hback.unique h hback']
  by_cases hstart : moment = some start
  · rw [if_pos hstart] at hfront hfront'
    rw [hfront, hfront']
  · rw [if_neg hstart] at hfront hfront'
    rw [hfront.unique h hfront']

end Roster

/-! ### Tales -/

/-- What there is to tell of a world: its info, the lives of its things, and its channels. -/
structure WorldTale where
  info : WorldInfo
  lives : List Life
  line : Channel → Timeline Packet

/-- What a chapter tells. -/
def Chapter.tale (chapter : Chapter) : WorldTale :=
  ⟨chapter.header.info, chapter.roster.lives, chapter.line⟩

/-- What is told of a stage that has been stored. -/
def Stage.tale (stage : Stage) : WorldTale :=
  ⟨stage.info, stage.past.map Life.stored, stage.line⟩

theorem Chapter.Records.tale_eq {chapter : Chapter} {stage : Stage} (h : chapter.Records stage) :
    chapter.tale = stage.tale := by
  rw [Chapter.tale, Stage.tale, h.info, h.lives, h.line]

namespace Volume

variable {volume volume' : Volume} {moment : Option Time} {direction : Direction}
  {start target : Time} {packets packets' : List Packet}

/-- What a volume tells, wherever it is stored: the corrections and the worlds. -/
def tale (volume : Volume) : Timeline (List Packet) × Timeline WorldTale :=
  (volume.corrections, volume.chapters.map fun _ chapter => chapter.tale)

/-- **What a volume that records a ledger tells is determined by the ledger.** -/
theorem Records.tale_eq {ledger : Ledger} (h : volume.Records ledger) :
    volume.tale = (ledger.snapshots, ledger.closed.map fun _ stage => stage.tale) :=
  Prod.ext h.corrections <|
    SortedMap.map_eq_map_of_rel h.chapters fun _ _ hrecords => hrecords.tale_eq

/-- The floors of a moment tell the same. -/
theorem floor?_tale (h : volume.tale = volume'.tale) (t : Time) :
    (volume.chapters.floor? t).map (fun e => (e.1, e.2.tale)) =
      (volume'.chapters.floor? t).map (fun e => (e.1, e.2.tale)) := by
  have hchapters := (Prod.ext_iff.1 h).2
  have hfloor := congrArg (Timeline.floor? · t) hchapters
  rwa [tale, tale, Timeline.floor?_map, Timeline.floor?_map] at hfloor

/-- Volumes of the same tale are in the same world at each moment. -/
theorem keyAt_congr (h : volume.tale = volume'.tale) (moment : Option Time) :
    volume.keyAt moment = volume'.keyAt moment := by
  refine congrArg moment.bind (funext fun t => ?_)
  have hfloor := congrArg (Option.map Prod.fst) (floor?_tale h t)
  rwa [Option.map_map, Option.map_map] at hfloor

/-- Volumes of the same tale have the same settings at each moment. -/
theorem infoAt_congr (h : volume.tale = volume'.tale) (moment : Option Time) :
    volume.infoAt moment = volume'.infoAt moment := by
  cases moment with
  | none => rfl
  | some t =>
    have hfloor := congrArg (Option.map fun e => e.2.info) (floor?_tale h t)
    rwa [Option.map_map, Option.map_map] at hfloor

theorem entrance_congr (h : volume.tale = volume'.tale) : volume.entrance = volume'.entrance := by
  funext previous info target
  rw [entrance, entrance, show volume.corrections = volume'.corrections from congrArg Prod.fst h]

/-- The worlds of a moment are under one key and tell the same. -/
theorem tale_of_floor? (h : volume.tale = volume'.tale) {t key key' : Time}
    {chapter chapter' : Chapter} (hfloor : volume.chapters.floor? t = some (key, chapter))
    (hfloor' : volume'.chapters.floor? t = some (key', chapter')) :
    key = key' ∧ chapter.tale = chapter'.tale := by
  have hsame := floor?_tale h t
  rw [hfloor, hfloor', Option.map_some, Option.map_some, Option.some.injEq] at hsame
  exact Prod.mk.inj hsame

/-- **What a step shows of the worlds is determined by the tale.** -/
theorem Shows.unique (h : volume.tale = volume'.tale)
    (hshows : volume.Shows moment direction start target packets)
    (hshows' : volume'.Shows moment direction start target packets') : packets = packets' := by
  -- the tale says which chapter is in effect, so both volumes are in the same case
  have hnone : volume.chapters.floor? target = none ↔ volume'.chapters.floor? target = none := by
    rw [← Option.map_eq_none_iff, floor?_tale h, Option.map_eq_none_iff]
  have hshown {chapter chapter' : Chapter} (htale : chapter.tale = chapter'.tale) :
      chapter.channelsShown = chapter'.channelsShown := by
    have hline : chapter.line = chapter'.line := congrArg WorldTale.line htale
    funext direction start target
    rw [Chapter.channelsShown, Chapter.channelsShown, hline]
  have hlives {chapter chapter' : Chapter} (htale : chapter.tale = chapter'.tale) :
      chapter.roster.lives = chapter'.roster.lives := congrArg WorldTale.lives htale
  cases hshows with
  | stay hfloor hsame hstrides =>
    cases hshows' with
    | stay hfloor' hsame' hstrides' =>
      obtain ⟨-, htale⟩ := tale_of_floor? h hfloor hfloor'
      rw [hstrides.unique (hlives htale) hstrides', hshown htale]
    | leave hleft => exact absurd (hfloor.symm.trans (hnone.2 hleft)) (by simp)
    | enter hfloor' hother =>
      obtain ⟨rfl, -⟩ := tale_of_floor? h hfloor hfloor'
      exact absurd ((keyAt_congr h moment).symm.trans hsame) hother
  | leave hleft =>
    cases hshows' with
    | stay hfloor' | enter hfloor' => exact absurd ((hnone.1 hleft).symm.trans hfloor') (by simp)
    | leave => rfl
  | @enter _ chapter _ hfloor hother hstrides =>
    cases hshows' with
    | stay hfloor' hsame =>
      obtain ⟨rfl, -⟩ := tale_of_floor? h hfloor hfloor'
      exact absurd ((keyAt_congr h moment).trans hsame) hother
    | leave hleft => exact absurd (hfloor.symm.trans (hnone.2 hleft)) (by simp)
    | enter hfloor' _ hstrides' =>
      obtain ⟨-, htale⟩ := tale_of_floor? h hfloor hfloor'
      rw [hstrides.unique (hlives htale) hstrides', hshown htale, entrance_congr h,
        infoAt_congr h, show chapter.header.info = _ from congrArg WorldTale.info htale]
      rfl

/-- **What a seek shows is determined by the tale.** -/
theorem SeekShows.unique (h : volume.tale = volume'.tale)
    (hshows : volume.SeekShows moment target packets)
    (hshows' : volume'.SeekShows moment target packets') : packets = packets' := by
  obtain ⟨worlds, hworlds, rfl⟩ := hshows
  obtain ⟨worlds', hworlds', rfl⟩ := hshows'
  rw [hworlds.unique h hworlds', show volume.corrections = volume'.corrections from
    congrArg Prod.fst h]

/-- Whether the names of the dimensions can be read back is determined by the tale. -/
theorem namesFit_congr (h : volume.tale = volume'.tale) : volume.NamesFit ↔ volume'.NamesFit := by
  have hiff (volume : Volume) : volume.NamesFit ↔
      ∀ e ∈ volume.tale.2.entries, Wire.Fits e.2.info.dimension.name := by
    simp only [NamesFit, tale, SortedMap.map, List.forall_mem_map]
    rfl
  rw [hiff, hiff, h]

end Volume

/-! ### Two seekers -/

namespace Seeker

/-- What one hears of seeks to some targets, one after the other: what each of them emitted and
whether it succeeded. -/
def heard (log : Log) (seeker : Seeker) : List Time → List (List Packet × Bool)
  | [] => []
  | target :: targets =>
    let o := seeker.seek log target
    (o.emitted, o.isOk) :: heard log o.state targets

/-- **Seekers on volumes that tell the same are heard alike**, wherever both have been. -/
theorem heard_congr {volume volume' : Volume} {log log' : Log} {root root' : Handle}
    (hstored : volume.StoredIn log root) (hstored' : volume'.StoredIn log' root')
    (h : volume.tale = volume'.tale) (targets : List Time) (moment : Option Time)
    (hmoment : ∀ t, moment = some t → 0 ≤ t) :
    (volume.seekerAt moment).heard log targets = (volume'.seekerAt moment).heard log' targets := by
  induction targets generalizing moment with
  | nil => rfl
  | cons target targets ih =>
    rw [heard, heard]
    by_cases hnegative : target < 0
    · rw [Volume.seek_negative moment hnegative, Volume.seek_negative moment hnegative]
      exact congrArg (List.cons _) (ih moment hmoment)
    · have htarget := Int.not_lt.1 hnegative
      by_cases hself : moment = some target
      · subst hself
        rw [Volume.seek_self target htarget, Volume.seek_self target htarget]
        exact congrArg (List.cons _) (ih (some target) hmoment)
      · obtain ⟨packets, hseek, hshows⟩ := Volume.seek_seekerAt hstored htarget hself
        obtain ⟨packets', hseek', hshows'⟩ := Volume.seek_seekerAt hstored' htarget hself
        obtain rfl := hshows.unique h hshows'
        rw [hseek, hseek']
        refine congrArg (List.cons _) (ih (some target) ?_)
        rintro _ ⟨⟩
        exact htarget

end Seeker

namespace Recording

variable {recording : Recording}

/-- **Storage is unobservable.** Take two logs, in memory or in a file, empty or not, that compress
in any two ways or not at all, and index a recording in both. Then both indexes open or neither
does, and all seeks, to any targets one after the other, emit the same packets and succeed or fail
alike. -/
theorem heard_eq_heard {log₁ log₂ log₁' log₂' : Log} {root₁ root₂ : Handle}
    (hlog₁ : log₁.Faithful) (hlog₂ : log₂.Faithful) (htimes : ∀ e ∈ recording, e.1 ≤ Time.last)
    (hindex₁ : recording.index log₁ = .ok (root₁, log₁'))
    (hindex₂ : recording.index log₂ = .ok (root₂, log₂')) :
    (Seeker.openAt log₁' root₁).isOk = (Seeker.openAt log₂' root₂).isOk ∧
      ∀ seeker₁ seeker₂, Seeker.openAt log₁' root₁ = .ok seeker₁ →
        Seeker.openAt log₂' root₂ = .ok seeker₂ → ∀ targets : List Time,
          seeker₁.heard log₁' targets = seeker₂.heard log₂' targets := by
  obtain ⟨_, _, _, volume₁, -, hafter₁, hcloses₁, hrecords₁, hstored₁, hnames₁⟩ :=
    exists_records hlog₁ htimes hindex₁
  obtain ⟨_, _, _, volume₂, -, hafter₂, hcloses₂, hrecords₂, hstored₂, hnames₂⟩ :=
    exists_records hlog₂ htimes hindex₂
  -- both indexes record the same ledger, so their volumes have the same tale
  obtain rfl := hafter₁.unique hafter₂
  obtain rfl := hcloses₁.unique hcloses₂
  have htale : volume₁.tale = volume₂.tale := hrecords₁.tale_eq.trans hrecords₂.tale_eq.symm
  have hnames := Volume.namesFit_congr htale
  have hopens₁ (h : volume₁.NamesFit) := Volume.openAt_eq (hstored₁ h)
  have hopens₂ (h : volume₂.NamesFit) := Volume.openAt_eq (hstored₂ h)
  -- an index opens just if all names of dimensions in it fit
  have hiff {volume : Volume} {log : Log} {root : Handle}
      (hopens : volume.NamesFit → Seeker.openAt log root = .ok (volume.seekerAt none))
      (hnames : ∀ seeker, Seeker.openAt log root = .ok seeker → volume.NamesFit) :
      (Seeker.openAt log root).isOk = true ↔ volume.NamesFit := by
    refine ⟨fun hok => ?_, fun hfit => by rw [hopens hfit]; rfl⟩
    obtain ⟨seeker, hopen⟩ := Codec.exists_of_isOk hok
    exact hnames seeker hopen
  refine ⟨?_, fun seeker₁ seeker₂ hopen₁ hopen₂ targets => ?_⟩
  · rw [Bool.eq_iff_iff, hiff hopens₁ hnames₁, hiff hopens₂ hnames₂, hnames]
  · have hfit := hnames₁ _ hopen₁
    obtain rfl := Except.ok.inj (hopen₁.symm.trans (hopens₁ hfit))
    obtain rfl := Except.ok.inj (hopen₂.symm.trans (hopens₂ (hnames.1 hfit)))
    exact Seeker.heard_congr (hstored₁ hfit) (hstored₂ (hnames.1 hfit)) htale targets none nofun

/-- Rain in one world, then another world. -/
def crossing : Recording :=
  [(0, .joinGame ⟨1, false, 20, 8, []⟩ ⟨"overworld", 0, 0, false, -64⟩), (1, .beginRain),
    (3, .rainLevel 5), (5, .respawn ⟨"nether", 0, 0, false, 0⟩), (9, .changeDifficulty 3 true)]

/-- A log in memory with other bytes in it. -/
def occupied : Log := .ofBytes (some (Zlib.compression 256)) [7, 7]

/-- In memory behind other bytes, and in a file that gives one byte at a time. -/
theorem heard_eq_heard_crossing : ∃ root₁ root₂ log₁ log₂ seeker₁ seeker₂,
    crossing.index occupied = .ok (root₁, log₁) ∧
      crossing.index (.inFile none fun _ => 0) = .ok (root₂, log₂) ∧ root₁ ≠ root₂ ∧
      Seeker.openAt log₁ root₁ = .ok seeker₁ ∧ Seeker.openAt log₂ root₂ = .ok seeker₂ ∧
      seeker₁.heard log₁ [4, 7, -1, 2, 2, 100, 0] =
        seeker₂.heard log₂ [4, 7, -1, 2, 2, 100, 0] := by
  have hlog₁ : occupied.Faithful := rfl
  have hlog₂ : (Log.inFile none fun _ => 0).Faithful := rfl
  obtain ⟨root₁, log₁, seeker₁, hindex₁, hopen₁⟩ :=
    Seeker.exists_openAt (x := crossing.index occupied) (by decide +kernel)
  obtain ⟨root₂, log₂, seeker₂, hindex₂, hopen₂⟩ :=
    Seeker.exists_openAt (x := crossing.index (.inFile none fun _ => 0)) (by decide +kernel)
  have hroots : (crossing.index occupied).toOption.map (·.1) ≠
      (crossing.index (.inFile none fun _ => 0)).toOption.map (·.1) := by
    decide +kernel
  rw [hindex₁, hindex₂] at hroots
  obtain ⟨-, hheard⟩ := heard_eq_heard hlog₁ hlog₂ (by decide +kernel) hindex₁ hindex₂
  exact ⟨root₁, root₂, log₁, log₂, seeker₁, seeker₂, hindex₁, hindex₂,
    fun h => hroots (congrArg some h), hopen₁, hopen₂, hheard seeker₁ seeker₂ hopen₁ hopen₂ _⟩

end Recording

end Playhead
