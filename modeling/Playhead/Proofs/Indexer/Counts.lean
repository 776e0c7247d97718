import Playhead.Proofs.Indexer.Shape
import Playhead.Proofs.Indexer.Writing

/-!
# Everything that is started is accounted for

Things are started by three kinds of packets (`Playhead.Scene.starts`). What has been started is
live, on record, or discarded, and the indexer counts records and discarded things: no packet
changes the balance but by the thing that it starts (`Playhead.Progress.accounts_receive`), and the
end of a world does not change it at all (`Playhead.Progress.ends_endAll`).

So at every time the things that the packets have started are those that are live, those recorded in
the worlds that are over and in the open one, and those discarded
(`Playhead.Indexer.Accounts.pushAll`). This includes worlds that take the place of another in the
index, since nothing is recorded in those (`Playhead.Ledger.Lossless.recorded_insert`).
-/

namespace Playhead

open Wire (Codec)

namespace Scene

/-- The number of things that are live. -/
def live (scene : Scene) : Nat :=
  scene.entities.size + scene.chunks.size + scene.weather.toList.length

/-- Whether a packet starts a thing: an entity that is spawned, a chunk that is sent where none is
or cannot be compared with the one that is, and rain that begins when there is none. -/
def starts (scene : Scene) : Packet → Bool
  | .spawnEntity .. => true
  | .chunkData x z data =>
    match Column.decode data with
    | .ok column => (scene.chunks.get? (x, z)).all fun chunk =>
        (Column.diff? x z scene.minY chunk.column column).isNone
    | .error _ => false
  | .gameEvent event _ => event = GameEvent.rainBegins && scene.weather.isNone
  | _ => false

end Scene

namespace Progress

variable {p p' p'' : Progress} {t : Time} {m n : Nat}

/-! ### Lives that end -/

/-- So many lives have ended, and those that were recorded have been counted. -/
structure Ends (p p' : Progress) (n : Nat) : Prop where
  scene : ∃ things, p'.scene = { p.scene with draft.things := things }
  recorded : p.scene.draft.things.length + p'.stats.things =
    p'.scene.draft.things.length + p.stats.things
  ended : p'.stats.things + p'.stats.discarded = p.stats.things + p.stats.discarded + n

theorem Ends.refl (p : Progress) : p.Ends p 0 := ⟨⟨_, rfl⟩, rfl, rfl⟩

theorem Ends.trans (h : p.Ends p' m) (h' : p'.Ends p'' n) : p.Ends p'' (m + n) := by
  obtain ⟨⟨things, hscene⟩, hrecorded, hended⟩ := h
  obtain ⟨⟨things', hscene'⟩, hrecorded', hended'⟩ := h'
  refine ⟨⟨things', by rw [hscene', hscene]⟩, ?_, ?_⟩ <;> lia

/-- A life that ends is one life. -/
theorem ends_retire {V : Type} {value : Codec Failure V} {thing : LiveThing V}
    (hok : p.retire value thing t = .done p') : p.Ends p' 1 := by
  rcases retire_cases hok with ⟨-, rfl⟩ | ⟨-, inner, log, -, rfl⟩
  · exact ⟨⟨_, rfl⟩, rfl, rfl⟩
  · refine ⟨⟨_, rfl⟩, ?_, ?_⟩
    · simp only [List.length_append, List.length_singleton]
      lia
    · dsimp only
      lia

/-- As many lives end as there are things in a row. -/
theorem ends_retireAll {V : Type} {value : Codec Failure V} {things : List (LiveThing V)}
    (hok : retireAll value t things p = .done p') : p.Ends p' things.length := by
  induction things generalizing p with
  | nil =>
    obtain rfl := Outcome.done_inj.1 hok
    exact .refl p
  | cons thing things ih =>
    rw [retireAll_cons] at hok
    obtain ⟨p₁, hretire, hok⟩ := Outcome.andThen_eq_done_iff.1 hok
    rw [List.length_cons, Nat.add_comm]
    exact (ends_retire hretire).trans (ih hok)

/-- **When the world ends, so many lives end as things were live**, and none is live any more. -/
theorem ends_endAll (hok : p.endAll t = .done p') : p'.scene.live = 0 ∧
    p.scene.draft.things.length + p'.stats.things =
      p'.scene.draft.things.length + p.stats.things ∧
    p'.stats.things + p'.stats.discarded =
      p.stats.things + p.stats.discarded + p.scene.live := by
  obtain ⟨p₂, hothers, hrain⟩ := Outcome.andThen_eq_done_iff.1 hok
  obtain ⟨p₁, hentities, hchunks⟩ := Outcome.andThen_eq_done_iff.1 hothers
  rw [endRain_eq] at hrain
  obtain ⟨⟨things₁, hscene₁⟩, hrecorded₁, hended₁⟩ := ends_retireAll hentities
  obtain ⟨⟨things₂, hscene₂⟩, hrecorded₂, hended₂⟩ := ends_retireAll hchunks
  obtain ⟨⟨things₃, hscene₃⟩, hrecorded₃, hended₃⟩ := ends_retireAll hrain
  -- the chunks and the rain are still there when it is their turn
  have hchunksLeft : p₁.scene.chunks = p.scene.chunks := by rw [hscene₁]
  have hrainLeft : p₂.scene.weather = p.scene.weather := by rw [hscene₂, hscene₁]
  rw [hchunksLeft] at hended₂
  rw [hrainLeft] at hended₃
  simp only [SortedMap.values, List.length_map] at hended₁ hended₂
  dsimp only at hrecorded₁ hrecorded₂ hrecorded₃ hended₁ hended₂ hended₃
  refine ⟨?_, ?_, ?_⟩
  · rw [hscene₃, hscene₂, hscene₁]
    rfl
  · lia
  · simp only [Scene.live, SortedMap.size]
    lia

/-! ### The balance -/

/-- Records have been counted, and so many things have been started, which are live, on record or
discarded. -/
structure Accounts (p p' : Progress) (n : Nat) : Prop where
  recorded : p.scene.draft.things.length + p'.stats.things =
    p'.scene.draft.things.length + p.stats.things
  started : p'.scene.live + (p'.stats.things + p'.stats.discarded) =
    p.scene.live + (p.stats.things + p.stats.discarded) + n

/-- What is started in two parts is started altogether. -/
theorem Accounts.trans (h : p.Accounts p' m) (h' : p'.Accounts p'' n) :
    p.Accounts p'' (m + n) := by
  obtain ⟨hrecorded, hstarted⟩ := h
  obtain ⟨hrecorded', hstarted'⟩ := h'
  constructor <;> lia

theorem accounts_refl (p : Progress) : p.Accounts p 0 := ⟨rfl, rfl⟩

theorem accounts_untracked (p : Progress) : p.Accounts p.untracked 0 := ⟨rfl, rfl⟩

/-- Things go live in another scene. -/
theorem accounts_setScene (scene : Scene) (hthings : scene.draft.things = p.scene.draft.things)
    (hlive : scene.live = p.scene.live + n) : p.Accounts { p with scene } n := by
  refine ⟨by rw [hthings], ?_⟩
  dsimp only
  lia

/-- A life that ends is taken from the scene. -/
theorem accounts_retire {V : Type} {value : Codec Failure V} {thing : LiveThing V}
    (scene : Scene) (hthings : scene.draft.things = p.scene.draft.things)
    (hlive : p.scene.live = scene.live + 1)
    (hok : ({ p with scene } : Progress).retire value thing t = .done p') : p.Accounts p' 0 := by
  obtain ⟨⟨things, hscene⟩, hrecorded, hended⟩ := ends_retire hok
  have hsame : p'.scene.live = scene.live := by
    rw [hscene]
    rfl
  dsimp only at hrecorded hended
  rw [hthings] at hrecorded
  refine ⟨hrecorded, ?_⟩
  lia

/-! ### Entities -/

/-- An entity that goes is accounted for, and is not there any more. -/
theorem accounts_retireEntity {id : Int32} (hok : p.retireEntity t id = .done p') :
    p.Accounts p' 0 ∧ p'.scene.entities.get? id = none := by
  rw [retireEntity] at hok
  split at hok
  · next hnone =>
    obtain rfl := Outcome.done_inj.1 hok
    exact ⟨accounts_refl p, hnone⟩
  · next entity hentity =>
    refine ⟨accounts_retire { p.scene with entities := p.scene.entities.erase id } rfl ?_ hok, ?_⟩
    · simp only [Scene.live, SortedMap.size_eq_size_erase_add_one hentity]
      lia
    · obtain ⟨things, hscene⟩ := (ends_retire hok).scene
      rw [hscene]
      dsimp only
      rw [SortedMap.get?_erase, if_pos rfl]

/-- An entity that appears is one thing more, whether or not it takes the place of another. -/
theorem accounts_spawnEntity {id : Int32} {uuid : Uuid} {kind : Int32} {location : Location}
    (hok : p.spawnEntity t id uuid kind location = .done p') : p.Accounts p' 1 := by
  obtain ⟨p₁, hretire, hok⟩ := Outcome.andThen_eq_done_iff.1 hok
  obtain rfl := Outcome.done_inj.1 hok
  obtain ⟨haccounts, hnone⟩ := accounts_retireEntity hretire
  refine haccounts.trans (accounts_setScene _ ?_ (n := 1) ?_)
  · rfl
  · simp only [Scene.live, SortedMap.size_insert_of_get?_eq_none hnone]
    lia

/-- An entity that moves is none more. -/
theorem accounts_teleportEntity (p : Progress) (t : Time) (id : Int32) (location : Location) :
    p.Accounts (p.teleportEntity t id location) 0 := by
  rw [teleportEntity]
  split
  · exact accounts_untracked p
  · next entity hentity =>
    refine accounts_setScene _ rfl ?_
    simp only [Scene.live, SortedMap.size_insert_of_get?_eq_some hentity]
    rfl

theorem accounts_removeEntity {id : Int32} (hok : p.removeEntity t id = .done p') :
    p.Accounts p' 0 := by
  rw [removeEntity] at hok
  split at hok
  · obtain rfl := Outcome.done_inj.1 hok
    exact accounts_untracked p
  · exact (accounts_retireEntity hok).1

/-- Entities that go are none more. -/
theorem accounts_removeEntities {ids : List Int32} (hok : removeEntities t ids p = .done p') :
    p.Accounts p' 0 := by
  induction ids generalizing p with
  | nil =>
    obtain rfl := Outcome.done_inj.1 hok
    exact accounts_refl p
  | cons id ids ih =>
    rw [removeEntities_cons] at hok
    obtain ⟨p₁, hremove, hok⟩ := Outcome.andThen_eq_done_iff.1 hok
    exact (accounts_removeEntity hremove).trans (ih hok)

/-! ### Chunks -/

/-- A chunk that goes is accounted for, and is not there any more. -/
theorem accounts_retireChunk {x z : Int32} (hok : p.retireChunk t x z = .done p') :
    p.Accounts p' 0 ∧ p'.scene.chunks.get? (x, z) = none := by
  rw [retireChunk] at hok
  split at hok
  · next hnone =>
    obtain rfl := Outcome.done_inj.1 hok
    exact ⟨accounts_refl p, hnone⟩
  · next chunk hchunk =>
    refine ⟨accounts_retire { p.scene with chunks := p.scene.chunks.erase (x, z) } rfl ?_ hok, ?_⟩
    · simp only [Scene.live, SortedMap.size_eq_size_erase_add_one hchunk]
      lia
    · obtain ⟨things, hscene⟩ := (ends_retire hok).scene
      rw [hscene]
      dsimp only
      rw [SortedMap.get?_erase, if_pos rfl]

/-- A chunk that appears is one thing more, whether or not it takes the place of another. -/
theorem accounts_spawnChunk {x z : Int32} {data : Bytes} {column : Column}
    (hok : p.spawnChunk t x z data column = .done p') : p.Accounts p' 1 := by
  obtain ⟨p₁, hretire, hok⟩ := Outcome.andThen_eq_done_iff.1 hok
  obtain rfl := Outcome.done_inj.1 hok
  obtain ⟨haccounts, hnone⟩ := accounts_retireChunk hretire
  refine haccounts.trans (accounts_setScene _ ?_ (n := 1) ?_)
  · rfl
  · simp only [Scene.live, SortedMap.size_insert_of_get?_eq_none hnone]
    lia

/-- A chunk that is there goes on. -/
theorem accounts_setChunk {key : Int32 × Int32} {chunk : LiveChunk}
    (hchunk : p.scene.chunks.get? key = some chunk) (chunk' : LiveChunk) :
    p.Accounts { p with scene.chunks := p.scene.chunks.insert key chunk' } 0 := by
  refine accounts_setScene _ rfl ?_
  simp only [Scene.live, SortedMap.size_insert_of_get?_eq_some hchunk]
  rfl

/-- **A chunk that is sent is one thing more just when it starts one.** -/
theorem accounts_receiveChunk {x z : Int32} {data : Bytes}
    (hok : p.receiveChunk t x z data = .done p') :
    p.Accounts p' (p.scene.starts (.chunkData x z data)).toNat := by
  obtain ⟨column, hdecode, hok⟩ := receiveChunk_cases hok
  rw [Scene.starts]
  simp only [hdecode]
  split at hok
  · next hnone =>
    rw [hnone]
    exact accounts_spawnChunk hok
  · next chunk hchunk =>
    rw [hchunk, Option.all_some]
    split at hok
    · next hdiff =>
      rw [hdiff]
      exact accounts_spawnChunk hok
    · next changes hdiff =>
      obtain rfl := Outcome.done_inj.1 hok
      rw [hdiff]
      exact accounts_setChunk hchunk _

/-- A block that changes is no thing. -/
theorem accounts_updateBlock (p : Progress) (t : Time) (position : Position) (state : BlockState) :
    p.Accounts (p.updateBlock t position state) 0 := by
  rw [updateBlock]
  split
  · exact accounts_untracked p
  · next chunk hchunk =>
    split
    · exact accounts_untracked p
    · split
      · exact accounts_refl p
      · exact accounts_setChunk hchunk _

/-! ### Weather -/

/-- A game event is one thing more if it starts rain. -/
theorem accounts_gameEvent {event : UInt8} {value : Float32Bits}
    (hok : p.gameEvent t event value = .done p') :
    p.Accounts p' (p.scene.starts (.gameEvent event value)).toNat := by
  rw [Scene.starts]
  rw [gameEvent] at hok
  by_cases hbegins : event = GameEvent.rainBegins
  · rw [if_pos hbegins] at hok
    obtain rfl := Outcome.done_inj.1 hok
    refine accounts_setScene _ rfl ?_
    -- rain that falls already goes on
    cases hrain : p.scene.weather <;> simp [Scene.live, hbegins, hrain]
  rw [decide_eq_false hbegins, Bool.false_and]
  rw [if_neg hbegins] at hok
  split at hok
  · rw [endRain] at hok
    split at hok
    · obtain rfl := Outcome.done_inj.1 hok
      exact accounts_refl p
    · next rain hrain =>
      refine accounts_retire { p.scene with weather := none } rfl ?_ hok
      simp [Scene.live, hrain]
  split at hok
  · obtain rfl := Outcome.done_inj.1 hok
    refine accounts_setScene _ rfl ?_
    cases hrain : p.scene.weather <;> simp [Scene.live, hrain]
  split at hok
  all_goals
    obtain rfl := Outcome.done_inj.1 hok
    exact ⟨rfl, rfl⟩

/-- **A packet changes the balance by the thing that it starts.** -/
theorem accounts_receive {packet : Packet} (hok : p.receive t packet = .done p') :
    p.Accounts p' (p.scene.starts packet).toNat := by
  cases packet with
  | spawnEntity => exact accounts_spawnEntity hok
  | removeEntities => exact accounts_removeEntities hok
  | chunkData => exact accounts_receiveChunk hok
  | unloadChunk => exact (accounts_retireChunk hok).1
  | gameEvent => exact accounts_gameEvent hok
  | teleportEntity id location =>
    obtain rfl := Outcome.done_inj.1 hok
    exact accounts_teleportEntity p t id location
  | blockUpdate position state =>
    obtain rfl := Outcome.done_inj.1 hok
    exact accounts_updateBlock p t position state
  | setTime | setViewCenter | setViewDistance | joinGame | respawn | playerPosition
  | changeDifficulty | foreign =>
    obtain rfl := Outcome.done_inj.1 hok
    exact ⟨rfl, rfl⟩

end Progress

/-! ### The whole recording -/

namespace Indexer

/-- The number of things that packets start as an indexer takes them. -/
def startedBy : Recording → Indexer → Nat
  | [], _ => 0
  | (t, packet) :: rest, ix =>
    (ix.scene.any fun scene => scene.starts packet).toNat + startedBy rest (ix.push t packet).state

/-- All records are counted, and so many things have been started, which are live, on record or
discarded. -/
structure Accounts (ix : Indexer) (ledger : Ledger) (n : Nat) : Prop where
  recorded : ix.stats.things =
    ledger.recorded + ix.scene.elim 0 fun scene => scene.draft.things.length
  started : n = ix.scene.elim 0 Scene.live + (ix.stats.things + ix.stats.discarded)

namespace Accounts

variable {ix ix' : Indexer} {ledger ledger' closed : Ledger} {n : Nat} {t : Time}

theorem start (log : Log) : (Indexer.start log).Accounts .blank 0 := ⟨rfl, rfl⟩

theorem setPackets (h : ix.Accounts ledger n) (last : Time) (packets : Nat) :
    ({ ix with last, stats.packets := packets } : Indexer).Accounts ledger n :=
  ⟨h.recorded, h.started⟩

theorem wipe (h : ix.Accounts ledger n) (t : Time) :
    ({ ix with
      corrections := .empty
      draft.corrections := ix.draft.corrections.insert t [] } : Indexer).Accounts
        (ledger.wipe t) n :=
  ⟨h.recorded, h.started⟩

/-- **When the open world is closed, everything live is accounted for.** -/
theorem closeWorld (h : ix.Accounts ledger n) (htells : ix.Tells ledger)
    (horder : ledger.Orderly t) (hlossless : ledger.Lossless) (ht : t ≤ Time.last)
    (hok : ix.closeWorld t = .done ix') (hcloses : ledger.Closes t closed) :
    ix'.Accounts closed n ∧ ix'.scene = none := by
  have hscene := htells.scene
  cases hopen : ix.scene with
  | none =>
    rw [Indexer.closeWorld, hopen] at hok
    rw [hopen] at hscene
    generalize hcurrent : ledger.current = current at hscene
    cases hscene
    obtain rfl := Outcome.done_inj.1 hok
    obtain rfl := hcloses.unique (.idle hcurrent)
    exact ⟨h, hopen⟩
  | some scene =>
    rw [hopen] at hscene
    generalize hcurrent : ledger.current = current at hscene
    cases hscene with
    | @some _ stage htold =>
      obtain ⟨p, header, log, hend, -, rfl⟩ := closeWorld_eq_done hopen hok
      obtain ⟨keys, hcover, hkeeps, -⟩ := htold.endAll (horder.current stage hcurrent).1 ht hend
      obtain rfl := hcloses.unique (.busy hcurrent hcover)
      obtain ⟨hrecorded, hstarted⟩ := h
      obtain ⟨-, hcounted, hended⟩ := Progress.ends_endAll hend
      -- the records are those of the lives that are over, now that all are
      have hlives : p.scene.draft.things.length = (stage.close t keys).past.length := by
        obtain ⟨roster, hthings, hpast, -⟩ := hkeeps.roster
        rw [← hthings, List.length_map, ← roster.length_map (·.2), hpast, List.length_map]
      rw [hopen] at hrecorded hstarted
      simp only [Option.elim_some] at hrecorded hstarted
      dsimp only at hcounted hended
      refine ⟨⟨?_, ?_⟩, rfl⟩
      · rw [hlossless.recorded_insert horder hcurrent]
        simp only [Option.elim_none]
        lia
      · simp only [Option.elim_none]
        lia

/-- A world that opens has nothing yet. -/
theorem openWorld (h : ix.Accounts ledger n) (htells : ix.Tells ledger)
    (horder : ledger.Orderly t) (hlossless : ledger.Lossless) (ht : t ≤ Time.last)
    {info : WorldInfo} {seeds : ChannelSeeds} (hok : ix.openWorld t info seeds = .done ix')
    (hcloses : ledger.Closes t closed) (current : Option Stage) :
    ix'.Accounts { closed with current } n := by
  obtain ⟨ix₁, hclose, hok⟩ := Outcome.andThen_eq_done_iff.1 hok
  obtain rfl := Outcome.done_inj.1 hok
  obtain ⟨⟨hrecorded, hstarted⟩, hnone⟩ :=
    h.closeWorld htells horder hlossless ht hclose hcloses
  rw [hnone] at hrecorded hstarted
  exact ⟨hrecorded, hstarted⟩

/-- A packet for the open world. -/
theorem receive (h : ix.Accounts ledger n) {packet : Packet}
    (hok : ix.receive t packet = .done ix') (current : Option Stage) :
    ix'.Accounts { ledger with current }
      (n + (ix.scene.any fun scene => scene.starts packet).toNat) := by
  rw [Indexer.receive] at hok
  split at hok
  · next hopen =>
    obtain rfl := Outcome.done_inj.1 hok
    obtain ⟨hrecorded, hstarted⟩ := h
    rw [hopen] at hrecorded hstarted ⊢
    exact ⟨hrecorded, hstarted⟩
  · next scene hopen =>
    obtain ⟨p, hreceive, rfl⟩ := Outcome.map_eq_done_iff.1 hok
    obtain ⟨hcounted, hbalance⟩ := Progress.accounts_receive hreceive
    obtain ⟨hrecorded, hstarted⟩ := h
    rw [hopen] at hrecorded hstarted ⊢
    simp only [Option.elim_some, Option.any_some] at hrecorded hstarted hcounted hbalance ⊢
    refine ⟨?_, ?_⟩
    · show p.stats.things = ledger.recorded + p.scene.draft.things.length
      lia
    · dsimp only [Option.elim_some]
      lia

/-- **What the indexer takes keeps the balance.** -/
theorem handle (h : ix.Accounts ledger n) (htells : ix.Tells ledger) (horder : ledger.Orderly t)
    (hlossless : ledger.Lossless) (ht : t ≤ Time.last)
    {packet : Packet} (hok : ix.handle t packet = .done ix')
    (hreceives : ledger.Receives t packet ledger') :
    ix'.Accounts ledger' (n + (ix.scene.any fun scene => scene.starts packet).toNat) := by
  -- packets that are not for the open world start nothing in it
  have hidle (hstarts : ∀ scene : Scene, scene.starts packet = false) (ix' : Indexer) :
      ix'.Accounts ledger' n →
        ix'.Accounts ledger' (n + (ix.scene.any fun scene => scene.starts packet).toNat) := by
    simp only [hstarts, Option.any_false, Bool.toNat_false, Nat.add_zero, imp_self]
  have hother (hreceive : ix.receive t packet = .done ix') (hentrance : ¬ packet.IsEntrance)
      (hcorrective : CorrectionSlot.of? packet = none) :
      ix'.Accounts ledger' (n + (ix.scene.any fun scene => scene.starts packet).toNat) := by
    obtain rfl := hreceives.unique (.other hentrance hcorrective)
    exact h.receive hreceive _
  cases packet with
  | joinGame settings dimension =>
    refine hidle (fun _ => rfl) ix' ?_
    cases hreceives with
    | join hcloses =>
      exact (h.wipe t).openWorld (htells.wipe t) horder.wipe hlossless ht hok hcloses _
    | correct hslot => exact absurd hslot (by simp [CorrectionSlot.of?])
    | other hentrance => exact absurd trivial hentrance
  | respawn dimension =>
    refine hidle (fun _ => rfl) ix' ?_
    have hscene := htells.scene
    simp only [Indexer.handle, Indexer.respawn] at hok
    cases hreceives with
    | respawn hbusy hcloses =>
      rw [hbusy] at hscene
      generalize hopen : ix.scene = scene at hscene
      cases hscene with
      | some =>
        simp only [hopen] at hok
        exact h.openWorld htells horder hlossless ht hok hcloses _
    | stray hnone =>
      rw [hnone] at hscene
      generalize hopen : ix.scene = scene at hscene
      cases hscene
      simp only [hopen] at hok
      obtain rfl := Outcome.done_inj.1 hok
      obtain ⟨hrecorded, hstarted⟩ := h
      rw [hopen] at hrecorded hstarted
      exact ⟨hrecorded, hstarted⟩
    | correct hslot => exact absurd hslot (by simp [CorrectionSlot.of?])
    | other hentrance => exact absurd trivial hentrance
  | playerPosition =>
    obtain rfl := Outcome.done_inj.1 hok
    refine hidle (fun _ => rfl) ix ?_
    obtain rfl := hreceives.unique (.other (fun h => h) rfl)
    exact ⟨h.recorded, h.started⟩
  | changeDifficulty | foreign =>
    obtain rfl := Outcome.done_inj.1 hok
    refine hidle (fun _ => rfl) _ ?_
    obtain rfl := hreceives.unique (.correct rfl)
    exact ⟨h.recorded, h.started⟩
  | spawnEntity | teleportEntity | removeEntities | chunkData | unloadChunk | blockUpdate
  | gameEvent | setTime | setViewCenter | setViewDistance => exact hother hok (fun h => h) rfl

/-- **What the packets of a recording start is accounted for.** -/
theorem pushAll {front rest : Recording} (h : ix.Accounts ledger n) (htells : ix.Tells ledger)
    (hafter : Ledger.After front ix.last ledger) (htimes : ∀ e ∈ rest, e.1 ≤ Time.last)
    (hok : Indexer.pushAll rest ix = .done ix')
    (hafter' : Ledger.After (front ++ rest) ix'.last ledger') :
    ix'.Accounts ledger' (n + startedBy rest ix) := by
  induction rest generalizing front ix ledger n with
  | nil =>
    obtain rfl := Outcome.done_inj.1 hok
    rw [List.append_nil] at hafter'
    obtain rfl := hafter.unique hafter'
    exact h
  | cons e rest ih =>
    obtain ⟨t, packet⟩ := e
    have ht := htimes _ List.mem_cons_self
    rw [pushAll_cons] at hok
    obtain ⟨ix₁, hpush, hok⟩ := Outcome.andThen_eq_done_iff.1 hok
    obtain ⟨hle, hlast, ledger₁, hreceives, htells₁⟩ := htells.push hafter.orderly ht hpush
    have haccounts := (h.setPackets t _).handle (htells.setCounts t _) (hafter.orderly.mono hle)
      hafter.lossless ht (push_eq_done hpush).2 hreceives
    have hafter₁ : Ledger.After (front ++ [(t, packet)]) ix₁.last ledger₁ := by
      rw [hlast]
      exact .packet hafter hle hreceives
    rw [List.append_cons] at hafter'
    rw [startedBy, hpush, ← Nat.add_assoc]
    exact ih haccounts htells₁ hafter₁ (fun e he => htimes e (List.mem_cons_of_mem _ he)) hok
      hafter'

end Accounts

end Indexer

end Playhead
