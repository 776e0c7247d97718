import Playhead.Proofs.Indexer.Chunks
import Playhead.Proofs.Indexer.Counts
import Playhead.Proofs.Seeking

/-!
# The blocks of an index

What an index has of a chunk is the packet that it was first sent with and the changes of its blocks
since. These changes chain (`Playhead.Column.Chains`): each of them lies in the chunk and finds the
block that it changes from, so they can be run forward and backward. And they lead, at every moment
at which the chunk is there, to the blocks that the packets of the recording lead to, from the one
that started the chunk on (`Playhead.Recording.changes_chain`).

Which packet starts a chunk is up to the indexer (`Playhead.Indexer.StartsChunk`).
-/

namespace Playhead

open Wire (Codec)

/-! ### Chunks that the indexer starts -/

/-- A chunk that is sent starts a thing in the scene just when it does on the stage. -/
theorem Scene.Matches.starts_chunkData_iff {scene : Scene} {stage : Stage} (h : scene.Matches stage)
    (x z : Int32) (data : Bytes) :
    scene.starts (.chunkData x z data) = true ↔ stage.StartsChunk x z data := by
  rw [Scene.starts, Stage.StartsChunk]
  cases Column.decode data with
  | error failure => simp
  | ok column =>
    have hchunk := h.chunks x z
    generalize scene.chunks.get? (x, z) = live at hchunk ⊢
    generalize stage.present (.chunk x z) = life at hchunk ⊢
    cases hchunk with
    | none => simp
    | some => simp [h.minY_eq]

namespace Indexer

/-- Whether a chunk that is sent after a recording starts a new one in the index. -/
def StartsChunk (log : Log) (recording : Recording) (x z : Int32) (data : Bytes) : Prop :=
  ∃ ix scene, pushAll recording (.start log) = .done ix ∧ ix.scene = some scene ∧
    scene.starts (.chunkData x z data) = true

/-- What holds of the stage after a recording holds of the scene of its index, if it is the same
thing to say of a scene and of the stage that it matches. -/
theorem exists_stage_iff_exists_scene {log : Log} (hlog : log.Faithful) {recording : Recording}
    (htimes : ∀ e ∈ recording, e.1 ≤ Time.last) {ix : Indexer}
    (hpush : pushAll recording (.start log) = .done ix) {p : Stage → Prop} {q : Scene → Prop}
    (hsame : ∀ (scene : Scene) (stage : Stage), scene.Matches stage → (q scene ↔ p stage)) :
    (∃ now ledger stage, Ledger.After recording now ledger ∧ ledger.current = some stage ∧
      p stage) ↔
    ∃ ix scene, pushAll recording (.start log) = .done ix ∧ ix.scene = some scene ∧ q scene := by
  obtain ⟨ledger, hafter, htells⟩ := (Tells.start hlog).pushAll .blank htimes hpush
  rw [List.nil_append] at hafter
  have hscene := htells.scene
  constructor
  · rintro ⟨now, ledger', stage, hafter', hstage, hp⟩
    obtain rfl := hafter.unique hafter'
    rw [hstage] at hscene
    generalize hopen : ix.scene = opened at hscene
    cases hscene with
    | @some scene _ htold => exact ⟨ix, scene, hpush, hopen, (hsame _ _ htold.scene).2 hp⟩
  · rintro ⟨ix', scene, hpush', hopen, hq⟩
    obtain rfl := Outcome.done_inj.1 (hpush.symm.trans hpush')
    rw [hopen] at hscene
    generalize hstage : ledger.current = current at hscene
    cases hscene with
    | @some _ stage htold =>
      exact ⟨ix.last, ledger, stage, hafter, hstage, (hsame _ _ htold.scene).1 hq⟩

/-- The indexer starts a chunk when the stage does. -/
theorem startsChunk_iff {log : Log} (hlog : log.Faithful) {recording : Recording}
    (htimes : ∀ e ∈ recording, e.1 ≤ Time.last) {ix : Indexer}
    (hpush : pushAll recording (.start log) = .done ix) (x z : Int32) (data : Bytes) :
    recording.StartsChunk x z data ↔ StartsChunk log recording x z data :=
  exists_stage_iff_exists_scene hlog htimes hpush fun _ _ h => h.starts_chunkData_iff x z data

end Indexer

/-! ### Changes that chain -/

/-- Whether block changes chain: each of them lies in the chunk and finds the block that it changes
from, once those before it have been made. -/
def Column.Chains (minY x z : Int32) (column : Column) (changes : List BlockChange) : Prop :=
  ∀ done c rest, changes = done ++ c :: rest → c.position.chunk = (x, z) ∧
    (column.run minY done).block? minY c.position = some c.before

/-- Changes that chain on the blocks of a column chain on the column itself. -/
theorem Column.Sound.chains {column : Column} (h : column.Sound) {minY x z : Int32}
    {changes : List BlockChange} (hchained : Content.Chained minY column.content changes)
    (hchanges : ∀ c ∈ changes, c.position.chunk = (x, z) ∧ IdInRange c.after) :
    column.Chains minY x z changes := by
  rintro done c rest rfl
  obtain ⟨-, hrest⟩ := Content.chained_append.1 hchained
  obtain ⟨hsound, hcontent⟩ := h.run minY fun c' hc' =>
    (hchanges c' (List.mem_append_left _ hc')).2
  cases hrest with
  | cons here _ =>
    refine ⟨(hchanges c (by simp)).1, ?_⟩
    rw [hsound.block?_eq, hcontent]
    exact here

/-- What an index holds of a chunk under a record: the packet that it is first sent with, which can
be read, and the changes of its blocks, which chain. -/
structure ThingRecord.OfChunk (record : ThingRecord) (log : Log) (minY x z : Int32) (data : Bytes)
    (column : Column) (line : Timeline (List BlockChange)) : Prop where
  spawned : record.spawnPackets = [.chunkData x z data]
  decoded : Column.decode data = .ok column
  held : log.Holds (Timeline.codec Stored.changes) record.inner line
  chained : column.Chains minY x z (line.entries.flatMap (·.2))

/-- **A record recounts its chunk.** -/
theorem Life.Recounts.of_keptBy {life : Life} {recording : Recording} {minY : Int32}
    (h : life.Recounts recording minY) (hproper : life.Proper minY) {log : Log}
    {record : ThingRecord} (hkept : life.KeptBy log record) {x z : Int32}
    (hkey : record.key = .chunk x z) :
    ∃ data column line front back, record.OfChunk log minY x z data column line ∧
      recording.Origin Recording.StartsChunk x z data record.spawn record.despawn front back ∧
      ∀ t, record.spawn ≤ t → t < record.despawn →
        (column.run minY (line.changesUpTo t)).same
          (column.receiveAll minY x z (back.upTo t)) = true := by
  obtain ⟨data, line, hrole⟩ := Role.exists_of_key (hkept.key.symm.trans hkey)
  obtain ⟨front, back, column, horigin, hdecode, hshown⟩ := h x z data line hrole
  obtain ⟨spawn, despawn, role⟩ := life
  subst hrole
  obtain ⟨_, hdecode', hrange, hchained, hchanges⟩ := hproper.consistent
  obtain rfl := Except.ok.inj (hdecode.symm.trans hdecode')
  have hsound := Column.sound_of_decode hdecode hrange
  have hinside : ∀ c ∈ line.entries.flatMap (·.2), c.position.chunk = (x, z) ∧
      IdInRange c.after := fun c hc => by
    obtain ⟨e, he, hc⟩ := List.mem_flatMap.1 hc
    exact ⟨(hchanges e he c hc).1, (hchanges e he c hc).2.2⟩
  refine ⟨data, column, line, front, back,
    ⟨hkept.spawnPackets, hdecode, hkept.held, hsound.chains hchained hinside⟩, ?_,
    fun t hspawn hdespawn => ?_⟩
  · rw [hkept.spawn, hkept.despawn]
    exact horigin
  · -- both columns have the blocks that the life shows
    obtain ⟨hsent, hfigure⟩ := hshown t ⟨hkept.spawn ▸ hspawn, hkept.despawn ▸ hdespawn⟩
    obtain ⟨hrun, hcontent⟩ := hsound.run minY fun c hc => by
      obtain ⟨e, he, hc⟩ := Life.mem_changesUpTo (t := t) hc
      exact (hchanges e he c hc).2.2
    simp only [Role.figure, hdecode] at hfigure
    rw [Column.same_iff hrun hsent, hcontent]
    exact Figure.chunk.inj hfigure

/-! ### The index of a recording -/

namespace Recording

variable {recording : Recording}

/-- **The changes of blocks in an index chain**, if the blocks have a place on the wire in the
worlds that they come to. Of every chunk on record the index holds the packet that it was first sent
with and changes each of which lies in the chunk and finds what it changes from; and at every time
at which the chunk is there, the changes up to then lead to the blocks that the recorded packets
lead to, from the one that started the chunk on. -/
theorem changes_chain {log log' : Log} {root : Handle} (hlog : log.Faithful)
    (htimes : ∀ e ∈ recording, e.1 ≤ Time.last) (hfits : recording.FitsWorlds)
    (hindex : recording.index log = .ok (root, log')) :
    ∃ volume : Volume, volume.WrittenIn log' root ∧
      ∀ e ∈ volume.chapters.entries, ∀ p ∈ e.2.roster, ∀ x z, p.1.key = .chunk x z →
        ∃ data column line front back,
          p.1.OfChunk log' e.2.header.info.dimension.minY x z data column line ∧
          recording.Origin (Indexer.StartsChunk log) x z data p.1.spawn p.1.despawn front back ∧
          ∀ t, p.1.spawn ≤ t → t < p.1.despawn →
            (column.run e.2.header.info.dimension.minY (line.changesUpTo t)).same
              (column.receiveAll e.2.header.info.dimension.minY x z (back.upTo t)) = true := by
  obtain ⟨ix, _, ledger, closed, volume, hpush, -, hlast, hafter, -, hcloses, hrecords, hwritten⟩ :=
    exists_written hlog htimes hindex
  have horder := hafter.orderly.mono hlast
  have hrecounts := hcloses.recounts horder (Int.le_refl _) (hafter.recounts hfits htimes)
  have hsound := hcloses.all (hafter.sound hfits) fun stage keys _ hstage =>
    hstage.close Time.last keys
  refine ⟨volume, hwritten, fun e he p hp x z hkey => ?_⟩
  obtain ⟨stage, hstage, hrecord⟩ := hrecords.of_mem he
  have hlives := hrecord.lives_eq (hsound.closed _ hstage)
  have hlife : p.2 ∈ stage.past := by
    rw [← hlives]
    exact List.mem_map_of_mem hp
  obtain ⟨data, column, line, front, back, hchunk, horigin, hsame⟩ :=
    ((hrecounts.closed _ hstage).past p.2 hlife).of_keptBy ((hsound.closed _ hstage).past p.2 hlife)
      ((hwritten.chapters e he).kept p hp) hkey
  rw [hrecord.info]
  refine ⟨data, column, line, front, back, hchunk, horigin.congr ?_, hsame⟩
  -- on the way to the end the indexer has been everywhere
  rintro front rest x z data rfl
  rw [Indexer.pushAll_append] at hpush
  obtain ⟨mid, hfront, -⟩ := Outcome.andThen_eq_done_iff.1 hpush
  exact Indexer.startsChunk_iff hlog (fun e he => htimes e (List.mem_append_left _ he)) hfront x z
    data

/-- Blocks that fit the world that a client is in fit as long as the client stays there. -/
theorem blocksFit_of_stays {client : Client}
    (h : ∀ e ∈ recording, ¬ e.2.IsEntrance ∧ e.2.FitsWorld client.minY) :
    BlocksFit client recording := by
  induction recording generalizing client with
  | nil => trivial
  | cons e rest ih =>
    obtain ⟨hstays, hfits⟩ := h e List.mem_cons_self
    have hminY : (client.apply e.2).minY = client.minY := by
      rw [Client.minY, (client.world_apply hstays).2, ← Client.minY]
    refine ⟨hfits, ih fun e' he' => ?_⟩
    rw [hminY]
    exact h e' (List.mem_cons_of_mem _ he')

/-- A chunk that is sent twice and in which a block changes twice. Then it is sent with another
biome, which starts it anew, taken away, and sent once more. -/
def dig : Recording :=
  [(0, .joinGame ⟨1, false, 20, 8, []⟩ ⟨"overworld", 0, 0, false, -64⟩),
    (1, .chunkData 0 0 [0, 0, 0, 0, 0, 0]), (2, .chunkData 0 0 [0, 0, 0, 0, 0, 0]),
    (3, .blockUpdate ⟨3, -60, 4⟩ 7), (3, .blockUpdate ⟨3, -60, 4⟩ 9),
    (5, .chunkData 0 0 [0, 0, 0, 0, 0, 1]), (6, .blockUpdate ⟨3, -60, 4⟩ 7),
    (6, .unloadChunk 0 0), (7, .chunkData 0 0 [0, 0, 0, 0, 0, 0])]

/-- Every block of the recording has a place in the world that it comes to. -/
theorem fitsWorlds_dig : dig.FitsWorlds := by
  have hseven : IdInRange 7 := by decide
  have hnine : IdInRange 9 := by decide
  have hother : (Packet.chunkData 0 0 [0, 0, 0, 0, 0, 1]).FitsWorld (-64) :=
    fitsWorld_of_air (List.cons_ne_nil _ _) rfl
  have hstays : ∀ e ∈ dig.tail, ¬ e.2.IsEntrance ∧ e.2.FitsWorld (-64) := by
    simp only [dig, List.tail_cons, List.forall_mem_cons]
    exact ⟨⟨id, fitsWorld_air⟩, ⟨id, fitsWorld_air⟩, ⟨id, hseven⟩, ⟨id, hnine⟩, ⟨id, hother⟩,
      ⟨id, hseven⟩, ⟨id, trivial⟩, ⟨id, fitsWorld_air⟩, fun _ h => absurd h List.not_mem_nil⟩
  have hblocks : BlocksFit .blank dig := ⟨trivial, blocksFit_of_stays hstays⟩
  exact fun _ _ _ _ hsplit _ => hblocks.fitsWorld hsplit

/-- A chunk in which a hole is dug and filled, and which is then sent again. -/
theorem changes_chain_dig : ∃ (root : Handle) (log' : Log) (volume : Volume),
    dig.index (.inMemory none) = .ok (root, log') ∧ volume.WrittenIn log' root ∧
      ∀ e ∈ volume.chapters.entries, ∀ p ∈ e.2.roster, ∀ x z, p.1.key = .chunk x z →
        ∃ data column line front back,
          p.1.OfChunk log' e.2.header.info.dimension.minY x z data column line ∧
          dig.Origin (Indexer.StartsChunk (.inMemory none)) x z data p.1.spawn p.1.despawn front
            back ∧
          ∀ t, p.1.spawn ≤ t → t < p.1.despawn →
            (column.run e.2.header.info.dimension.minY (line.changesUpTo t)).same
              (column.receiveAll e.2.header.info.dimension.minY x z (back.upTo t)) = true := by
  have hlog : (Log.inMemory none).Faithful := rfl
  have hok : (dig.index (.inMemory none)).isOk = true := by decide +kernel
  obtain ⟨⟨root, log'⟩, hindex⟩ := Codec.exists_of_isOk hok
  obtain ⟨volume, hwritten, hrecords⟩ :=
    changes_chain hlog (by decide +kernel) fitsWorlds_dig hindex
  exact ⟨root, log', volume, hindex, hwritten, hrecords⟩

end Recording

end Playhead
