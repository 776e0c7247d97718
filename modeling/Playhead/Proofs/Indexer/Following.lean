import Playhead.Proofs.Indexer.Acts
import Playhead.Proofs.Indexer.Ledger
import Playhead.Proofs.Thing.Kept

/-!
# Clients that follow what is recorded

A client to which every packet is applied as it is recorded shows the stage. Blocks are what makes
this more than bookkeeping: the blocks of a chunk that lasts are kept along with its life, and a
chunk that is sent again is told by the blocks that differ. So a stage is sound
(`Playhead.Stage.Sound`) when its lives make sense and the blocks it keeps are what the lives show.
Packets that fit the world keep a stage sound (`Playhead.Stage.Sound.receive`), and a client that
shows the stage shows it again once both have received the packet
(`Playhead.Stage.ShownBy.receive`).
-/

namespace Playhead

/-- Whether the blocks that a packet brings to a world with some lowest height have a place on the
wire. -/
def Packet.FitsWorld (minY : Int32) : Packet → Prop
  | chunkData x z data => ∀ column, Column.decode data = .ok column →
      ChunkInRange x z ∧ HeightsInRange minY column.sections.size ∧ column.InRange
  | blockUpdate _ state => IdInRange state
  | _ => True

/-- A packet that fits a world is sound. -/
theorem Packet.FitsWorld.isSound {packet : Packet} {minY : Int32} (h : packet.FitsWorld minY) :
    packet.IsSound := by
  cases packet with
  | chunkData x z data =>
    exact fun column hdecode => Column.sound_of_decode hdecode (h column hdecode).2.2
  | blockUpdate => exact h
  | _ => trivial

/-! ### What is shown of roles that go on -/

namespace Role

variable {role : Role} {minY : Int32} {t s : Time}

/-- An entity that has moved is seen where it has moved to. -/
theorem figure_movedAt {id : Int32} (hkey : role.key = .entity id)
    (htimes : ∀ τ ∈ role.times, τ ≤ t) (hs : t ≤ s) (location : Location) :
    (role.movedAt t location).figure minY s = (role.figure minY s).moved location := by
  cases role with
  | entity id' uuid kind place line =>
    rw [movedAt, figure, Timeline.at?_insert fun e he => htimes e.1 (List.mem_map_of_mem he),
      if_pos hs]
    rfl
  | chunk | weather => exact absurd hkey (by simp [key])

/-- Rain that has taken a strength is seen with it. -/
theorem figure_leveledAt (hkey : role.key = .weather) (htimes : ∀ τ ∈ role.times, τ ≤ t)
    (hs : t ≤ s) (level : Float32Bits) :
    (role.leveledAt t level).figure minY s = .rain level := by
  cases role with
  | weather line =>
    rw [leveledAt, figure, Timeline.at?_insert fun e he => htimes e.1 (List.mem_map_of_mem he),
      if_pos hs]
    rfl
  | chunk | entity => exact absurd hkey (by simp [key])

/-- A chunk without changes is shown as it was sent. -/
theorem figure_chunk_empty {x z : Int32} {data : Bytes} {column : Column}
    (hdecode : Column.decode data = .ok column) (minY : Int32) (s : Time) :
    (chunk x z data .empty).figure minY s = .chunk column.content := by
  simp only [figure, hdecode]
  rfl

/-- The changes of a chunk are shown on top of what was shown. -/
theorem figure_changedAt {x z : Int32} {data : Bytes} {line : Timeline (List BlockChange)}
    {column : Column} (hdecode : Column.decode data = .ok column)
    (htimes : ∀ τ ∈ line.keys, τ ≤ t) (hs : t ≤ s) {content : Content}
    (hfigure : (chunk x z data line).figure minY s = .chunk content) (changes : List BlockChange) :
    ((chunk x z data line).changedAt t changes).figure minY s =
      .chunk (content.run minY changes) := by
  simp only [figure, hdecode] at hfigure
  obtain rfl := Figure.chunk.inj hfigure
  rw [changedAt]
  split
  · next hempty =>
    rw [List.isEmpty_iff.1 hempty]
    simp only [figure, hdecode]
    rfl
  · simp only [figure, hdecode, Timeline.changesUpTo_insert
      (fun e he => htimes e.1 (List.mem_map_of_mem he)) changes hs, Content.run_append]

end Role

/-! ### Sound stages -/

namespace Life

/-- A life that makes sense and whose blocks have a place on the wire. -/
structure Proper (minY : Int32) (life : Life) : Prop where
  consistent : life.Consistent minY
  packable : life.Packable minY

/-- A life stays proper when its thing moves. -/
theorem Proper.movedAt {minY : Int32} {life : Life} (h : life.Proper minY) (t : Time)
    (location : Location) :
    ({ life with role := life.role.movedAt t location } : Life).Proper minY := by
  obtain ⟨spawn, despawn, role⟩ := life
  cases role with
  | entity => exact ⟨Role.get?_insert_ne_none h.consistent t location, trivial⟩
  | chunk | weather => exact h

/-- A life stays proper when its rain takes a strength. -/
theorem Proper.leveledAt {minY : Int32} {life : Life} (h : life.Proper minY) (t : Time)
    (level : Float32Bits) :
    ({ life with role := life.role.leveledAt t level } : Life).Proper minY := by
  obtain ⟨spawn, despawn, role⟩ := life
  cases role with
  | weather => exact ⟨Role.get?_insert_ne_none h.consistent t level, trivial⟩
  | chunk | entity => exact h

/-- Changes that find what they change make sense on top of what was there. -/
theorem Proper.changedAt {minY x z : Int32} {data : Bytes} {line : Timeline (List BlockChange)}
    {spawn despawn t : Time} (h : (⟨spawn, despawn, .chunk x z data line⟩ : Life).Proper minY)
    (htimes : ∀ τ ∈ line.keys, τ ≤ t) {content : Content}
    (hfigure : (Role.chunk x z data line).figure minY t = .chunk content)
    {changes : List BlockChange} (hchained : Content.Chained minY content changes)
    (hchanges : ∀ c ∈ changes, c.position.chunk = (x, z) ∧ IdInRange c.before ∧ IdInRange c.after) :
    (⟨spawn, despawn, (Role.chunk x z data line).changedAt t changes⟩ : Life).Proper minY := by
  obtain ⟨⟨column, hdecode, hrange, hall, hinside⟩, hpackable⟩ := h
  rw [Role.changedAt]
  split
  · -- no changes, nothing is recorded
    exact ⟨⟨column, hdecode, hrange, hall, hinside⟩, hpackable⟩
  have hkeys : ∀ e ∈ line.entries, e.1 ≤ t := fun e he => htimes e.1 (List.mem_map_of_mem he)
  have hnew := Role.forall_mem_insert_append hinside (t := t) hchanges
  have hnewKeys : ∀ e ∈ (line.insert t ((line.get? t).getD [] ++ changes)).entries, e.1 ≤ t := by
    intro e he
    rcases SortedMap.mem_keys_insert.1 (List.mem_map_of_mem he) with hkey | hkey
    · exact htimes e.1 hkey
    · exact Int.le_of_eq hkey
  refine ⟨⟨column, hdecode, hrange, ?_, hnew⟩, hpackable⟩
  -- all changes of the new timeline are those of the old one and then the new ones
  rw [← Timeline.changesUpTo_eq hnewKeys, Timeline.changesUpTo_insert hkeys changes (Int.le_refl t),
    Timeline.changesUpTo_eq hkeys, Content.chained_append]
  refine ⟨hall, ?_⟩
  simp only [Role.figure, hdecode, Timeline.changesUpTo_eq hkeys] at hfigure
  rwa [Figure.chunk.inj hfigure]

end Life

namespace Stage

/-- A stage whose lives make sense, with the blocks of the chunks that last as they are now. -/
structure Sound (stage : Stage) (now : Time) : Prop where
  past : ∀ life ∈ stage.past, life.Proper stage.minY
  present : ∀ key life, stage.present key = some life → life.Proper stage.minY
  columns : ∀ x z life, stage.present (.chunk x z) = some life →
    (stage.column (x, z)).Sound ∧ ∀ s, now ≤ s →
      life.role.figure stage.minY s = .chunk (stage.column (x, z)).content

namespace Sound

variable {stage : Stage} {t s now later : Time}

/-- A stage that begins is sound. -/
theorem begin (t : Time) (info : WorldInfo) (seeds : Channel → Packet) :
    (begin t info seeds).Sound t where
  past _ h := absurd h List.not_mem_nil
  present _ _ h := absurd h (by simp [Stage.begin])
  columns _ _ _ h := absurd h (by simp [Stage.begin])

/-- A stage that is sound at a time is sound later. -/
theorem mono (h : stage.Sound now) (hle : now ≤ later) : stage.Sound later :=
  { h with
    columns := by
      intro x z life hlife
      obtain ⟨hcolumn, hfigure⟩ := h.columns x z life hlife
      exact ⟨hcolumn, fun s hs => hfigure s (Int.le_trans hle hs)⟩ }

/-- A stage stays sound when a thing goes. -/
theorem retire (h : stage.Sound now) (t : Time) (key : ThingKey) :
    (stage.retire t key).Sound now where
  past life hlife := by
    rw [minY, info_retire]
    rcases mem_past_retire hlife with hlife | ⟨old, hold, -, rfl⟩
    · exact h.past life hlife
    · exact ⟨(h.present key old hold).consistent, (h.present key old hold).packable⟩
  present key' life hlife := by
    rw [minY, info_retire]
    exact h.present key' life (present_of_retire hlife).2
  columns x z life hlife := by
    rw [minY, info_retire, column_retire]
    exact h.columns x z life (present_of_retire hlife).2

/-- A stage stays sound when it closes. -/
theorem close (h : stage.Sound now) (t : Time) (keys : List ThingKey) :
    (stage.close t keys).Sound now := by
  induction keys generalizing stage with
  | nil => exact h
  | cons key keys ih => exact ih (h.retire t key)

/-- What lasts under a key that is not that of a chunk is replaced. -/
theorem setPresent (h : stage.Sound now) {key : ThingKey} {life : Life}
    (hkey : ∀ x z, key ≠ .chunk x z) (hlife : life.Proper stage.minY) :
    ({ stage with present := Function.update stage.present key (some life) } : Stage).Sound
      now where
  past := h.past
  present key' life' hlife' := by
    rcases of_update_eq_some hlife' with ⟨-, rfl⟩ | ⟨-, hlife'⟩
    · exact hlife
    · exact h.present key' life' hlife'
  columns x z life' hlife' := by
    dsimp only at hlife'
    rw [Function.update_of_ne (hkey x z).symm] at hlife'
    exact h.columns x z life' hlife'

/-- What lasts under the key of a chunk is replaced, along with its blocks. -/
theorem setChunk (h : stage.Sound now) {x z : Int32} {life : Life} {column : Column}
    (hlife : life.Proper stage.minY) (hcolumn : column.Sound)
    (hfigure : ∀ s, now ≤ s → life.role.figure stage.minY s = .chunk column.content) :
    ({ stage with
      present := Function.update stage.present (.chunk x z) (some life)
      column := Function.update stage.column (x, z) column } : Stage).Sound now where
  past := h.past
  present key' life' hlife' := by
    rcases of_update_eq_some hlife' with ⟨-, rfl⟩ | ⟨-, hlife'⟩
    · exact hlife
    · exact h.present key' life' hlife'
  columns x' z' life' hlife' := by
    dsimp only
    rcases of_update_eq_some hlife' with ⟨hkey, rfl⟩ | ⟨hne, hlife'⟩
    · obtain ⟨rfl, rfl⟩ := ThingKey.chunk.inj hkey
      rw [Function.update_self]
      exact ⟨hcolumn, hfigure⟩
    · rw [Function.update_of_ne (by simpa using hne)]
      exact h.columns x' z' life' hlife'

/-- What lasts under a key that is not that of a chunk goes on. -/
theorem alter (h : stage.Sound now) {key : ThingKey} {f : Role → Role}
    (hkey : ∀ x z, key ≠ .chunk x z)
    (hf : ∀ life : Life, life.Proper stage.minY →
      ({ life with role := f life.role } : Life).Proper stage.minY) :
    (stage.alter key f).Sound now := by
  cases hlife : stage.present key with
  | none =>
    rw [alter_of_none hlife]
    exact h
  | some life =>
    rw [alter_of_some hlife]
    exact h.setPresent hkey (hf life (h.present key life hlife))

/-! ### Packets keep a stage sound -/

/-- A chunk appears. -/
theorem chunkAnew (h : stage.Sound t) {x z : Int32} {data : Bytes} {column : Column}
    (hdecode : Column.decode data = .ok column)
    (hfits : (Packet.chunkData x z data).FitsWorld stage.minY) :
    (((stage.retire t (.chunk x z)).place t (.chunk x z data .empty)).setColumn (x, z)
      column).Sound t := by
  obtain ⟨hchunk, hheights, hrange⟩ := hfits column hdecode
  have hminY : (stage.retire t (.chunk x z)).minY = stage.minY := by
    rw [minY, info_retire]
    rfl
  refine (h.retire t (.chunk x z)).setChunk ⟨?_, hchunk, fun c hc => ?_⟩
    (Column.sound_of_decode hdecode hrange) fun s _ => ?_
  · exact ⟨column, hdecode, hrange, .nil, fun e he => absurd he List.not_mem_nil⟩
  · obtain rfl := Except.ok.inj (hdecode.symm.trans hc)
    rwa [hminY]
  · exact Role.figure_chunk_empty hdecode _ s

/-- The blocks of a chunk that lasts change. -/
theorem changeChunk (h : stage.Sound t) (horder : stage.Orderly t) {x z : Int32} {life : Life}
    (hlife : stage.present (.chunk x z) = some life) {changes : List BlockChange}
    (hchained : Content.Chained stage.minY (stage.column (x, z)).content changes)
    (hchanges : ∀ c ∈ changes, c.position.chunk = (x, z) ∧ IdInRange c.before ∧ IdInRange c.after)
    {column : Column} (hcolumn : column.Sound)
    (hrun : (stage.column (x, z)).content.run stage.minY changes = column.content) :
    ((stage.alter (.chunk x z) (Role.changedAt t changes)).setColumn (x, z) column).Sound t := by
  obtain ⟨hkey, -, hwithin⟩ := horder.present _ life hlife
  have hproper := h.present _ life hlife
  obtain ⟨-, hfigure⟩ := h.columns x z life hlife
  obtain ⟨spawn, despawn, role⟩ := life
  obtain ⟨data, line, rfl⟩ := Role.exists_of_key hkey
  have htimes : ∀ τ ∈ line.keys, τ ≤ t := fun τ hτ => (hwithin.times τ hτ).2
  obtain ⟨before, hdecode, -, -, -⟩ := hproper.consistent
  rw [alter_setColumn hlife]
  refine h.setChunk (hproper.changedAt htimes (hfigure t (Int.le_refl t)) hchained hchanges)
    hcolumn fun s hs => ?_
  rw [Role.figure_changedAt hdecode htimes hs (hfigure s hs), hrun]

/-- A chunk whose blocks have changed is shown with the blocks it has now. -/
theorem figure_changedAt {x z : Int32} {life : Life} {changes : List BlockChange} {column : Column}
    (h : ((stage.alter (.chunk x z) (Role.changedAt t changes)).setColumn (x, z) column).Sound t)
    (hlife : stage.present (.chunk x z) = some life) (hs : t ≤ s) :
    (life.role.changedAt t changes).figure stage.minY s = .chunk column.content := by
  rw [alter_setColumn hlife] at h
  obtain ⟨-, hfigure⟩ := h.columns x z _ (Function.update_self ..)
  refine (hfigure s hs).trans (congrArg (fun column => Figure.chunk (Column.content column)) ?_)
  exact Function.update_self ..

/-- The blocks of a chunk that lasts have heights that can be packed. -/
theorem heightsInRange (h : stage.Sound t) (horder : stage.Orderly t) {x z : Int32}
    {life : Life} (hlife : stage.present (.chunk x z) = some life) :
    HeightsInRange stage.minY (stage.column (x, z)).sections.size := by
  obtain ⟨hkey, -, -⟩ := horder.present _ life hlife
  obtain ⟨hconsistent, hpackable⟩ := h.present _ life hlife
  obtain ⟨-, hfigure⟩ := h.columns x z life hlife
  obtain ⟨spawn, despawn, role⟩ := life
  obtain ⟨data, line, rfl⟩ := Role.exists_of_key hkey
  obtain ⟨column, hdecode, -, -, -⟩ := hconsistent
  have hnow := hfigure t (Int.le_refl t)
  simp only [Role.figure, hdecode] at hnow
  have hsize := congrArg List.length (Figure.chunk.inj hnow)
  rw [Content.length_run, Column.length_content, Column.length_content] at hsize
  rw [← hsize]
  exact hpackable.2 column hdecode

/-- A chunk is sent. -/
theorem chunkData (h : stage.Sound t) (horder : stage.Orderly t) {x z : Int32} {data : Bytes}
    (hfits : (Packet.chunkData x z data).FitsWorld stage.minY) :
    (stage.receive t (.chunkData x z data)).Sound t := by
  rw [Stage.receive]
  cases hdecode : Column.decode data with
  | error failure => exact h
  | ok column =>
    obtain ⟨hchunk, -, hrange⟩ := hfits column hdecode
    have hcolumn := Column.sound_of_decode hdecode hrange
    dsimp only
    rcases stage.receiveChunk_eq t x z data column with
      ⟨heq, -⟩ | ⟨life, changes, hlife, hdiff, heq⟩
    · rw [heq]
      exact h.chunkAnew hdecode hfits
    · obtain ⟨hlive, -⟩ := h.columns x z life hlife
      obtain ⟨hchained, hrun⟩ := Column.chained_diff? hlive hcolumn
        (h.heightsInRange horder hlife).fit hdiff
      rw [heq]
      exact h.changeChunk horder hlife hchained
        (fun c hc => ⟨Column.chunk_of_mem_diff? hchunk hdiff hc,
          hlive.inRange_of_mem_diff? hcolumn hdiff hc⟩) hcolumn hrun

/-- A block changes. -/
theorem blockUpdate (h : stage.Sound t) (horder : stage.Orderly t) (position : Position)
    {state : BlockState} (hstate : IdInRange state) :
    (stage.receive t (.blockUpdate position state)).Sound t := by
  rw [Stage.receive]
  rcases stage.updateBlock_eq t position state with
    ⟨heq, -⟩ | ⟨life, before, hlife, hbefore, -, heq⟩
  · rw [heq]
    exact h
  · obtain ⟨hlive, -⟩ := h.columns position.chunk.1 position.chunk.2 life hlife
    have hblock := hlive.block?_eq stage.minY position
    rw [hbefore] at hblock
    have hchained : Content.Chained stage.minY (stage.column position.chunk).content
        [⟨position, before, state⟩] := .cons hblock.symm .nil
    have hchange : ∀ c ∈ [(⟨position, before, state⟩ : BlockChange)],
        c.position.chunk = position.chunk ∧ IdInRange c.before ∧ IdInRange c.after := by
      intro c hc
      obtain rfl := List.mem_singleton.1 hc
      exact ⟨rfl, hlive.inRange_of_block? hbefore, hstate⟩
    rw [heq]
    exact h.changeChunk horder hlife hchained hchange
      (hlive.setBlock stage.minY position hstate)
      (hlive.content_setBlock stage.minY position hstate).symm

/-- A game event. -/
theorem gameEvent (h : stage.Sound t) (event : UInt8) (value : Float32Bits) :
    (stage.gameEvent t event value).Sound t := by
  have hrain (level : Float32Bits) : (stage.alter .weather (Role.leveledAt t level)).Sound t :=
    h.alter (fun x z => by simp) fun life hlife => hlife.leveledAt t level
  rw [Stage.gameEvent]
  split
  · rw [Stage.beginRain]
    split
    · refine h.setPresent (fun x z => by simp [Role.key]) ⟨?_, trivial⟩
      show SortedMap.get? (SortedMap.empty.insert t 0) t ≠ none
      simp
    · exact hrain 0
  split
  · exact h.retire t _
  split
  · exact hrain value
  split
  · exact ⟨h.past, h.present, h.columns⟩
  · exact h

/-- **A packet that fits the world keeps the stage sound.** -/
theorem receive (h : stage.Sound t) (horder : stage.Orderly t) {packet : Packet}
    (hfits : packet.FitsWorld stage.minY) : (stage.receive t packet).Sound t := by
  cases packet with
  | spawnEntity id uuid kind location =>
    refine (h.retire t (.entity id)).setPresent (fun x z => by simp [Role.key]) ⟨?_, trivial⟩
    show SortedMap.get? (SortedMap.ofList [(t, location)]) t ≠ none
    simp [SortedMap.get?_ofList_singleton]
  | teleportEntity id location =>
    exact h.alter (fun x z => by simp) fun life hlife => hlife.movedAt t location
  | removeEntities ids =>
    rw [receive_removeEntities]
    exact h.close t _
  | chunkData x z data => exact h.chunkData horder hfits
  | unloadChunk x z => exact h.retire t _
  | blockUpdate position state => exact h.blockUpdate horder position hfits
  | gameEvent event value => exact h.gameEvent event value
  | setTime | setViewCenter | setViewDistance => exact ⟨h.past, h.present, h.columns⟩
  | joinGame | respawn | playerPosition | changeDifficulty | foreign => exact h

end Sound

/-! ### What a packet does to the stage and to the client -/

/-- A stage that is sound, and that shows the things that a client shows. -/
structure Answers (stage : Stage) (now s : Time) (client : Client) : Prop where
  sound : stage.Sound now
  look : client.look = stage.figures s

namespace Answers

variable {stage : Stage} {t s : Time} {client : Client}

/-- An entity appears. -/
theorem look_spawnEntity (h : stage.Answers t s client) (hs : t ≤ s) (id : Int32) (uuid : Uuid)
    (kind : Int32) (location : Location) :
    (client.apply (.spawnEntity id uuid kind location)).look =
      (stage.receive t (.spawnEntity id uuid kind location)).figures s := by
  have hfigure : Role.figure stage.minY s (.entity id uuid kind location
      (.ofList [(t, location)])) = .entity ⟨uuid, kind, location⟩ := by
    rw [Role.figure, Timeline.at?, Timeline.floor?_ofList_singleton, if_pos hs]
    rfl
  rw [Client.look_spawnEntity, h.look, receive, figures_place, figures_retire, minY, info_retire,
    ← minY, hfigure]
  exact (Function.update_idem ..).symm

/-- An entity moves. -/
theorem look_teleportEntity (h : stage.Answers t s client) (horder : stage.Orderly t) (hs : t ≤ s)
    (id : Int32) (location : Location) (onGround : Bool) :
    (client.apply (.teleportEntity id location onGround)).look =
      (stage.receive t (.teleportEntity id location onGround)).figures s := by
  rw [Client.look_teleportEntity, h.look, receive, figures_alter, figures, Option.map_map]
  refine congrArg (Function.update _ _) (Option.map_congr fun life hlife => ?_)
  obtain ⟨hkey, -, hwithin⟩ := horder.present _ life hlife
  exact (Role.figure_movedAt hkey (fun τ hτ => (hwithin.times τ hτ).2) hs location).symm

/-- Entities go. -/
theorem look_removeEntities (h : stage.Answers t s client) (ids : List Int32) :
    (client.apply (.removeEntities ids)).look =
      (stage.receive t (.removeEntities ids)).figures s := by
  rw [receive_removeEntities]
  funext key
  rw [Client.look_removeEntities, h.look, figures_close]
  simp only [List.mem_map, eq_comm]

/-- A chunk appears. -/
theorem look_chunkAnew (h : stage.Answers t s client) {x z : Int32} {data : Bytes}
    {column : Column} (hdecode : Column.decode data = .ok column) :
    (client.apply (.chunkData x z data)).look =
      ((stage.retire t (.chunk x z)).place t (.chunk x z data .empty)).figures s := by
  rw [Client.look_chunkData client hdecode, h.look, figures_place, figures_retire,
    Role.figure_chunk_empty hdecode]
  exact (Function.update_idem ..).symm

/-- The blocks of a chunk that lasts change to those of a column. -/
theorem look_changeChunk (h : stage.Answers t s client) (hs : t ≤ s) {x z : Int32} {life : Life}
    (hlife : stage.present (.chunk x z) = some life) {changes : List BlockChange} {column : Column}
    (hsound : ((stage.alter (.chunk x z) (Role.changedAt t changes)).setColumn (x, z)
      column).Sound t)
    {client' : Client} (hlook : client'.look = Function.update client.look (.chunk x z)
      (some (.chunk column.content))) :
    client'.look = (stage.alter (.chunk x z) (Role.changedAt t changes)).figures s := by
  rw [figures_alter, hlook, h.look, hlife, Option.map_some, hsound.figure_changedAt hlife hs]

/-- A chunk is sent. -/
theorem look_chunkData (h : stage.Answers t s client) (horder : stage.Orderly t) (hs : t ≤ s)
    {x z : Int32} {data : Bytes} (hfits : (Packet.chunkData x z data).FitsWorld stage.minY) :
    (client.apply (.chunkData x z data)).look =
      (stage.receive t (.chunkData x z data)).figures s := by
  have hsound := h.sound.chunkData horder hfits
  rw [receive] at hsound ⊢
  cases hdecode : Column.decode data with
  | error failure =>
    -- both ignore a chunk that cannot be read
    have hclient : client.apply (.chunkData x z data) = client := by
      simp only [Client.apply, hdecode]
    rw [hclient]
    exact h.look
  | ok column =>
    rw [hdecode] at hsound
    dsimp only at hsound ⊢
    rcases stage.receiveChunk_eq t x z data column with ⟨heq, -⟩ | ⟨life, changes, hlife, -, heq⟩
    · rw [heq]
      exact h.look_chunkAnew hdecode
    · -- the client takes the new chunk as it is, the stage runs the changes that lead there
      rw [heq] at hsound ⊢
      exact h.look_changeChunk hs hlife hsound (Client.look_chunkData client hdecode)

/-- A block changes. -/
theorem look_blockUpdate (h : stage.Answers t s client) (horder : stage.Orderly t) (hs : t ≤ s)
    (hclient : client.Sound) (hminY : client.minY = stage.minY) (position : Position)
    {state : BlockState} (hstate : IdInRange state) :
    (client.apply (.blockUpdate position state)).look =
      (stage.receive t (.blockUpdate position state)).figures s := by
  have hlook := Client.look_blockUpdate client hclient position hstate
  have hthere (life : Life) (hlife : stage.present (Client.chunkKey position) = some life) :
      client.look (Client.chunkKey position) =
        some (.chunk (stage.column position.chunk).content) := by
    obtain ⟨-, hfigure⟩ := h.sound.columns position.chunk.1 position.chunk.2 life hlife
    rw [h.look, figures, hlife, Option.map_some, hfigure s hs]
  have hsound := h.sound.blockUpdate horder position hstate
  rw [receive] at hsound ⊢
  rcases stage.updateBlock_eq t position state with
    ⟨heq, hidle⟩ | ⟨life, before, hlife, -, -, heq⟩
  · rw [heq, hlook]
    cases hlife : stage.present (Client.chunkKey position) with
    | none =>
      -- there is no chunk in which a block could change
      have hnone : client.look (Client.chunkKey position) = none := by
        rw [h.look, figures, hlife]
        rfl
      rw [hnone, Option.map_none, ← hnone, Function.update_eq_self]
      exact h.look
    | some life =>
      -- an update that sets a block to what it is, or none at all, goes unnoticed
      obtain ⟨hlive, -⟩ := h.sound.columns position.chunk.1 position.chunk.2 life hlife
      rw [hthere life hlife, hminY, Option.map_some, Figure.withBlock,
        hlive.setBlock_eq_self_of_idle (hidle life hlife), ← hthere life hlife,
        Function.update_eq_self]
      exact h.look
  · obtain ⟨hlive, -⟩ := h.sound.columns position.chunk.1 position.chunk.2 life hlife
    rw [heq] at hsound ⊢
    refine h.look_changeChunk hs hlife hsound ?_
    rw [hlook, hthere life hlife, hminY, hlive.content_setBlock stage.minY position hstate]
    rfl

/-- The rain takes a strength. -/
theorem look_rainLevel (h : stage.Answers t s client) (horder : stage.Orderly t) (hs : t ≤ s)
    (level : Float32Bits) : (client.apply (.rainLevel level)).look =
      (stage.alter .weather (Role.leveledAt t level)).figures s := by
  rw [Client.look_rainLevel, h.look, figures_alter, figures, Option.map_map]
  refine congrArg (Function.update _ _) (Option.map_congr fun life hlife => ?_)
  obtain ⟨hkey, -, hwithin⟩ := horder.present _ life hlife
  -- under the key of the weather there is nothing but rain
  have hafter : (life.role.leveledAt t level).figure stage.minY s = .rain level :=
    Role.figure_leveledAt hkey (fun τ hτ => (hwithin.times τ hτ).2) hs level
  obtain ⟨spawn, despawn, role⟩ := life
  cases role with
  | weather => exact hafter.symm
  | entity | chunk => exact absurd hkey (by simp [Role.key])

/-- The rain begins. -/
theorem look_beginRain (h : stage.Answers t s client) (horder : stage.Orderly t) (hs : t ≤ s) :
    (client.apply .beginRain).look = (stage.beginRain t).figures s := by
  rw [Stage.beginRain, Client.look_beginRain, h.look]
  cases hlife : stage.present .weather with
  | none =>
    have hfigure : Role.figure stage.minY s (.weather (SortedMap.empty.insert t 0)) = .rain 0 := by
      rw [Role.figure, Timeline.at?_insert (fun e he => absurd he List.not_mem_nil), if_pos hs]
      rfl
    dsimp only
    rw [figures_place, hfigure]
    rfl
  | some life =>
    obtain ⟨hkey, -, hwithin⟩ := horder.present _ life hlife
    dsimp only
    rw [figures_alter, hlife, Option.map_some,
      Role.figure_leveledAt hkey (fun τ hτ => (hwithin.times τ hτ).2) hs 0]

/-- A game event that is not about thunder. -/
theorem look_gameEvent (h : stage.Answers t s client) (horder : stage.Orderly t) (hs : t ≤ s)
    {event : UInt8} (hevent : event ≠ GameEvent.thunderLevel) (value : Float32Bits) :
    (client.apply (.gameEvent event value)).look =
      (stage.receive t (.gameEvent event value)).figures s := by
  rw [receive, Stage.gameEvent, Client.apply, Client.gameEvent]
  by_cases hbegins : event = GameEvent.rainBegins
  · rw [if_pos hbegins, if_pos hbegins]
    exact h.look_beginRain horder hs
  rw [if_neg hbegins, if_neg hbegins]
  by_cases hends : event = GameEvent.rainEnds
  · rw [if_pos hends, if_pos hends, figures_retire, ← h.look]
    exact Client.look_endRain client
  rw [if_neg hends, if_neg hends]
  by_cases hlevel : event = GameEvent.rainLevel
  · rw [if_pos hlevel, if_pos hlevel]
    exact h.look_rainLevel horder hs value
  rw [if_neg hlevel, if_neg hlevel, if_neg hevent, if_neg hevent]
  exact h.look

/-- **A packet about a thing does to the stage what it does to the client.** -/
theorem receive (h : stage.Answers t s client) (horder : stage.Orderly t) (hs : t ≤ s)
    (hclient : client.Sound) (hminY : client.minY = stage.minY) {packet : Packet}
    (hfits : packet.FitsWorld stage.minY) (hthing : packet.IsOfThing) :
    (stage.receive t packet).Answers t s (client.apply packet) := by
  refine ⟨h.sound.receive horder hfits, ?_⟩
  cases packet with
  | spawnEntity id uuid kind location => exact h.look_spawnEntity hs id uuid kind location
  | teleportEntity id location onGround =>
    exact h.look_teleportEntity horder hs id location onGround
  | removeEntities ids => exact h.look_removeEntities ids
  | chunkData x z data => exact h.look_chunkData horder hs hfits
  | unloadChunk x z => rw [Client.look_unloadChunk, h.look, Stage.receive, figures_retire]
  | blockUpdate position state => exact h.look_blockUpdate horder hs hclient hminY position hfits
  | gameEvent event value => exact h.look_gameEvent horder hs hthing value
  | joinGame | respawn | playerPosition | setTime | setViewCenter | setViewDistance
  | changeDifficulty | foreign => exact absurd hthing id

end Answers

/-! ### Clients that show a stage -/

/-- A client that shows a stage, from a moment on as it is then. -/
structure ShownBy (stage : Stage) (now : Time) (client : Client) : Prop where
  sound : client.Sound
  join : client.join = some stage.info.join
  dimension : client.dimension = some stage.info.dimension
  look : ∀ s, now ≤ s → client.look = stage.figures s
  signals : ∀ s, now ≤ s → ∀ channel, (stage.line channel).at? s = some (client.signal channel)

namespace ShownBy

variable {stage : Stage} {t s now : Time} {client : Client} {packet : Packet}

/-- A client that is shown a stage is shown it later. -/
theorem mono (h : stage.ShownBy now client) (hle : now ≤ t) : stage.ShownBy t client :=
  { h with
    look := fun s hs => h.look s (Int.le_trans hle hs)
    signals := fun s hs => h.signals s (Int.le_trans hle hs) }

theorem minY_eq (h : stage.ShownBy now client) : client.minY = stage.minY := by
  rw [Client.minY, h.dimension]
  rfl

/-- **The act of a stage is what the client is shown.** -/
theorem plays (h : stage.ShownBy now client) (horder : stage.Orderly now) (hs : now ≤ s)
    (hlast : s < Time.last) : stage.act.Plays s client :=
  ⟨h.sound, h.join, h.dimension, (shows_iff horder hs hlast).2 (h.look s hs), h.signals s hs⟩

/-- A client shows a stage that begins, if it is shown no things and the seeds on the channels. -/
theorem of_begin {info : WorldInfo} {seeds : Channel → Packet} (hsound : client.Sound)
    (hjoin : client.join = some info.join) (hdimension : client.dimension = some info.dimension)
    (hlook : ∀ key, client.look key = none)
    (hsignal : ∀ channel, seeds channel = client.signal channel) :
    (begin t info seeds).ShownBy t client where
  sound := hsound
  join := hjoin
  dimension := hdimension
  look s _ := funext hlook
  signals s hs channel := by
    show Timeline.at? (SortedMap.ofList [(t, _)]) s = _
    rw [Timeline.at?, Timeline.floor?_ofList_singleton, if_pos hs]
    exact congrArg some (hsignal channel)

/-- A client that joins shows a stage that begins. -/
theorem begin_join (client : Client) (t : Time) (settings : JoinSettings) (dimension : Dimension) :
    (begin t ⟨settings, dimension⟩ (ChannelSeeds.ofJoin settings).packet).ShownBy t
      (client.apply (.joinGame settings dimension)) :=
  .of_begin ⟨Client.sound_blank.columns, Client.sound_blank.dry⟩ rfl rfl
    (Client.look_of_empty rfl rfl rfl) fun channel => by cases channel <;> rfl

/-- A client that respawns shows the next stage of the session. -/
theorem begin_respawn (h : stage.ShownBy t client) (horder : stage.Orderly t)
    (dimension : Dimension) :
    (begin t ⟨stage.info.join, dimension⟩ stage.seeds).ShownBy t
      (client.apply (.respawn dimension)) := by
  refine .of_begin ⟨Client.sound_blank.columns, fun _ => rfl⟩ h.join rfl
    (Client.look_of_empty rfl rfl rfl) fun channel => ?_
  -- what came last on a channel is the seed of the next stage, except for thunder
  have hkept (hchannel : channel ≠ .thunder) : stage.seeds channel = client.signal channel :=
    Option.some.inj ((horder.at?_eq_seeds Int.le_rfl hchannel).symm.trans
      (h.signals t Int.le_rfl channel))
  cases channel with
  | thunder => rfl
  | viewCenter | viewDistance | clock => exact hkept (by simp)

/-- A packet about a thing. -/
theorem receive_thing (h : stage.ShownBy t client) (horder : stage.Orderly t)
    (hsound : stage.Sound t) (hfits : packet.FitsWorld stage.minY) (hthing : packet.IsOfThing) :
    (stage.receive t packet).ShownBy t (client.apply packet) := by
  have hanswers (s : Time) (hs : t ≤ s) : (stage.receive t packet).Answers t s
      (client.apply packet) :=
    Answers.receive ⟨hsound, h.look s hs⟩ horder hs h.sound h.minY_eq hfits hthing
  -- apart from the things nothing of the client changes
  have hbare := Client.bare_apply client hthing
  have hfield : ∀ {α : Type} (f : Client → α), f (client.apply packet).bare = f client.bare :=
    fun f => by rw [hbare]
  have hnone : Channel.of? packet = none := by
    cases packet with
    | gameEvent event value => exact if_neg hthing
    | setTime | setViewCenter | setViewDistance => exact absurd hthing id
    | _ => rfl
  refine ⟨h.sound.apply hfits.isSound, ?_, ?_, fun s hs => (hanswers s hs).look,
    fun s hs channel => ?_⟩
  · rw [info_receive]
    exact (hfield Client.join).trans h.join
  · rw [info_receive]
    exact (hfield Client.dimension).trans h.dimension
  · rw [(moves_receive stage t packet).line_eq hnone, ← Client.signal_bare, hbare,
      Client.signal_bare]
    exact h.signals s hs channel

/-- A packet on a channel. -/
theorem receive_channel (h : stage.ShownBy t client) (horder : stage.Orderly t)
    {channel : Channel} (hchannel : Channel.of? packet = some channel) :
    (stage.receive t packet).ShownBy t (client.apply packet) := by
  have htunes := Client.tunes_apply h.sound hchannel
  rw [receive_of_channel stage t hchannel]
  refine ⟨htunes.sound, htunes.join.trans h.join, htunes.dimension.trans h.dimension,
    fun s hs => htunes.look.trans (h.look s hs), fun s hs channel' => ?_⟩
  show Timeline.at? (Function.update stage.line channel _ channel') s = _
  rw [htunes.signal, Function.update_apply, Function.update_apply]
  split
  · rw [Timeline.at?_insert fun e he => (horder.signals channel e he).2, if_pos hs]
  · exact h.signals s hs channel'

/-- **A client that shows a stage shows it again** after both have received a packet. -/
theorem receive (h : stage.ShownBy t client) (horder : stage.Orderly t) (hsound : stage.Sound t)
    (hfits : packet.FitsWorld stage.minY) (hentrance : ¬ packet.IsEntrance)
    (hcorrective : CorrectionSlot.of? packet = none) :
    (stage.receive t packet).ShownBy t (client.apply packet) := by
  by_cases hthing : packet.IsOfThing
  · exact h.receive_thing horder hsound hfits hthing
  cases hchannel : Channel.of? packet with
  | some channel => exact h.receive_channel horder hchannel
  | none =>
    cases packet with
    | playerPosition => exact h
    | gameEvent event value =>
      obtain rfl : event = GameEvent.thunderLevel := Classical.not_not.1 hthing
      exact absurd hchannel (by simp [Channel.of?])
    | joinGame | respawn => exact absurd trivial hentrance
    | changeDifficulty | foreign => exact absurd hcorrective (by simp [CorrectionSlot.of?])
    | setTime | setViewCenter | setViewDistance => exact absurd hchannel (by simp [Channel.of?])
    | spawnEntity | teleportEntity | removeEntities | chunkData | unloadChunk | blockUpdate =>
      exact absurd trivial hthing

/-- Whatever corrective packets a client has, it shows the stage. -/
theorem setCorrections (h : stage.ShownBy now client)
    (corrections : SortedMap CorrectionSlot Packet) :
    stage.ShownBy now { client with corrections } :=
  ⟨⟨h.sound.columns, h.sound.dry⟩, h.join, h.dimension,
    fun s hs => (funext fun key => by cases key <;> rfl).trans (h.look s hs),
    fun s hs channel => (h.signals s hs channel).trans (by cases channel <;> rfl)⟩

end ShownBy

end Stage

end Playhead
