import Playhead.Proofs.Indexer.Linear

/-!
# What a recording says of chunks

A chunk in a recording is a packet that starts it and then the packets about its blocks: it is sent
again, or single blocks change (`Playhead.Column.receive`). The indexer keeps something else of it,
the changes of blocks along its life. Both come to the same at every moment of that life
(`Playhead.Life.Recounts`), as long as the blocks have a place on the wire in the world that they
come to (`Playhead.Recording.FitsWorlds`).

Most packets say nothing of a chunk, and for those there is one step
(`Playhead.Life.Recounts.concat`). It carries the two others as well, a chunk that is sent again and
a block that changes, since what they do to a stage is known (`Playhead.Stage.Sound.columns`). So
all chunks of a stage recount what they did and the next packet
(`Playhead.Stage.Recounts.receive`), and those of a whole recording recount all of it
(`Playhead.Ledger.After.recounts`).
-/

namespace Playhead

/-! ### Columns and packets -/

namespace Column

/-- The column of the chunk at some coordinates after a packet: another column when the chunk is
sent, and another block when one changes. -/
def receive (minY x z : Int32) (column : Column) : Packet → Column
  | .chunkData x' z' data =>
    if (x', z') = (x, z) then (Column.decode data).toOption.getD column else column
  | .blockUpdate position state =>
    if position.chunk = (x, z) then column.setBlock minY position state else column
  | _ => column

/-- A sound column stays sound under sound packets. -/
theorem Sound.receive {column : Column} (h : column.Sound) {packet : Packet}
    (hpacket : packet.IsSound) (minY x z : Int32) : (column.receive minY x z packet).Sound := by
  cases packet with
  | chunkData x' z' data =>
    rw [Column.receive]
    split
    · cases hdecode : Column.decode data with
      | error failure => exact h
      | ok sent => exact hpacket sent hdecode
    · exact h
  | blockUpdate position state =>
    rw [Column.receive]
    split
    · exact h.setBlock minY position hpacket
    · exact h
  | _ => exact h

/-- What a packet does to a column depends on its blocks only, not on the form they are kept in. -/
theorem content_receive_congr {column column' : Column} (h : column.Sound) (h' : column'.Sound)
    (hcontent : column.content = column'.content) {packet : Packet} (hpacket : packet.IsSound)
    (minY x z : Int32) :
    (column.receive minY x z packet).content = (column'.receive minY x z packet).content := by
  cases packet with
  | chunkData x' z' data =>
    rw [Column.receive, Column.receive]
    split
    · cases Column.decode data with
      | error failure => exact hcontent
      | ok sent => rfl
    · exact hcontent
  | blockUpdate position state =>
    rw [Column.receive, Column.receive]
    split
    · rw [h.content_setBlock minY position hpacket, h'.content_setBlock minY position hpacket,
        hcontent]
    · exact hcontent
  | _ => exact hcontent

/-- The column of the chunk at some coordinates after all packets of a recording. -/
def receiveAll (minY x z : Int32) (column : Column) (recording : Recording) : Column :=
  recording.foldl (fun column e => column.receive minY x z e.2) column

end Column

/-- Whether a packet says something of the blocks of a chunk. -/
def Packet.SpeaksOf (x z : Int32) : Packet → Prop
  | chunkData x' z' _ => (x', z') = (x, z)
  | blockUpdate position _ => position.chunk = (x, z)
  | _ => False

/-- A packet that does not speak of a column does not change it. -/
theorem Column.receive_of_not_speaksOf {minY x z : Int32} {packet : Packet}
    (h : ¬ packet.SpeaksOf x z) (column : Column) : column.receive minY x z packet = column := by
  cases packet with
  | chunkData | blockUpdate => exact if_neg h
  | _ => rfl

namespace Recording

/-- Whether the blocks of all packets that come to a client in some world have a place on the wire
there. -/
def FitsWorlds (recording : Recording) : Prop :=
  ∀ front t packet back, recording = front ++ (t, packet) :: back →
    (client front).join ≠ none → packet.FitsWorld (client front).minY

/-- What fits its worlds fits them in the front part. -/
theorem FitsWorlds.front {recording back : Recording} (h : FitsWorlds (recording ++ back)) :
    FitsWorlds recording := by
  intro front t packet rest hsplit
  exact h front t packet (rest ++ back) (by rw [hsplit, List.append_assoc, List.cons_append])

end Recording

/-! ### The world that a client is in -/

namespace Ledger

variable {ledger ledger' : Ledger} {recording : Recording} {now t : Time} {packet : Packet}
  {stage : Stage}

/-- The stage that lasts is in the world that the client is in. -/
theorem After.world (h : After recording now ledger) (hstage : ledger.current = some stage) :
    recording.client.join = some stage.info.join ∧
      recording.client.dimension = some stage.info.dimension := by
  induction h generalizing stage with
  | blank => exact absurd hstage (by simp [Ledger.blank])
  | @packet recording now t ledger ledger' packet _ _ hreceives ih =>
    rw [Recording.client_concat]
    cases hreceives with
    | join =>
      obtain rfl := Option.some.inj hstage
      exact ⟨rfl, rfl⟩
    | respawn hbusy =>
      obtain rfl := Option.some.inj hstage
      exact ⟨(ih hbusy).1, rfl⟩
    | stray hidle => exact absurd (hidle.symm.trans hstage) (by simp)
    | correct hcorrective =>
      rw [Client.apply_corrective _ hcorrective]
      exact ih hstage
    | other hentrance =>
      obtain ⟨old, hold, rfl⟩ := Option.map_eq_some_iff.1 hstage
      obtain ⟨hjoin, hdimension⟩ := recording.client.world_apply hentrance
      rw [hjoin, hdimension, Stage.info_receive]
      exact ih hold

/-- A packet that comes to a stage fits the world of the stage. -/
theorem After.fitsWorld (h : After recording now ledger) (hstage : ledger.current = some stage)
    (hfits : Recording.FitsWorlds (recording ++ [(t, packet)])) :
    packet.FitsWorld stage.minY := by
  obtain ⟨hjoin, hdimension⟩ := h.world hstage
  have hminY : recording.client.minY = stage.minY := by
    rw [Client.minY, hdimension]
    rfl
  rw [← hminY]
  exact hfits recording t packet [] rfl (by rw [hjoin]; exact Option.some_ne_none _)

/-- **All stages of a recording are sound**, if its blocks have a place on the wire. -/
theorem After.sound (h : After recording now ledger) (hfits : recording.FitsWorlds) :
    ledger.All fun stage => stage.Sound now := by
  induction h with
  | blank => exact all_blank _
  | packet hbefore hle hreceives ih =>
    exact hreceives.sound (hbefore.orderly.mono hle)
      ((ih hfits.front).imp fun _ hsound => hsound.mono hle)
      fun stage hstage => hbefore.fitsWorld hstage hfits

end Ledger

/-! ### Chunks that start -/

/-- Whether a chunk that is sent starts a new one: there is none, or none that it can be compared
with. -/
def Stage.StartsChunk (stage : Stage) (x z : Int32) (data : Bytes) : Prop :=
  ∃ column, Column.decode data = .ok column ∧
    ∀ life, stage.present (.chunk x z) = some life →
      Column.diff? x z stage.minY (stage.column (x, z)) column = none

/-- Whether a chunk that is sent after a recording starts a new one. -/
def Recording.StartsChunk (recording : Recording) (x z : Int32) (data : Bytes) : Prop :=
  ∃ now ledger stage, Ledger.After recording now ledger ∧ ledger.current = some stage ∧
    stage.StartsChunk x z data

/-- There is one stage after a recording, so what holds of some stage there holds of that one. -/
theorem Ledger.After.exists_stage_iff {recording : Recording} {now : Time} {ledger : Ledger}
    (h : Ledger.After recording now ledger) {stage : Stage} (hstage : ledger.current = some stage)
    {p : Stage → Prop} :
    (∃ now ledger stage, Ledger.After recording now ledger ∧ ledger.current = some stage ∧
      p stage) ↔ p stage := by
  refine ⟨fun ⟨now', ledger', stage', hafter, hstage', hp⟩ => ?_,
    fun hp => ⟨now, ledger, stage, h, hstage, hp⟩⟩
  obtain rfl := h.unique hafter
  obtain rfl := Option.some.inj (hstage.symm.trans hstage')
  exact hp

/-- After a recording there is one stage, so a chunk starts on it or does not. -/
theorem Ledger.After.startsChunk_iff {recording : Recording} {now : Time} {ledger : Ledger}
    (h : Ledger.After recording now ledger) {stage : Stage} (hstage : ledger.current = some stage)
    (x z : Int32) (data : Bytes) :
    recording.StartsChunk x z data ↔ stage.StartsChunk x z data :=
  h.exists_stage_iff hstage

/-! ### Lives that recount what is recorded -/

/-- The part of a recording that a chunk goes back to: what comes before the packet that starts it,
and what comes after. No packet starts it again before its end. When a chunk that is sent starts a
new one depends on what was recorded before. -/
structure Recording.Origin (Starts : Recording → Int32 → Int32 → Bytes → Prop)
    (recording : Recording) (x z : Int32) (data : Bytes) (spawn despawn : Time)
    (front back : Recording) : Prop where
  split : recording = front ++ (spawn, .chunkData x z data) :: back
  starts : Starts front x z data
  lasts : ∀ mid t later rest, back = mid ++ (t, .chunkData x z later) :: rest → t < despawn →
    ¬ Starts (front ++ (spawn, .chunkData x z data) :: mid) x z later

namespace Recording.Origin

variable {Starts Starts' : Recording → Int32 → Int32 → Bytes → Prop}
  {recording front back : Recording} {x z : Int32} {data : Bytes} {spawn despawn t : Time}

/-- A chunk that ends earlier goes back to the same. -/
theorem endedAt (h : recording.Origin Starts x z data spawn despawn front back)
    (ht : t ≤ despawn) : recording.Origin Starts x z data spawn t front back :=
  { h with
    lasts := fun mid s later rest hback hs =>
      h.lasts mid s later rest hback (Int.lt_of_lt_of_le hs ht) }

/-- A packet that does not start the chunk again comes after all others. -/
theorem concat (h : recording.Origin Starts x z data spawn despawn front back) {packet : Packet}
    (hnot : t < despawn → ∀ later, packet = .chunkData x z later → ¬ Starts recording x z later) :
    Origin Starts (recording ++ [(t, packet)]) x z data spawn despawn front
      (back ++ [(t, packet)]) where
  split := by rw [h.split, List.append_assoc, List.cons_append]
  starts := h.starts
  lasts mid s later rest hback hs := by
    rcases List.eq_nil_or_concat rest with rfl | ⟨rest, last, rfl⟩
    · -- it is the new packet
      obtain ⟨rfl, hlast⟩ := List.append_inj' hback rfl
      obtain ⟨rfl, rfl⟩ := Prod.mk.inj (List.singleton_inj.1 hlast)
      rw [← h.split]
      exact hnot hs later rfl
    · rw [List.concat_eq_append, ← List.cons_append, ← List.append_assoc] at hback
      obtain ⟨hback, -⟩ := List.append_inj' hback rfl
      exact h.lasts mid s later rest hback hs

/-- Where two ways to start chunks agree, chunks go back to the same. -/
theorem congr (h : recording.Origin Starts x z data spawn despawn front back)
    (hiff : ∀ front rest x z data, recording = front ++ rest →
      (Starts front x z data ↔ Starts' front x z data)) :
    recording.Origin Starts' x z data spawn despawn front back where
  split := h.split
  starts := (hiff front _ x z data h.split).1 h.starts
  lasts mid s later rest hback hs hstarts := by
    refine h.lasts mid s later rest hback hs
      ((hiff _ ((s, .chunkData x z later) :: rest) x z later ?_).2 hstarts)
    rw [h.split, hback, List.append_assoc, List.cons_append]

end Recording.Origin

namespace Life

/-- A life that recounts what is recorded of a chunk: at every moment it shows the blocks that the
packets from its start up to that moment lead to. Of other things there is nothing to recount. -/
def Recounts (life : Life) (recording : Recording) (minY : Int32) : Prop :=
  ∀ x z data line, life.role = .chunk x z data line → ∃ front back column,
    recording.Origin Recording.StartsChunk x z data life.spawn life.despawn front back ∧
      Column.decode data = .ok column ∧
      ∀ s, life.AliveAt s → (column.receiveAll minY x z (back.upTo s)).Sound ∧
        life.role.figure minY s =
          .chunk (column.receiveAll minY x z (back.upTo s)).content

namespace Recounts

variable {life : Life} {recording : Recording} {minY : Int32} {t : Time} {packet : Packet}

theorem of_key (h : ∀ x z, life.role.key ≠ .chunk x z) : life.Recounts recording minY :=
  fun x z _ _ hrole => absurd (congrArg Role.key hrole) (h x z)

/-- A life that ends earlier recounts what it did. -/
theorem endedAt (h : life.Recounts recording minY) (ht : t ≤ life.despawn) :
    (life.endedAt t).Recounts recording minY := by
  intro x z data line hrole
  obtain ⟨front, back, column, horigin, hdecode, hshown⟩ := h x z data line hrole
  exact ⟨front, back, column, horigin.endedAt ht, hdecode, fun s hs =>
    hshown s ⟨hs.1, Int.lt_of_lt_of_le hs.2 ht⟩⟩

/-- **One packet more.** A life goes on recounting, as the same thing, if nothing of it changes
before the packet, and while it lasts the packet does to what it shows what it does to a column. -/
theorem concat (h : life.Recounts recording minY) {role : Role}
    (hsame : ∀ x z data line, role = .chunk x z data line →
      ∃ line', life.role = .chunk x z data line')
    (hbefore : ∀ s, s < t → role.figure minY s = life.role.figure minY s)
    (hnow : t < life.despawn → ∀ x z data line, role = .chunk x z data line →
      (∀ later, packet = .chunkData x z later → ¬ recording.StartsChunk x z later) ∧
      ∀ s, t ≤ s → ∀ column : Column, column.Sound →
        life.role.figure minY s = .chunk column.content →
        (column.receive minY x z packet).Sound ∧
          role.figure minY s = .chunk (column.receive minY x z packet).content) :
    ({ life with role } : Life).Recounts (recording ++ [(t, packet)]) minY := by
  intro x z data line hrole
  obtain ⟨line', hrole'⟩ := hsame x z data line hrole
  obtain ⟨front, back, column, horigin, hdecode, hshown⟩ := h x z data line' hrole'
  have hthen := horigin.concat fun hlive => (hnow hlive x z data line hrole).1
  refine ⟨front, back ++ [(t, packet)], column, hthen, hdecode, fun s hs => ?_⟩
  obtain ⟨hsound, hfigure⟩ := hshown s hs
  rw [Recording.upTo_concat]
  by_cases hts : t ≤ s
  · have hlive : t < life.despawn := Int.lt_of_le_of_lt hts hs.2
    rw [if_pos hts, Column.receiveAll, List.foldl_append]
    exact (hnow hlive x z data line hrole).2 s hts _ hsound hfigure
  · -- the packet is still to come
    rw [if_neg hts]
    exact ⟨hsound, (hbefore s (Int.not_le.1 hts)).trans hfigure⟩

/-- A life that is over recounts the same whatever comes. -/
theorem later (h : life.Recounts recording minY) (ht : life.despawn ≤ t) (packet : Packet) :
    life.Recounts (recording ++ [(t, packet)]) minY :=
  h.concat (fun _ _ _ line hrole => ⟨line, hrole⟩) (fun _ _ => rfl)
    fun hlt => absurd hlt (Int.not_lt.2 ht)

/-- A packet that says nothing of a chunk changes nothing of what its life recounts. -/
theorem silent (h : life.Recounts recording minY) (t : Time)
    (hsilent : ∀ x z, life.role.key = .chunk x z → ¬ packet.SpeaksOf x z) :
    life.Recounts (recording ++ [(t, packet)]) minY := by
  refine h.concat (fun _ _ _ line hrole => ⟨line, hrole⟩) (fun _ _ => rfl)
    fun _ x z _ _ hrole => ⟨?_, fun s _ column hsound hfigure => ?_⟩
  · rintro later rfl
    exact absurd rfl (hsilent x z (congrArg Role.key hrole))
  · rw [Column.receive_of_not_speaksOf (hsilent x z (congrArg Role.key hrole))]
    exact ⟨hsound, hfigure⟩

/-- A chunk that starts recounts the packet that starts it. -/
theorem start {x z : Int32} {data : Bytes} {column : Column}
    (hdecode : Column.decode data = .ok column) (hcolumn : column.Sound)
    (hstarts : recording.StartsChunk x z data) (t : Time) :
    ((Role.chunk x z data .empty).lifeFrom t).Recounts
      (recording ++ [(t, .chunkData x z data)]) minY := by
  rintro _ _ _ _ ⟨⟩
  exact ⟨recording, [], column, ⟨rfl, hstarts, fun mid s later rest hnil => absurd hnil (by simp)⟩,
    hdecode, fun s _ => ⟨hcolumn, Role.figure_chunk_empty hdecode minY s⟩⟩

end Recounts

end Life

/-! ### Stages that recount what is recorded -/

namespace Stage

/-- A stage all of whose chunks recount what is recorded of them. -/
structure Recounts (stage : Stage) (recording : Recording) : Prop where
  past : ∀ life ∈ stage.past, life.Recounts recording stage.minY
  present : ∀ key life, stage.present key = some life → life.Recounts recording stage.minY

namespace Recounts

variable {stage : Stage} {recording : Recording} {t now : Time} {packet : Packet} {key : ThingKey}

/-- On a stage that begins there is nothing to recount. -/
theorem begin (t : Time) (info : WorldInfo) (seeds : Channel → Packet) (recording : Recording) :
    (begin t info seeds).Recounts recording where
  past _ h := absurd h List.not_mem_nil
  present _ _ h := absurd h (by simp [Stage.begin])

/-- When a thing goes, its life is recounted as it was. -/
theorem retire (h : stage.Recounts recording) (horder : stage.Orderly now) (ht : t ≤ Time.last)
    (key : ThingKey) : (stage.retire t key).Recounts recording where
  past life hlife := by
    rw [minY, info_retire]
    rcases mem_past_retire hlife with hlife | ⟨old, hold, -, rfl⟩
    · exact h.past life hlife
    · refine (h.present key old hold).endedAt ?_
      rw [(horder.present key old hold).2.1]
      exact ht
  present key' life hlife := by
    rw [minY, info_retire]
    exact h.present key' life (present_of_retire hlife).2

/-- When the stage closes, all lives are recounted as they were. -/
theorem close (h : stage.Recounts recording) (horder : stage.Orderly t) (ht : t ≤ Time.last)
    (keys : List ThingKey) : (stage.close t keys).Recounts recording := by
  induction keys generalizing stage with
  | nil => exact h
  | cons key keys ih => exact ih (h.retire horder ht key) (horder.retire key)

/-- A life that is recounted may be on the stage. -/
theorem setPresent (h : stage.Recounts recording) (key : ThingKey) {life : Life}
    (hlife : life.Recounts recording stage.minY) :
    ({ stage with present := Function.update stage.present key (some life) } : Stage).Recounts
      recording where
  past := h.past
  present key' life' hlife' := by
    rcases of_update_eq_some hlife' with ⟨-, rfl⟩ | ⟨-, hlife'⟩
    · exact hlife
    · exact h.present key' life' hlife'

/-- A thing that is not a chunk begins. -/
theorem place (h : stage.Recounts recording) (t : Time) {role : Role}
    (hrole : ∀ x z, role.key ≠ .chunk x z) : (stage.place t role).Recounts recording :=
  h.setPresent role.key (.of_key hrole)

/-- A thing that is not a chunk goes on. -/
theorem alter (h : stage.Recounts recording) (horder : stage.Orderly now)
    (hkey : ∀ x z, key ≠ .chunk x z) {f : Role → Role} (hf : ∀ role, (f role).key = role.key) :
    (stage.alter key f).Recounts recording := by
  cases hlife : stage.present key with
  | none =>
    rw [alter_of_none hlife]
    exact h
  | some life =>
    rw [alter_of_some hlife]
    refine h.setPresent key (.of_key fun x z => ?_)
    rw [hf, (horder.present key life hlife).1]
    exact hkey x z

/-- A packet that says nothing of any chunk. -/
theorem silent (h : stage.Recounts recording) (t : Time)
    (hsilent : ∀ x z, ¬ packet.SpeaksOf x z) : stage.Recounts (recording ++ [(t, packet)]) where
  past life hlife := (h.past life hlife).silent t fun x z _ => hsilent x z
  present key life hlife := (h.present key life hlife).silent t fun x z _ => hsilent x z

/-- A stage that is over recounts the same whatever comes. -/
theorem later (h : stage.Recounts recording) (horder : stage.Orderly t)
    (hover : ∀ key, stage.present key = none) (packet : Packet) :
    stage.Recounts (recording ++ [(t, packet)]) where
  past life hlife := (h.past life hlife).later (horder.past life hlife).2.2 packet
  present key life hlife := absurd ((hover key).symm.trans hlife) (by simp)

/-- A packet about one chunk: if that chunk recounts what is recorded, so do all. -/
theorem withChunk (h : stage.Recounts recording) (horder : stage.Orderly t) {x z : Int32}
    (hother : ∀ x' z', packet.SpeaksOf x' z' → (x', z') = (x, z)) {life : Life}
    (hlife : life.Recounts (recording ++ [(t, packet)]) stage.minY) (column : Column) :
    ({ stage with
      present := Function.update stage.present (.chunk x z) (some life)
      column := Function.update stage.column (x, z) column } : Stage).Recounts
        (recording ++ [(t, packet)]) where
  past life' hlife' := (h.past life' hlife').later (horder.past life' hlife').2.2 packet
  present key life' hlife' := by
    rcases of_update_eq_some hlife' with ⟨-, rfl⟩ | ⟨hkey, hold⟩
    · exact hlife
    · refine (h.present key life' hold).silent t fun x' z' hchunk hspeaks => hkey ?_
      obtain ⟨rfl, rfl⟩ := Prod.mk.inj (hother x' z' hspeaks)
      rw [← (horder.present key life' hold).1, hchunk]

/-- **A chunk goes on.** It recounts the packet as well if its blocks become what they are after the
packet. -/
theorem goesOn (h : stage.Recounts recording) (hsound : stage.Sound t) (horder : stage.Orderly t)
    (hpacket : packet.IsSound) {x z : Int32} {life : Life}
    (hlife : stage.present (.chunk x z) = some life) {changes : List BlockChange}
    (hchanges : ∀ c ∈ changes, c.before ≠ c.after) {column : Column}
    (hcontent : ((stage.column (x, z)).receive stage.minY x z packet).content = column.content)
    (hfigure : ∀ s, t ≤ s →
      (life.role.changedAt t changes).figure stage.minY s = .chunk column.content)
    (hkept : ∀ later, packet = .chunkData x z later → ¬ recording.StartsChunk x z later) :
    ({ life with role := life.role.changedAt t changes } : Life).Recounts
      (recording ++ [(t, packet)]) stage.minY := by
  obtain ⟨hkey, -, hwithin⟩ := horder.present _ life hlife
  obtain ⟨hlive, hshown⟩ := hsound.columns x z life hlife
  refine (h.present _ life hlife).concat (fun _ _ _ _ hrole => Role.exists_of_changedAt hrole)
    (fun s hs => ?_) fun _ x' z' data line hrole => ?_
  · exact (Role.goesOnAt_changedAt t hchanges life.role).before
      (fun τ hτ => (hwithin.times τ hτ).2) stage.minY s hs
  · obtain ⟨line', hrole⟩ := Role.exists_of_changedAt hrole
    rw [hrole] at hkey
    obtain ⟨rfl, rfl⟩ := ThingKey.chunk.inj hkey
    refine ⟨hkept, fun s hs blocks hblocks hnow => ⟨hblocks.receive hpacket _ _ _, ?_⟩⟩
    -- the blocks are those that the stage keeps, maybe in another form
    have hsame : blocks.content = (stage.column (x', z')).content :=
      Figure.chunk.inj (hnow.symm.trans (hshown s hs))
    rw [hfigure s hs, ← hcontent, Column.content_receive_congr hblocks hlive hsame hpacket]

/-- A packet that leaves the blocks of a chunk as they are. -/
theorem idle (h : stage.Recounts recording) (hsound : stage.Sound t) (horder : stage.Orderly t)
    (hpacket : packet.IsSound) {x z : Int32}
    (hother : ∀ x' z', packet.SpeaksOf x' z' → (x', z') = (x, z))
    (hcontent : ∀ life, stage.present (.chunk x z) = some life →
      ((stage.column (x, z)).receive stage.minY x z packet).content =
        (stage.column (x, z)).content)
    (hkept : ∀ later, packet = .chunkData x z later → ¬ recording.StartsChunk x z later) :
    stage.Recounts (recording ++ [(t, packet)]) := by
  cases hlife : stage.present (.chunk x z) with
  | none =>
    refine ⟨fun life hpast => (h.past life hpast).later (horder.past life hpast).2.2 packet,
      fun key life hkey => (h.present key life hkey).silent t fun x' z' hchunk hspeaks => ?_⟩
    -- there is no such chunk
    obtain ⟨rfl, rfl⟩ := Prod.mk.inj (hother x' z' hspeaks)
    obtain rfl := (horder.present key life hkey).1.symm.trans hchunk
    exact absurd (hlife.symm.trans hkey) (by simp)
  | some life =>
    have hnone : ∀ c ∈ ([] : List BlockChange), c.before ≠ c.after := fun c hc =>
      absurd hc List.not_mem_nil
    obtain ⟨-, hfigure⟩ := hsound.columns x z life hlife
    have hgoes := h.goesOn hsound horder hpacket hlife hnone (hcontent life hlife)
      (by rwa [Role.changedAt_nil]) hkept
    rw [Role.changedAt_nil] at hgoes
    have hall := h.withChunk horder hother hgoes (stage.column (x, z))
    rwa [Function.update_eq_self, ← hlife, Function.update_eq_self] at hall

/-! ### Packets about chunks -/

/-- A chunk is sent. -/
theorem chunkData (h : stage.Recounts recording) (hsound : stage.Sound t) (horder : stage.Orderly t)
    (ht : t ≤ Time.last) {x z : Int32} {data : Bytes}
    (hfits : (Packet.chunkData x z data).FitsWorld stage.minY)
    (hstarts : recording.StartsChunk x z data ↔ stage.StartsChunk x z data) :
    (stage.receive t (.chunkData x z data)).Recounts
      (recording ++ [(t, .chunkData x z data)]) := by
  have hother (x' z' : Int32) (hspeaks : (Packet.chunkData x z data).SpeaksOf x' z') :
      (x', z') = (x, z) := hspeaks.symm
  have hreceive (column : Column) : column.receive stage.minY x z (.chunkData x z data) =
      (Column.decode data).toOption.getD column := if_pos rfl
  -- a chunk that goes on is not started
  have hkept (hnot : ¬ stage.StartsChunk x z data) (later : Bytes)
      (hlater : Packet.chunkData x z data = .chunkData x z later) :
      ¬ recording.StartsChunk x z later := by
    obtain ⟨-, -, rfl⟩ := Packet.chunkData.inj hlater
    exact fun hstart => hnot (hstarts.1 hstart)
  have hafter := hsound.chunkData horder hfits
  rw [Stage.receive] at hafter ⊢
  cases hdecode : Column.decode data with
  | error failure =>
    refine h.idle hsound horder hfits.isSound hother (fun _ _ => ?_) (hkept ?_)
    · rw [hreceive, hdecode]
      rfl
    · rintro ⟨column, hcolumn, -⟩
      exact absurd (hdecode.symm.trans hcolumn) (by simp)
  | ok column =>
    rw [hdecode] at hafter
    dsimp only at hafter ⊢
    rcases stage.receiveChunk_eq t x z data column with
      ⟨heq, hanew⟩ | ⟨life, changes, hlife, hdiff, heq⟩
    · rw [heq]
      have hcolumn := hfits.isSound column hdecode
      have hlives := (h.retire horder ht (.chunk x z)).withChunk (horder.retire (.chunk x z)) hother
        (.start hdecode hcolumn (hstarts.2 ⟨column, hdecode, hanew⟩) t) column
      exact hlives
    · rw [heq] at hafter ⊢
      have hnot : ¬ stage.StartsChunk x z data := by
        rintro ⟨column', hcolumn, hnone⟩
        obtain rfl := Except.ok.inj (hdecode.symm.trans hcolumn)
        exact absurd (hdiff.symm.trans (hnone life hlife)) (by simp)
      have hcontent : ((stage.column (x, z)).receive stage.minY x z
          (.chunkData x z data)).content = column.content := by
        rw [hreceive, hdecode]
        rfl
      have hgoes := h.goesOn hsound horder hfits.isSound hlife
        (fun c => Column.before_ne_after_of_mem_diff? hdiff) hcontent
        (fun s hs => hafter.figure_changedAt hlife hs) (hkept hnot)
      rw [alter_setColumn hlife]
      exact h.withChunk horder hother hgoes column

/-- A block changes. -/
theorem blockUpdate (h : stage.Recounts recording) (hsound : stage.Sound t)
    (horder : stage.Orderly t) (position : Position) {state : BlockState}
    (hstate : IdInRange state) :
    (stage.receive t (.blockUpdate position state)).Recounts
      (recording ++ [(t, .blockUpdate position state)]) := by
  have hpacket : (Packet.blockUpdate position state).IsSound := hstate
  have hother (x' z' : Int32) (hspeaks : (Packet.blockUpdate position state).SpeaksOf x' z') :
      (x', z') = position.chunk := Eq.symm hspeaks
  have hreceive (column : Column) : column.receive stage.minY position.chunk.1 position.chunk.2
      (.blockUpdate position state) = column.setBlock stage.minY position state := if_pos rfl
  have hkept (later : Bytes) (hlater : Packet.blockUpdate position state =
      .chunkData position.chunk.1 position.chunk.2 later) :
      ¬ recording.StartsChunk position.chunk.1 position.chunk.2 later :=
    absurd hlater (by simp)
  have hafter := hsound.blockUpdate horder position hstate
  rw [Stage.receive] at hafter ⊢
  rcases stage.updateBlock_eq t position state with
    ⟨heq, hidle⟩ | ⟨life, before, hlife, hbefore, hne, heq⟩
  · rw [heq]
    have hcontent (life : Life) (hlife : stage.present (Client.chunkKey position) = some life) :
        ((stage.column position.chunk).receive stage.minY position.chunk.1 position.chunk.2
          (.blockUpdate position state)).content = (stage.column position.chunk).content := by
      obtain ⟨hlive, -⟩ := hsound.columns _ _ life hlife
      rw [hreceive]
      exact (hlive.content_setBlock stage.minY position hstate).trans
        (hlive.setBlock_eq_self_of_idle (hidle life hlife))
    exact h.idle hsound horder hpacket hother hcontent hkept
  · rw [heq] at hafter ⊢
    have hgoes := h.goesOn hsound horder hpacket hlife (List.forall_mem_singleton.2 hne)
      (congrArg Column.content (hreceive _)) (fun s hs => hafter.figure_changedAt hlife hs) hkept
    rw [alter_setColumn hlife]
    exact h.withChunk horder hother hgoes _

/-- A game event. -/
theorem gameEvent (h : stage.Recounts recording) (horder : stage.Orderly t) (ht : t ≤ Time.last)
    (event : UInt8) (value : Float32Bits) : (stage.gameEvent t event value).Recounts recording := by
  have hrain (level : Float32Bits) : (stage.alter .weather (Role.leveledAt t level)).Recounts
      recording :=
    h.alter horder (fun x z => by simp) fun role => (Role.goesOnAt_leveledAt t level role).key
  rw [Stage.gameEvent]
  split
  · rw [Stage.beginRain]
    split
    · exact h.place t fun x z => by simp [Role.key]
    · exact hrain 0
  split
  · exact h.retire horder ht _
  split
  · exact hrain value
  split
  · exact ⟨h.past, h.present⟩
  · exact h

/-- **What a packet does to the chunks of a stage, they recount.** -/
theorem receive (h : stage.Recounts recording) (hsound : stage.Sound t) (horder : stage.Orderly t)
    (ht : t ≤ Time.last) {packet : Packet} (hfits : packet.FitsWorld stage.minY)
    (hstarts : ∀ x z data, recording.StartsChunk x z data ↔ stage.StartsChunk x z data) :
    (stage.receive t packet).Recounts (recording ++ [(t, packet)]) := by
  -- what is not about the blocks of a chunk has nothing to do with chunks, or ends one
  have hsilent (hspeaks : ∀ x z, ¬ packet.SpeaksOf x z) :
      stage.Recounts (recording ++ [(t, packet)]) := h.silent t hspeaks
  cases packet with
  | chunkData x z data => exact h.chunkData hsound horder ht hfits (hstarts x z data)
  | blockUpdate position state => exact h.blockUpdate hsound horder position hfits
  | spawnEntity id uuid kind location =>
    exact ((hsilent fun _ _ h => h).retire horder ht (.entity id)).place t
      fun x z => by simp [Role.key]
  | teleportEntity id location =>
    exact (hsilent fun _ _ h => h).alter horder (fun x z => by simp) fun role =>
      (Role.goesOnAt_movedAt t location role).key
  | removeEntities ids =>
    rw [receive_removeEntities]
    exact (hsilent fun _ _ h => h).close horder ht _
  | unloadChunk x z => exact (hsilent fun _ _ h => h).retire horder ht _
  | gameEvent event value => exact (hsilent fun _ _ h => h).gameEvent horder ht event value
  | setTime | setViewCenter | setViewDistance =>
    exact ⟨(hsilent fun _ _ h => h).past, (hsilent fun _ _ h => h).present⟩
  | joinGame | respawn | playerPosition | changeDifficulty | foreign =>
    exact hsilent fun _ _ h => h

end Recounts

end Stage

/-! ### Ledgers that recount what is recorded -/

namespace Ledger

variable {ledger ledger' : Ledger} {recording : Recording} {now t : Time} {packet : Packet}

/-- The stage that lasts ends. -/
theorem Closes.recounts (hcloses : ledger.Closes t ledger') (horder : ledger.Orderly t)
    (ht : t ≤ Time.last) (h : ledger.All fun stage => stage.Recounts recording) :
    ledger'.All fun stage => stage.Recounts recording :=
  hcloses.all h fun stage keys hstage hrecounts =>
    hrecounts.close (horder.current stage hstage).1 ht keys

/-- **The chunks of all stages recount what is recorded of them.** -/
theorem After.recounts (h : After recording now ledger) (hfits : recording.FitsWorlds)
    (htimes : ∀ e ∈ recording, e.1 ≤ Time.last) :
    ledger.All fun stage => stage.Recounts recording := by
  induction h with
  | blank => exact all_blank _
  | @packet recording now t ledger ledger' packet hbefore hle hreceives ih =>
    have ht : t ≤ Time.last := htimes _ List.mem_concat_self
    have horder := hbefore.orderly.mono hle
    obtain ⟨hclosed, hcurrent⟩ := ih hfits.front fun e he => htimes e (List.mem_append_left _ he)
    -- stages that are over are left alone, and most packets say nothing of any chunk
    have hlater : ∀ e ∈ ledger.closed.entries, e.2.Recounts (recording ++ [(t, packet)]) :=
      fun e he => (hclosed e he).later (horder.closed e he).2 (horder.ended e he) packet
    have hsilent (hspeaks : ∀ x z, ¬ packet.SpeaksOf x z) :
        ledger.All fun stage => stage.Recounts (recording ++ [(t, packet)]) :=
      ⟨hlater, fun stage hstage => (hcurrent stage hstage).silent t hspeaks⟩
    cases hreceives with
    | join hcloses =>
      obtain ⟨hclosed, hcurrent⟩ := hsilent fun _ _ h => h
      refine ⟨(hcloses.recounts horder.wipe ht ⟨hclosed, hcurrent⟩).closed, fun stage hstage => ?_⟩
      obtain rfl := Option.some.inj hstage
      exact .begin ..
    | respawn _ hcloses =>
      refine ⟨(hcloses.recounts horder ht (hsilent fun _ _ h => h)).closed, fun stage hstage => ?_⟩
      obtain rfl := Option.some.inj hstage
      exact .begin ..
    | stray => exact hsilent fun _ _ h => h
    | correct hcorrective =>
      obtain ⟨hclosed, hcurrent⟩ := hsilent fun x z hspeaks => by
        cases packet with
        | chunkData | blockUpdate => exact absurd hcorrective (by simp [CorrectionSlot.of?])
        | _ => exact hspeaks
      exact ⟨hclosed, hcurrent⟩
    | other =>
      refine ⟨hlater, fun stage hstage => ?_⟩
      obtain ⟨old, hold, rfl⟩ := Option.map_eq_some_iff.1 hstage
      have hsound := (hbefore.sound hfits.front).current old hold
      exact (hcurrent old hold).receive (hsound.mono hle) (horder.current old hold).1 ht
        (hbefore.fitsWorld hold hfits) fun x z data => hbefore.startsChunk_iff hold x z data

end Ledger

end Playhead
