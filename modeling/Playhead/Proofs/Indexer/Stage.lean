import Playhead.Indexer.Scene
import Playhead.Proofs.Subject
import Playhead.Proofs.Thing.Shows

/-!
# The world being recorded, as lives

A **stage** is the world that is being recorded, told as lives: those that are over, and under each
key the one that lasts (`Playhead.Stage`). A life that lasts ends at the end of time until it is
known to end before. `Playhead.Stage.receive` says what a packet does to a stage, without the log
and without anything that can fail.

At every time a stage is orderly (`Playhead.Stage.Orderly`): nothing on it is later than that time,
and of the lives under one key each begins when those before it are over.
-/

namespace Playhead

/-! ### The order in which lives end -/

/-- When a world is closed, entities end before chunks and rain ends last; those of one kind end in
the order of their keys. -/
def ThingKey.Precedes : ThingKey → ThingKey → Prop
  | entity id, entity id' => KeyOrder.before id id'
  | chunk x z, chunk x' z' => KeyOrder.before (x, z) (x', z')
  | entity _, _ | chunk _ _, weather => True
  | _, _ => False

/-- No two keys precede each other. -/
theorem ThingKey.Precedes.not_symm {key key' : ThingKey} (h : key.Precedes key') :
    ¬ key'.Precedes key := by
  intro h'
  cases key <;> cases key'
  case entity.entity | chunk.chunk =>
    have hirrefl := KeyOrder.trans _ _ _ h h'
    rw [KeyOrder.irrefl] at hirrefl
    exact Bool.false_ne_true hirrefl
  all_goals first | exact h | exact h'

theorem ThingKey.Precedes.ne {key key' : ThingKey} (h : key.Precedes key') : key ≠ key' := by
  rintro rfl
  exact h.not_symm h

/-! ### Roles that go on -/

namespace Role

/-- An entity that moves. -/
def movedAt (t : Time) (location : Location) : Role → Role
  | entity id uuid kind place line => entity id uuid kind place (line.insert t location)
  | role => role

/-- Rain that takes a strength. -/
def leveledAt (t : Time) (level : Float32Bits) : Role → Role
  | weather line => weather (line.insert t level)
  | role => role

/-- A chunk whose blocks change. -/
def changedAt (t : Time) (changes : List BlockChange) : Role → Role
  | chunk x z data line =>
    if changes.isEmpty then chunk x z data line
    else chunk x z data (line.insert t ((line.get? t).getD [] ++ changes))
  | role => role

theorem changedAt_nil (t : Time) (role : Role) : role.changedAt t [] = role := by
  cases role <;> rfl

/-- A role under the key of a chunk is that of a chunk. -/
theorem exists_of_key {role : Role} {x z : Int32} (h : role.key = .chunk x z) :
    ∃ data line, role = .chunk x z data line := by
  cases role with
  | chunk x' z' data line =>
    obtain ⟨rfl, rfl⟩ := ThingKey.chunk.inj h
    exact ⟨data, line, rfl⟩
  | entity | weather => exact absurd h (by simp [key])

/-- A chunk whose blocks change is the same chunk. -/
theorem exists_of_changedAt {role : Role} {t : Time} {changes : List BlockChange} {x z : Int32}
    {data : Bytes} {line : Timeline (List BlockChange)}
    (h : role.changedAt t changes = .chunk x z data line) :
    ∃ line', role = .chunk x z data line' := by
  cases role with
  | chunk x' z' data' line' =>
    rw [changedAt] at h
    split at h
    · exact ⟨line, h⟩
    · obtain ⟨rfl, rfl, rfl, -⟩ := Role.chunk.inj h
      exact ⟨line', rfl⟩
  | entity | weather => exact absurd h (by simp [changedAt])

/-- A role with nothing missing and nothing idle on its track: an entity has a place and rain a
strength at the moment at which they appear, and every change of a block changes it. -/
def FoundedAt (spawn : Time) : Role → Prop
  | entity _ _ _ _ line => line.get? spawn ≠ none
  | chunk _ _ _ line => ∀ e ∈ line.entries, ∀ c ∈ e.2, c.before ≠ c.after
  | weather line => line.get? spawn ≠ none

/-- A role that goes on at a moment: the same thing, and nothing happens at another moment. -/
structure GoesOnAt (t : Time) (role role' : Role) : Prop where
  key : role'.key = role.key
  times : ∀ τ ∈ role'.times, τ ∈ role.times ∨ τ = t
  before : (∀ τ ∈ role.times, τ ≤ t) → ∀ minY s, s < t → role'.figure minY s = role.figure minY s
  founded : ∀ spawn, role.FoundedAt spawn → role'.FoundedAt spawn

theorem GoesOnAt.refl (t : Time) (role : Role) : GoesOnAt t role role :=
  ⟨rfl, fun _ hτ => .inl hτ, fun _ _ _ _ => rfl, fun _ h => h⟩

/-- What is in effect before a moment stays in effect. -/
theorem at?_insert_of_lt {V : Type} {line : Timeline V} {t s : Time}
    (h : ∀ τ ∈ line.keys, τ ≤ t) (v : V) (hs : s < t) :
    Timeline.at? (line.insert t v) s = line.at? s := by
  rw [Timeline.at?_insert fun e he => h e.1 (List.mem_map_of_mem he), if_neg (Int.not_le.2 hs)]

/-- What has an entry still has one after another is put. -/
theorem get?_insert_ne_none {V : Type} {line : Timeline V} {k : Time} (h : line.get? k ≠ none)
    (t : Time) (v : V) : SortedMap.get? (line.insert t v) k ≠ none := by
  rw [SortedMap.get?_insert]
  split
  · exact Option.some_ne_none v
  · exact h

/-- An entity that moves goes on. -/
theorem goesOnAt_movedAt (t : Time) (location : Location) (role : Role) :
    GoesOnAt t role (role.movedAt t location) := by
  cases role with
  | entity id uuid kind place line =>
    refine ⟨rfl, fun τ hτ => SortedMap.mem_keys_insert.1 hτ, fun htimes minY s hs => ?_,
      fun spawn h => get?_insert_ne_none h t location⟩
    rw [movedAt, figure, at?_insert_of_lt htimes location hs]
    rfl
  | chunk | weather => exact .refl t _

/-- Rain that takes a strength goes on. -/
theorem goesOnAt_leveledAt (t : Time) (level : Float32Bits) (role : Role) :
    GoesOnAt t role (role.leveledAt t level) := by
  cases role with
  | weather line =>
    refine ⟨rfl, fun τ hτ => SortedMap.mem_keys_insert.1 hτ, fun htimes minY s hs => ?_,
      fun spawn h => get?_insert_ne_none h t level⟩
    rw [leveledAt, figure, at?_insert_of_lt htimes level hs]
    rfl
  | entity | chunk => exact .refl t _

/-- What holds of all changes before and of the new ones holds of all. -/
theorem forall_mem_insert_append {line : Timeline (List BlockChange)} {P : BlockChange → Prop}
    (h : ∀ e ∈ line.entries, ∀ c ∈ e.2, P c) {t : Time} {changes : List BlockChange}
    (hchanges : ∀ c ∈ changes, P c) :
    ∀ e ∈ (line.insert t ((line.get? t).getD [] ++ changes)).entries, ∀ c ∈ e.2, P c := by
  intro e he c hc
  rcases SortedMap.mem_insert_iff.1 he with rfl | ⟨he, -⟩
  · rcases List.mem_append.1 hc with hc | hc
    · cases hget : line.get? t with
      | none => exact absurd (hget ▸ hc) List.not_mem_nil
      | some old =>
        rw [hget] at hc
        exact h (t, old) (SortedMap.get?_eq_some_iff.1 hget) c hc
    · exact hchanges c hc
  · exact h e he c hc

/-- A chunk whose blocks change goes on. -/
theorem goesOnAt_changedAt (t : Time) {changes : List BlockChange}
    (hchanges : ∀ c ∈ changes, c.before ≠ c.after) (role : Role) :
    GoesOnAt t role (role.changedAt t changes) := by
  cases role with
  | chunk x z data line =>
    rw [changedAt]
    split
    · exact .refl t _
    · refine ⟨rfl, fun τ hτ => SortedMap.mem_keys_insert.1 hτ, fun htimes minY s hs => ?_,
        fun spawn h => forall_mem_insert_append h hchanges⟩
      simp only [figure, Timeline.changesUpTo_insert_of_lt
        (fun e he => htimes e.1 (List.mem_map_of_mem he)) _ hs]
  | entity | weather => exact .refl t _

/-- Changes inside a chunk are recorded inside it. -/
theorem Inside.changedAt {role : Role} (h : role.Inside) {t : Time} {x z : Int32}
    (hkey : role.key = .chunk x z) {changes : List BlockChange}
    (hchanges : ∀ c ∈ changes, c.position.chunk = (x, z)) : (role.changedAt t changes).Inside := by
  cases role with
  | chunk x' z' data line =>
    obtain ⟨rfl, rfl⟩ := ThingKey.chunk.inj hkey
    rw [Role.changedAt]
    split
    · exact h
    · exact ⟨h.1, forall_mem_insert_append h.2 hchanges⟩
  | entity | weather => exact h

theorem Inside.movedAt {role : Role} (h : role.Inside) (t : Time) (location : Location) :
    (role.movedAt t location).Inside := by
  cases role <;> exact h

theorem Inside.leveledAt {role : Role} (h : role.Inside) (t : Time) (level : Float32Bits) :
    (role.leveledAt t level).Inside := by
  cases role <;> exact h

end Role

/-! ### Stages -/

/-- The life that ends at a moment. -/
def Life.endedAt (life : Life) (t : Time) : Life := { life with despawn := t }

/-- A life that begins at a moment and lasts. -/
def Role.lifeFrom (role : Role) (t : Time) : Life := ⟨t, Time.last, role⟩

/-- The world being recorded. -/
structure Stage where
  start : Time
  info : WorldInfo
  past : List Life
  present : ThingKey → Option Life
  /-- The blocks of the chunks that are there as they are now. -/
  column : Int32 × Int32 → Column
  line : Channel → Timeline Packet

namespace Stage

/-- The lowest height of the world. -/
def minY (stage : Stage) : Int32 := stage.info.dimension.minY

/-- The life under a key ends, if there is one. One that ends as it begins leaves no trace. -/
def retire (stage : Stage) (t : Time) (key : ThingKey) : Stage :=
  match stage.present key with
  | none => stage
  | some life =>
    { stage with
      past := if t ≤ life.spawn then stage.past else stage.past ++ [life.endedAt t]
      present := Function.update stage.present key none }

/-- A life begins. -/
def place (stage : Stage) (t : Time) (role : Role) : Stage :=
  { stage with present := Function.update stage.present role.key (some (role.lifeFrom t)) }

/-- The life under a key goes on, if there is one. -/
def alter (stage : Stage) (key : ThingKey) (f : Role → Role) : Stage :=
  { stage with
    present := Function.update stage.present key
      ((stage.present key).map fun life => { life with role := f life.role }) }

/-- The blocks of a chunk are those of a column. -/
def setColumn (stage : Stage) (chunk : Int32 × Int32) (column : Column) : Stage :=
  { stage with column := Function.update stage.column chunk column }

/-- A packet arrives on a channel. -/
def signal (stage : Stage) (channel : Channel) (t : Time) (packet : Packet) : Stage :=
  { stage with
    line := Function.update stage.line channel ((stage.line channel).insert t packet) }

/-! ### What packets do -/

/-- A chunk is sent: it appears, or its blocks change. -/
def receiveChunk (stage : Stage) (t : Time) (x z : Int32) (data : Bytes) (column : Column) :
    Stage :=
  let anew := (stage.retire t (.chunk x z)).place t (.chunk x z data .empty)
  match stage.present (.chunk x z) with
  | none => anew.setColumn (x, z) column
  | some _ =>
    match Column.diff? x z stage.minY (stage.column (x, z)) column with
    | none => anew.setColumn (x, z) column
    | some changes =>
      (stage.alter (.chunk x z) (Role.changedAt t changes)).setColumn (x, z) column

/-- A block changes. -/
def updateBlock (stage : Stage) (t : Time) (position : Position) (state : BlockState) : Stage :=
  match stage.present (Client.chunkKey position) with
  | none => stage
  | some _ =>
    let column := stage.column position.chunk
    match column.block? stage.minY position with
    | none => stage
    | some before =>
      if before = state then stage
      else
        (stage.alter (Client.chunkKey position)
          (Role.changedAt t [⟨position, before, state⟩])).setColumn position.chunk
            (column.setBlock stage.minY position state)

/-- A chunk that is sent takes the place of the one that is there, or the one that is there takes
its blocks. -/
theorem receiveChunk_eq (stage : Stage) (t : Time) (x z : Int32) (data : Bytes) (column : Column) :
    (stage.receiveChunk t x z data column =
        ((stage.retire t (.chunk x z)).place t (.chunk x z data .empty)).setColumn (x, z) column ∧
      ∀ life, stage.present (.chunk x z) = some life →
        Column.diff? x z stage.minY (stage.column (x, z)) column = none) ∨
    ∃ life changes, stage.present (.chunk x z) = some life ∧
      Column.diff? x z stage.minY (stage.column (x, z)) column = some changes ∧
      stage.receiveChunk t x z data column =
        (stage.alter (.chunk x z) (Role.changedAt t changes)).setColumn (x, z) column := by
  rw [receiveChunk]
  cases hlife : stage.present (.chunk x z) with
  | none => exact .inl ⟨rfl, nofun⟩
  | some life =>
    cases hdiff : Column.diff? x z stage.minY (stage.column (x, z)) column with
    | none => exact .inl ⟨rfl, fun _ _ => rfl⟩
    | some changes => exact .inr ⟨life, changes, rfl, rfl, rfl⟩

/-- A block changes unless there is none or it is already as it should be. -/
theorem updateBlock_eq (stage : Stage) (t : Time) (position : Position) (state : BlockState) :
    (stage.updateBlock t position state = stage ∧
      ∀ life, stage.present (Client.chunkKey position) = some life →
        (stage.column position.chunk).block? stage.minY position = none ∨
          (stage.column position.chunk).block? stage.minY position = some state) ∨
    ∃ life before, stage.present (Client.chunkKey position) = some life ∧
      (stage.column position.chunk).block? stage.minY position = some before ∧ before ≠ state ∧
      stage.updateBlock t position state =
        (stage.alter (Client.chunkKey position)
          (Role.changedAt t [⟨position, before, state⟩])).setColumn position.chunk
            ((stage.column position.chunk).setBlock stage.minY position state) := by
  rw [updateBlock]
  cases hlife : stage.present (Client.chunkKey position) with
  | none => exact .inl ⟨rfl, nofun⟩
  | some life =>
    dsimp only
    cases hbefore : (stage.column position.chunk).block? stage.minY position with
    | none => exact .inl ⟨rfl, fun _ _ => .inl rfl⟩
    | some before =>
      dsimp only
      by_cases hsame : before = state
      · rw [if_pos hsame]
        exact .inl ⟨rfl, fun _ _ => .inr (congrArg some hsame)⟩
      · rw [if_neg hsame]
        exact .inr ⟨life, before, rfl, rfl, hsame, rfl⟩

/-- Under a key of nothing, nothing goes on. -/
theorem alter_of_none {stage : Stage} {key : ThingKey} (h : stage.present key = none)
    (f : Role → Role) : stage.alter key f = stage := by
  rw [alter, h, Option.map_none, ← h, Function.update_eq_self]

/-- A thing that is there is altered. -/
theorem alter_of_some {stage : Stage} {key : ThingKey} {life : Life}
    (h : stage.present key = some life) (f : Role → Role) : stage.alter key f =
    { stage with
      present := Function.update stage.present key (some { life with role := f life.role }) } := by
  rw [alter, h, Option.map_some]

/-- The blocks of a chunk that lasts change. -/
theorem alter_setColumn {stage : Stage} {key : ThingKey} {life : Life}
    (hlife : stage.present key = some life) (f : Role → Role) (chunk : Int32 × Int32)
    (column : Column) : (stage.alter key f).setColumn chunk column =
      { stage with
        present := Function.update stage.present key (some { life with role := f life.role })
        column := Function.update stage.column chunk column } := by
  rw [alter_of_some hlife]
  rfl

/-- Rain begins; if there is rain already, only its strength is reset. -/
def beginRain (stage : Stage) (t : Time) : Stage :=
  match stage.present .weather with
  | none => stage.place t (.weather (SortedMap.empty.insert t 0))
  | some _ => stage.alter .weather (Role.leveledAt t 0)

/-- A game event. -/
def gameEvent (stage : Stage) (t : Time) (event : UInt8) (value : Float32Bits) : Stage :=
  if event = GameEvent.rainBegins then stage.beginRain t
  else if event = GameEvent.rainEnds then stage.retire t .weather
  else if event = GameEvent.rainLevel then stage.alter .weather (Role.leveledAt t value)
  else if event = GameEvent.thunderLevel then stage.signal .thunder t (.gameEvent event value)
  else stage

/-- The stage after a packet. A chunk that cannot be read does nothing. -/
def receive (stage : Stage) (t : Time) (packet : Packet) : Stage :=
  match packet with
  | .spawnEntity id uuid kind location =>
    (stage.retire t (.entity id)).place t
      (.entity id uuid kind location (.ofList [(t, location)]))
  | .teleportEntity id location _ => stage.alter (.entity id) (Role.movedAt t location)
  | .removeEntities ids => ids.foldl (fun stage id => stage.retire t (.entity id)) stage
  | .chunkData x z data =>
    match Column.decode data with
    | .ok column => stage.receiveChunk t x z data column
    | .error _ => stage
  | .unloadChunk x z => stage.retire t (.chunk x z)
  | .blockUpdate position state => stage.updateBlock t position state
  | .gameEvent event value => stage.gameEvent t event value
  | .setTime .. => stage.signal .clock t packet
  | .setViewCenter .. => stage.signal .viewCenter t packet
  | .setViewDistance .. => stage.signal .viewDistance t packet
  | .joinGame .. | .respawn .. | .playerPosition .. | .changeDifficulty .. | .foreign .. => stage

/-- All lives end. -/
def close (stage : Stage) (t : Time) (keys : List ThingKey) : Stage :=
  keys.foldl (fun stage key => stage.retire t key) stage

/-- The keys of everything that lasts, in the order in which lives end. -/
structure Cover (stage : Stage) (keys : List ThingKey) : Prop where
  sorted : keys.Pairwise ThingKey.Precedes
  all : ∀ key, key ∈ keys ↔ stage.present key ≠ none

/-- A world at its beginning. -/
def begin (t : Time) (info : WorldInfo) (seeds : Channel → Packet) : Stage where
  start := t
  info := info
  past := []
  present := fun _ => none
  column := fun _ => ⟨#[]⟩
  line := fun channel => .ofList [(t, seeds channel)]

end Stage

/-! ### Order -/

/-- A life that has begun and of which nothing is known after a moment. -/
structure Life.Within (life : Life) (now : Time) : Prop where
  nonneg : 0 ≤ life.spawn
  spawn_le : life.spawn ≤ now
  times : ∀ τ ∈ life.role.times, life.spawn ≤ τ ∧ τ ≤ now

/-- A life that is within a time is within a later one. -/
theorem Life.Within.mono {life : Life} {now later : Time} (h : life.Within now)
    (hle : now ≤ later) : life.Within later :=
  ⟨h.nonneg, Int.le_trans h.spawn_le hle, fun τ hτ =>
    ⟨(h.times τ hτ).1, Int.le_trans (h.times τ hτ).2 hle⟩⟩

namespace Stage

/-- A packet of a channel does nothing but arrive there. -/
theorem receive_of_channel (stage : Stage) (t : Time) {packet : Packet} {channel : Channel}
    (h : Channel.of? packet = some channel) :
    stage.receive t packet = stage.signal channel t packet := by
  cases packet with
  | setTime | setViewCenter | setViewDistance =>
    obtain rfl := Option.some.inj h
    rfl
  | gameEvent event value =>
    rw [Channel.of?] at h
    split at h
    · next hevent =>
      obtain rfl := Option.some.inj h
      subst hevent
      rfl
    · exact absurd h (by simp)
  | _ => exact absurd h (by simp [Channel.of?])

/-- A stage on which everything is in order at a moment. -/
structure Orderly (stage : Stage) (now : Time) : Prop where
  nonneg : 0 ≤ stage.start
  start_le : stage.start ≤ now
  past : ∀ life ∈ stage.past, life.Within now ∧ life.spawn < life.despawn ∧ life.despawn ≤ now
  present : ∀ key life, stage.present key = some life →
    life.role.key = key ∧ life.despawn = Time.last ∧ life.Within now
  apart : stage.past.Pairwise Life.Apart
  after : ∀ key life, stage.present key = some life →
    ∀ old ∈ stage.past, old.role.key = key → old.despawn ≤ life.spawn
  begins : ∀ channel, (stage.line channel).get? stage.start ≠ none
  signals : ∀ channel, ∀ e ∈ (stage.line channel).entries, stage.start ≤ e.1 ∧ e.1 ≤ now
  kinds : ∀ channel, ∀ e ∈ (stage.line channel).entries, Channel.of? e.2 = some channel

variable {stage : Stage} {now t : Time}

/-- A stage that is in order at a time is in order later. -/
theorem Orderly.mono (h : stage.Orderly now) {later : Time} (hle : now ≤ later) :
    stage.Orderly later :=
  { h with
    start_le := Int.le_trans h.start_le hle
    past := fun life hlife =>
      have ⟨hwithin, hlt, hend⟩ := h.past life hlife
      ⟨hwithin.mono hle, hlt, Int.le_trans hend hle⟩
    present := fun key life hlife =>
      have ⟨hkey, hlast, hwithin⟩ := h.present key life hlife
      ⟨hkey, hlast, hwithin.mono hle⟩
    signals := fun channel e he =>
      have ⟨hstart, hend⟩ := h.signals channel e he
      ⟨hstart, Int.le_trans hend hle⟩ }

/-- A timeline with one entry has just that. -/
theorem mem_ofList_singleton {V : Type} {t : Time} {v : V} {e : Time × V}
    (h : e ∈ (SortedMap.ofList [(t, v)]).entries) : e = (t, v) := by
  have hget := SortedMap.get?_eq_some_iff.2 h
  rw [SortedMap.get?_ofList_singleton] at hget
  split at hget
  · next heq => exact Prod.ext heq (Option.some.inj hget).symm
  · exact absurd hget (by simp)

/-- A stage that begins is in order. -/
theorem orderly_begin (ht : 0 ≤ t) (info : WorldInfo) {seeds : Channel → Packet}
    (hseeds : ∀ channel, Channel.of? (seeds channel) = some channel) :
    (begin t info seeds).Orderly t where
  nonneg := ht
  start_le := Int.le_refl t
  past := by simp [begin]
  present := by simp [begin]
  apart := .nil
  after := by simp [begin]
  begins channel := by simp [begin, SortedMap.get?_ofList_singleton]
  signals channel e he := by
    obtain rfl := mem_ofList_singleton he
    exact ⟨Int.le_refl t, Int.le_refl t⟩
  kinds channel e he := by
    obtain rfl := mem_ofList_singleton he
    exact hseeds channel

/-- The key under which a life has just ended is free. -/
theorem present_retire (stage : Stage) (t : Time) (key key' : ThingKey) :
    (stage.retire t key).present key' = if key' = key then none else stage.present key' := by
  rw [retire]
  cases hkey : stage.present key with
  | none =>
    by_cases hk : key' = key
    · rw [if_pos hk, hk, hkey]
    · rw [if_neg hk]
  | some life => exact Function.update_apply ..

/-- Who is there after a thing has been placed. -/
theorem present_place (stage : Stage) (t : Time) (role : Role) (key : ThingKey) :
    (stage.place t role).present key =
      if key = role.key then some (role.lifeFrom t) else stage.present key :=
  Function.update_apply ..

/-- Who is there after a thing has been altered. -/
theorem present_alter (stage : Stage) (key key' : ThingKey) (f : Role → Role) :
    (stage.alter key f).present key' =
      if key' = key then (stage.present key).map fun life => { life with role := f life.role }
      else stage.present key' :=
  Function.update_apply ..

/-- What lasts after a life has ended did before. -/
theorem present_of_retire {key key' : ThingKey} {life : Life}
    (h : (stage.retire t key).present key' = some life) :
    key' ≠ key ∧ stage.present key' = some life := by
  rw [present_retire] at h
  split at h
  · exact absurd h (by simp)
  · next hne => exact ⟨hne, h⟩

/-- What is under a key after something was put there, or under another. -/
theorem of_update_eq_some {present : ThingKey → Option Life} {key key' : ThingKey}
    {life life' : Life} (h : Function.update present key (some life) key' = some life') :
    key' = key ∧ life' = life ∨ key' ≠ key ∧ present key' = some life' := by
  rw [Function.update_apply] at h
  split at h
  · next hkey => exact .inl ⟨hkey, (Option.some.inj h).symm⟩
  · next hne => exact .inr ⟨hne, h⟩

/-- The lives that are over after one has ended. -/
theorem mem_past_retire {key : ThingKey} {life : Life} (h : life ∈ (stage.retire t key).past) :
    life ∈ stage.past ∨ ∃ old, stage.present key = some old ∧ old.spawn < t ∧
      life = old.endedAt t := by
  rw [retire] at h
  cases hkey : stage.present key with
  | none => exact .inl (by simpa [hkey] using h)
  | some old =>
    rw [hkey] at h
    by_cases hle : t ≤ old.spawn
    · exact .inl (by simpa [hle] using h)
    · rcases List.mem_append.1 (by simpa only [if_neg hle] using h) with h | h
      · exact .inl h
      · exact .inr ⟨old, rfl, Int.not_le.1 hle, List.mem_singleton.1 h⟩

@[simp] theorem start_retire (stage : Stage) (t : Time) (key : ThingKey) :
    (stage.retire t key).start = stage.start := by
  rw [retire]
  split <;> rfl

@[simp] theorem info_retire (stage : Stage) (t : Time) (key : ThingKey) :
    (stage.retire t key).info = stage.info := by
  rw [retire]
  split <;> rfl

@[simp] theorem line_retire (stage : Stage) (t : Time) (key : ThingKey) :
    (stage.retire t key).line = stage.line := by
  rw [retire]
  split <;> rfl

@[simp] theorem column_retire (stage : Stage) (t : Time) (key : ThingKey) :
    (stage.retire t key).column = stage.column := by
  rw [retire]
  split <;> rfl

/-- Who is there after things have gone. -/
theorem present_close (stage : Stage) (t : Time) (keys : List ThingKey) (key : ThingKey) :
    (stage.close t keys).present key = if key ∈ keys then none else stage.present key := by
  induction keys generalizing stage with
  | nil => rw [if_neg List.not_mem_nil]; rfl
  | cons first keys ih =>
    rw [close, List.foldl_cons]
    refine (ih _).trans ?_
    rw [present_retire]
    by_cases hmem : key ∈ keys
    · rw [if_pos hmem, if_pos (List.mem_cons_of_mem _ hmem)]
    · rw [if_neg hmem]
      by_cases hfirst : key = first
      · rw [if_pos hfirst, if_pos (by rw [hfirst]; exact List.mem_cons_self)]
      · rw [if_neg hfirst, if_neg (by simp [hfirst, hmem])]

theorem close_append (stage : Stage) (t : Time) (front back : List ThingKey) :
    stage.close t (front ++ back) = (stage.close t front).close t back := List.foldl_append

@[simp] theorem start_close (stage : Stage) (t : Time) (keys : List ThingKey) :
    (stage.close t keys).start = stage.start := by
  induction keys generalizing stage with
  | nil => rfl
  | cons key keys ih => exact (ih _).trans (start_retire ..)

@[simp] theorem info_close (stage : Stage) (t : Time) (keys : List ThingKey) :
    (stage.close t keys).info = stage.info := by
  induction keys generalizing stage with
  | nil => rfl
  | cons key keys ih => exact (ih _).trans (info_retire ..)

@[simp] theorem line_close (stage : Stage) (t : Time) (keys : List ThingKey) :
    (stage.close t keys).line = stage.line := by
  induction keys generalizing stage with
  | nil => rfl
  | cons key keys ih => exact (ih _).trans (line_retire ..)

/-- **Only one list has the keys of everything that lasts in order.** -/
theorem Cover.unique {stage : Stage} {keys keys' : List ThingKey} (h : stage.Cover keys)
    (h' : stage.Cover keys') : keys = keys' :=
  eq_of_pairwise_of_mem (fun _ _ hlt => hlt.not_symm) h.sorted h'.sorted fun key =>
    (h.all key).trans (h'.all key).symm

/-- When all lives that last have ended, none lasts. -/
theorem Cover.present_close {stage : Stage} {keys : List ThingKey} (h : stage.Cover keys)
    (t : Time) (key : ThingKey) : (stage.close t keys).present key = none := by
  rw [Stage.present_close]
  split
  · rfl
  · next hmem => exact Classical.not_not.1 fun hsome => hmem ((h.all key).2 hsome)

/-- **Order is kept when a life ends.** -/
theorem Orderly.retire (h : stage.Orderly t) (key : ThingKey) : (stage.retire t key).Orderly t where
  nonneg := by simpa using h.nonneg
  start_le := by simpa using h.start_le
  past life hlife := by
    rcases mem_past_retire hlife with hlife | ⟨old, hold, hlt, rfl⟩
    · exact h.past life hlife
    · exact ⟨⟨(h.present key old hold).2.2.nonneg, (h.present key old hold).2.2.spawn_le,
        (h.present key old hold).2.2.times⟩, hlt, Int.le_refl t⟩
  present key' life hlife := h.present key' life (present_of_retire hlife).2
  apart := by
    rw [Stage.retire]
    cases hkey : stage.present key with
    | none => exact h.apart
    | some old =>
      dsimp only
      split
      · exact h.apart
      · refine List.pairwise_append.2 ⟨h.apart, List.pairwise_singleton _ _, ?_⟩
        intro life hlife ended hended hsame τ hτ
        obtain rfl := List.mem_singleton.1 hended
        -- the lives before under this key were over when the one that ends now began
        have hbefore := h.after key old hkey life hlife
          (hsame.trans (h.present key old hkey).1)
        have hlate : old.spawn ≤ τ := hτ.2.1
        have hearly : τ < life.despawn := hτ.1.2
        lia
  after key' life hlife old hold hkey := by
    obtain ⟨hne, hlife⟩ := present_of_retire hlife
    rcases mem_past_retire hold with hold | ⟨ended, hended, -, rfl⟩
    · exact h.after key' life hlife old hold hkey
    · -- the life that has just ended was under the other key
      exact absurd (hkey.symm.trans (h.present key ended hended).1) hne
  begins channel := by simpa using h.begins channel
  signals channel e he := by
    rw [line_retire] at he
    simpa using h.signals channel e he
  kinds channel e he := by
    rw [line_retire] at he
    exact h.kinds channel e he

/-- **Order is kept when a life begins.** -/
theorem Orderly.place (h : stage.Orderly t) (ht : 0 ≤ t) {role : Role}
    (htimes : ∀ τ ∈ role.times, τ = t) :
    (stage.place t role).Orderly t :=
  { h with
    present := by
      intro key life hlife
      rcases of_update_eq_some hlife with ⟨rfl, rfl⟩ | ⟨-, hlife⟩
      · refine ⟨rfl, rfl, ht, Int.le_refl t, fun τ hτ => ?_⟩
        rw [htimes τ hτ]
        exact ⟨Int.le_refl t, Int.le_refl t⟩
      · exact h.present key life hlife
    after := by
      intro key life hlife old hold hsame
      rcases of_update_eq_some hlife with ⟨rfl, rfl⟩ | ⟨-, hlife⟩
      · -- a life that begins now begins after all that are over
        exact (h.past old hold).2.2
      · exact h.after key life hlife old hold hsame }

/-- **Order is kept when a life goes on.** -/
theorem Orderly.alter (h : stage.Orderly t) {key : ThingKey} {f : Role → Role}
    (hf : ∀ role, role.key = key → Role.GoesOnAt t role (f role)) :
    (stage.alter key f).Orderly t := by
  -- every life that lasts was there before, with the same span
  have hpresent : ∀ key' life, (stage.alter key f).present key' = some life →
      ∃ old, stage.present key' = some old ∧ life.spawn = old.spawn ∧
        life.despawn = old.despawn ∧ Role.GoesOnAt t old.role life.role := by
    intro key' life hlife
    rw [present_alter] at hlife
    by_cases hkey : key' = key
    · subst hkey
      rw [if_pos rfl] at hlife
      obtain ⟨old, hold, rfl⟩ := Option.map_eq_some_iff.1 hlife
      exact ⟨old, hold, rfl, rfl, hf old.role (h.present key' old hold).1⟩
    · rw [if_neg hkey] at hlife
      exact ⟨life, hlife, rfl, rfl, .refl t life.role⟩
  exact
    { h with
      present := by
        intro key' life hlife
        obtain ⟨old, hold, hspawn, hdespawn, hgoes⟩ := hpresent key' life hlife
        obtain ⟨hkey, hlast, hwithin⟩ := h.present key' old hold
        refine ⟨hgoes.key.trans hkey, hdespawn.trans hlast, hspawn ▸ hwithin.nonneg,
          hspawn ▸ hwithin.spawn_le, fun τ hτ => ?_⟩
        rw [hspawn]
        rcases hgoes.times τ hτ with hτ | rfl
        · exact hwithin.times τ hτ
        · exact ⟨hwithin.spawn_le, Int.le_refl τ⟩
      after := by
        intro key' life hlife old hold hsame
        obtain ⟨before, hbefore, hspawn, -, -⟩ := hpresent key' life hlife
        rw [hspawn]
        exact h.after key' before hbefore old hold hsame }

theorem Orderly.setColumn (h : stage.Orderly t) (chunk : Int32 × Int32) (column : Column) :
    (stage.setColumn chunk column).Orderly t :=
  { h with }

/-- What is on a channel once a packet has arrived there. -/
theorem mem_line_signal {channel channel' : Channel} {packet : Packet} {e : Time × Packet}
    (h : e ∈ ((stage.signal channel t packet).line channel').entries) :
    (channel' = channel ∧ e = (t, packet)) ∨ e ∈ (stage.line channel').entries := by
  rw [Stage.signal] at h
  by_cases hc : channel' = channel
  · subst hc
    simp only [Function.update_self] at h
    rcases SortedMap.mem_insert_iff.1 h with rfl | ⟨h, -⟩
    · exact .inl ⟨rfl, rfl⟩
    · exact .inr h
  · simp only [Function.update_of_ne hc] at h
    exact .inr h

/-- **Order is kept when a packet arrives on a channel.** -/
theorem Orderly.signal (h : stage.Orderly t) {channel : Channel} {packet : Packet}
    (hkind : Channel.of? packet = some channel) :
    (stage.signal channel t packet).Orderly t :=
  { h with
    begins := by
      intro channel'
      rw [Stage.signal]
      by_cases hc : channel' = channel
      · subst hc
        simp only [Function.update_self, SortedMap.get?_insert]
        split
        · simp
        · exact h.begins channel'
      · simp only [Function.update_of_ne hc]
        exact h.begins channel'
    signals := by
      intro channel' e he
      rcases mem_line_signal he with ⟨-, rfl⟩ | he
      · exact ⟨h.start_le, Int.le_refl t⟩
      · exact h.signals channel' e he
    kinds := by
      intro channel' e he
      rcases mem_line_signal he with ⟨rfl, rfl⟩ | he
      · exact hkind
      · exact h.kinds channel' e he }

theorem Orderly.nonneg_now (h : stage.Orderly t) : 0 ≤ t := Int.le_trans h.nonneg h.start_le

/-- A stage that closes is in order. -/
theorem Orderly.close (h : stage.Orderly t) (keys : List ThingKey) :
    (stage.close t keys).Orderly t := by
  induction keys generalizing stage with
  | nil => exact h
  | cons key keys ih => exact ih (h.retire key)

/-! ### Packets, move by move -/

/-- What a packet does to a stage: lives end, begin and go on under the keys that it is about, and
it arrives on its channel. -/
inductive Moves (t : Time) (packet : Packet) (stage : Stage) : Stage → Prop
  | stay : Moves t packet stage stage
  | retire {stage' : Stage} {key : ThingKey} (before : Moves t packet stage stage')
      (concerns : packet.Concerns (.thing key)) : Moves t packet stage (stage'.retire t key)
  | place {stage' : Stage} {role : Role} (before : Moves t packet stage stage')
      (concerns : packet.Concerns (.thing role.key)) (free : stage'.present role.key = none)
      (times : ∀ τ ∈ role.times, τ = t) (founded : role.FoundedAt t)
      (inside : packet.ChunkFits → role.Inside) : Moves t packet stage (stage'.place t role)
  | alter {stage' : Stage} {key : ThingKey} {f : Role → Role}
      (before : Moves t packet stage stage') (concerns : packet.Concerns (.thing key))
      (goesOn : ∀ role, role.key = key → Role.GoesOnAt t role (f role))
      (inside : packet.ChunkFits → ∀ role, role.key = key → role.Inside → (f role).Inside) :
      Moves t packet stage (stage'.alter key f)
  | setColumn {stage' : Stage} (before : Moves t packet stage stage') (chunk : Int32 × Int32)
      (column : Column) : Moves t packet stage (stage'.setColumn chunk column)
  | signal {stage' : Stage} {channel : Channel} (before : Moves t packet stage stage')
      (kind : Channel.of? packet = some channel) :
      Moves t packet stage (stage'.signal channel t packet)

/-- A life begins in the place of the one that was there. -/
theorem Moves.anew {packet : Packet} {stage : Stage} (role : Role)
    (hconcerns : packet.Concerns (.thing role.key)) (htimes : ∀ τ ∈ role.times, τ = t)
    (hfounded : role.FoundedAt t) (hinside : packet.ChunkFits → role.Inside) :
    stage.Moves t packet ((stage.retire t role.key).place t role) :=
  .place (.retire .stay hconcerns) hconcerns (by rw [present_retire, if_pos rfl]) htimes hfounded
    hinside

/-- Entities that are removed are retired one after the other. -/
theorem receive_removeEntities (stage : Stage) (t : Time) (ids : List Int32) :
    stage.receive t (.removeEntities ids) = stage.close t (ids.map .entity) := by
  rw [close, List.foldl_map]
  rfl

/-- Entities go one after the other. -/
theorem moves_removeEntities (stage : Stage) (t : Time) (ids : List Int32) :
    stage.Moves t (.removeEntities ids) (stage.receive t (.removeEntities ids)) := by
  -- the packet stays the same while its list is used up
  have hall : ∀ (rest : List Int32) (stage' : Stage), (∀ id ∈ rest, id ∈ ids) →
      stage.Moves t (.removeEntities ids) stage' →
      stage.Moves t (.removeEntities ids)
        (rest.foldl (fun stage id => stage.retire t (.entity id)) stage') := by
    intro rest
    induction rest with
    | nil =>
      intro stage' _ h
      exact h
    | cons id rest ih =>
      intro stage' hids h
      exact ih _ (fun id' hid' => hids id' (List.mem_cons_of_mem _ hid'))
        (.retire h ⟨id, hids id List.mem_cons_self, rfl⟩)
  exact hall ids stage (fun _ h => h) .stay

/-- A chunk is sent. -/
theorem moves_receiveChunk (stage : Stage) (t : Time) (x z : Int32) (data : Bytes)
    (column : Column) :
    stage.Moves t (.chunkData x z data) (stage.receiveChunk t x z data column) := by
  have hconcerns : (Packet.chunkData x z data).Concerns (.thing (.chunk x z)) := rfl
  rcases stage.receiveChunk_eq t x z data column with ⟨heq, -⟩ | ⟨life, changes, -, hdiff, heq⟩
  · rw [heq]
    refine .setColumn (.anew (.chunk x z data .empty) hconcerns
      (fun τ hτ => absurd hτ List.not_mem_nil) (fun e he => absurd he List.not_mem_nil)
      fun hfits => ?_) _ _
    exact ⟨hfits, fun e he => absurd he List.not_mem_nil⟩
  · rw [heq]
    refine .setColumn (.alter .stay hconcerns
      (fun role _ => Role.goesOnAt_changedAt t
        (fun c => Column.before_ne_after_of_mem_diff? hdiff) role)
      fun hfits role hkey hinside => hinside.changedAt hkey fun c hc => ?_) _ _
    exact Column.chunk_of_mem_diff? hfits hdiff hc

/-- A block changes. -/
theorem moves_updateBlock (stage : Stage) (t : Time) (position : Position) (state : BlockState) :
    stage.Moves t (.blockUpdate position state) (stage.updateBlock t position state) := by
  rcases stage.updateBlock_eq t position state with ⟨heq, -⟩ | ⟨life, before, -, -, hne, heq⟩
  · rw [heq]
    exact .stay
  · have hconcerns : (Packet.blockUpdate position state).Concerns
      (.thing (Client.chunkKey position)) := rfl
    have hchanges : ∀ c ∈ [(⟨position, before, state⟩ : BlockChange)], c.before ≠ c.after := by
      intro c hc
      obtain rfl := List.mem_singleton.1 hc
      exact hne
    rw [heq]
    refine .setColumn (.alter .stay hconcerns
      (fun role _ => Role.goesOnAt_changedAt t hchanges role)
      fun _ role hkey hinside => hinside.changedAt hkey fun c hc => ?_) _ _
    rw [List.mem_singleton.1 hc]

/-- A game event. -/
theorem moves_gameEvent (stage : Stage) (t : Time) (event : UInt8) (value : Float32Bits) :
    stage.Moves t (.gameEvent event value) (stage.gameEvent t event value) := by
  have hrain (hevent : event ∈ [GameEvent.rainBegins, GameEvent.rainEnds, GameEvent.rainLevel]) :
      (Packet.gameEvent event value).Concerns (.thing .weather) := .inl ⟨hevent, rfl⟩
  have hlevel (hevent : event ∈ [GameEvent.rainBegins, GameEvent.rainEnds, GameEvent.rainLevel])
      (level : Float32Bits) :
      stage.Moves t (.gameEvent event value) (stage.alter .weather (Role.leveledAt t level)) :=
    .alter .stay (hrain hevent) (fun role _ => Role.goesOnAt_leveledAt t level role)
      fun _ role _ hinside => hinside.leveledAt t level
  rw [gameEvent]
  split
  · next hevent =>
    rw [beginRain]
    split
    · next hnone =>
      refine .place .stay (hrain (by simp [hevent])) hnone (fun τ hτ => ?_) ?_ fun _ => trivial
      · exact (SortedMap.mem_keys_insert.1 hτ).resolve_left List.not_mem_nil
      · show SortedMap.get? (SortedMap.empty.insert t 0) t ≠ none
        simp
    · exact hlevel (by simp [hevent]) 0
  split
  · next hevent => exact .retire .stay (hrain (by simp [hevent]))
  split
  · next hevent => exact hlevel (by simp [hevent]) value
  split
  · next hevent => exact .signal .stay (by rw [Channel.of?, if_pos hevent])
  · exact .stay

/-- **What a packet does to a stage, it does by such moves.** -/
theorem moves_receive (stage : Stage) (t : Time) (packet : Packet) :
    stage.Moves t packet (stage.receive t packet) := by
  cases packet with
  | spawnEntity id uuid kind location =>
    refine .anew (.entity id uuid kind location (.ofList [(t, location)])) rfl
      (fun τ hτ => ?_) ?_ fun _ => trivial
    · obtain ⟨e, he, rfl⟩ := List.mem_map.1 hτ
      rw [mem_ofList_singleton he]
    · show SortedMap.get? (SortedMap.ofList [(t, location)]) t ≠ none
      simp [SortedMap.get?_ofList_singleton]
  | teleportEntity id location =>
    exact .alter .stay rfl (fun role _ => Role.goesOnAt_movedAt t location role)
      fun _ role _ hinside => hinside.movedAt t location
  | removeEntities ids => exact moves_removeEntities stage t ids
  | chunkData x z data =>
    rw [receive]
    split
    · exact moves_receiveChunk stage t x z data _
    · exact .stay
  | unloadChunk x z => exact .retire .stay rfl
  | blockUpdate position state => exact moves_updateBlock stage t position state
  | gameEvent event value => exact moves_gameEvent stage t event value
  | setTime | setViewCenter | setViewDistance => exact .signal .stay rfl
  | joinGame | respawn | playerPosition | changeDifficulty | foreign => exact .stay

/-- The world stays the same. -/
theorem Moves.start_info {packet : Packet} {stage stage' : Stage}
    (h : stage.Moves t packet stage') : stage'.start = stage.start ∧ stage'.info = stage.info := by
  induction h with
  | stay => exact ⟨rfl, rfl⟩
  | retire _ _ ih => rwa [start_retire, info_retire]
  | place _ _ _ _ _ _ ih | alter _ _ _ _ ih | setColumn _ _ _ ih | signal _ _ ih => exact ih

@[simp] theorem start_receive (stage : Stage) (t : Time) (packet : Packet) :
    (stage.receive t packet).start = stage.start := (moves_receive stage t packet).start_info.1

@[simp] theorem info_receive (stage : Stage) (t : Time) (packet : Packet) :
    (stage.receive t packet).info = stage.info := (moves_receive stage t packet).start_info.2

/-- A packet that is not on a channel changes none. -/
theorem Moves.line_eq {packet : Packet} {stage stage' : Stage} (h : stage.Moves t packet stage')
    (hnone : Channel.of? packet = none) : stage'.line = stage.line := by
  induction h with
  | stay => rfl
  | retire _ _ ih => rwa [line_retire]
  | place _ _ _ _ _ _ ih | alter _ _ _ _ ih | setColumn _ _ _ ih => exact ih
  | signal _ hkind => exact absurd (hnone.symm.trans hkind) (by simp)

/-- **Whatever arrives, the stage stays in order.** -/
theorem Moves.orderly {packet : Packet} {stage stage' : Stage}
    (hmoves : stage.Moves t packet stage') (h : stage.Orderly t) : stage'.Orderly t := by
  induction hmoves with
  | stay => exact h
  | retire _ _ ih => exact ih.retire _
  | place _ _ _ htimes _ _ ih => exact ih.place ih.nonneg_now htimes
  | alter _ _ hgoes _ ih => exact ih.alter hgoes
  | setColumn _ _ _ ih => exact ih.setColumn _ _
  | signal _ hkind ih => exact ih.signal hkind

/-- **A stage stays in order, whatever it receives.** -/
theorem Orderly.receive (h : stage.Orderly t) (packet : Packet) :
    (stage.receive t packet).Orderly t :=
  (moves_receive stage t packet).orderly h

end Stage

end Playhead
