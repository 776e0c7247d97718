import Playhead.Proofs.Indexer.Failing
import Playhead.Proofs.Indexer.Stage
import Playhead.Proofs.Thing.Kept

/-!
# The indexer tells the stage

What the indexer knows of the open world matches a stage (`Playhead.Scene.Matches`): it has the
same live things, and the blocks and channels as they are. What it has written keeps the lives that
are over (`Playhead.Progress.Keeps`). Both together are `Playhead.Progress.Tells`, and they are kept
by every packet that the indexer does not refuse (`Playhead.Progress.Tells.receive`) and by the end
of the world (`Playhead.Progress.Tells.endAll`). In all of this the log only grows.
-/

namespace Playhead

open Wire (Codec)

/-! ### Live things -/

/-- What is live of a role. -/
def Role.liveFrom {V : Type} (role : Role) (spawn : Time) (line : Timeline V) : LiveThing V :=
  ⟨spawn, role.key, role.appearance, role.disappearance, line⟩

/-- A live entity and its life. -/
inductive EntityMatches (id : Int32) : Option (LiveThing Location) → Option Life → Prop
  | none : EntityMatches id none none
  | some (uuid : Uuid) (kind : Int32) (place : Location) (line : Timeline Location)
      (spawn : Time) :
      EntityMatches id (some ((Role.entity id uuid kind place line).liveFrom spawn line))
        (some ((Role.entity id uuid kind place line).lifeFrom spawn))

/-- A live chunk, its life and its blocks. -/
inductive ChunkMatches (x z : Int32) : Option LiveChunk → Option Life → Column → Prop
  | none (column : Column) : ChunkMatches x z none none column
  | some (data : Bytes) (line : Timeline (List BlockChange)) (spawn : Time) (column : Column) :
      ChunkMatches x z (some ⟨(Role.chunk x z data line).liveFrom spawn line, column⟩)
        (some ((Role.chunk x z data line).lifeFrom spawn)) column

/-- The rain and its life. -/
inductive RainMatches : Option (LiveThing Float32Bits) → Option Life → Prop
  | none : RainMatches none none
  | some (line : Timeline Float32Bits) (spawn : Time) :
      RainMatches (some ((Role.weather line).liveFrom spawn line))
        (some ((Role.weather line).lifeFrom spawn))

theorem EntityMatches.eq_none_iff {id : Int32} {live : Option (LiveThing Location)}
    {life : Option Life} (h : EntityMatches id live life) : live = .none ↔ life = .none := by
  cases h <;> simp

theorem ChunkMatches.eq_none_iff {x z : Int32} {live : Option LiveChunk} {life : Option Life}
    {column : Column} (h : ChunkMatches x z live life column) : live = .none ↔ life = .none := by
  cases h <;> simp

/-- The indexer has the blocks of a chunk that is there. -/
theorem ChunkMatches.column_eq {x z : Int32} {chunk : LiveChunk} {life : Option Life}
    {column : Column} (h : ChunkMatches x z (.some chunk) life column) : column = chunk.column := by
  cases h
  rfl

theorem RainMatches.eq_none_iff {live : Option (LiveThing Float32Bits)} {life : Option Life}
    (h : RainMatches live life) : live = .none ↔ life = .none := by
  cases h <;> simp

/-- The scene is that of a stage. -/
structure Scene.Matches (scene : Scene) (stage : Stage) : Prop where
  start : scene.start = stage.start
  info : scene.draft.info = stage.info
  entities : ∀ id, EntityMatches id (scene.entities.get? id) (stage.present (.entity id))
  chunks : ∀ x z, ChunkMatches x z (scene.chunks.get? (x, z)) (stage.present (.chunk x z))
    (stage.column (x, z))
  weather : RainMatches scene.weather (stage.present .weather)
  viewCenter : scene.draft.viewCenter = stage.line .viewCenter
  viewDistance : scene.draft.viewDistance = stage.line .viewDistance
  clock : scene.draft.clock = stage.line .clock
  thunder : scene.draft.thunder = stage.line .thunder

namespace Scene.Matches

variable {scene : Scene} {stage : Stage}

theorem minY_eq (h : scene.Matches stage) : scene.minY = stage.minY := by
  rw [Scene.minY, h.info]
  rfl

/-- What is live under the number of an entity is replaced. -/
theorem setEntity (h : scene.Matches stage) {id : Int32} {live : Option (LiveThing Location)}
    {life : Option Life} (hmatches : EntityMatches id live life)
    {entities : SortedMap Int32 (LiveThing Location)}
    (hentities : ∀ id', entities.get? id' = if id' = id then live else scene.entities.get? id') :
    ({ scene with entities } : Scene).Matches
      { stage with present := Function.update stage.present (.entity id) life } :=
  { h with
    entities := fun id' => by
      dsimp only
      rw [hentities, Function.update_apply]
      by_cases hid : id' = id
      · subst hid
        rw [if_pos rfl, if_pos rfl]
        exact hmatches
      · rw [if_neg hid, if_neg (by simpa using hid)]
        exact h.entities id'
    chunks := fun x z => by
      dsimp only
      rw [Function.update_of_ne (by simp)]
      exact h.chunks x z
    weather := by
      dsimp only
      rw [Function.update_of_ne (by simp)]
      exact h.weather }

/-- What is live at the coordinates of a chunk is replaced. -/
theorem setChunk (h : scene.Matches stage) {x z : Int32} {live : Option LiveChunk}
    {life : Option Life} {column : Column} (hmatches : ChunkMatches x z live life column)
    {chunks : SortedMap (Int32 × Int32) LiveChunk}
    (hchunks : ∀ key, chunks.get? key = if key = (x, z) then live else scene.chunks.get? key) :
    ({ scene with chunks } : Scene).Matches
      { stage with
        present := Function.update stage.present (.chunk x z) life
        column := Function.update stage.column (x, z) column } :=
  { h with
    entities := fun id => by
      dsimp only
      rw [Function.update_of_ne (by simp)]
      exact h.entities id
    chunks := fun x' z' => by
      dsimp only
      rw [hchunks, Function.update_apply, Function.update_apply]
      by_cases hkey : (x', z') = (x, z)
      · obtain ⟨rfl, rfl⟩ := Prod.mk.inj hkey
        rw [if_pos rfl, if_pos rfl, if_pos rfl]
        exact hmatches
      · rw [if_neg hkey, if_neg hkey, if_neg (by simpa using hkey)]
        exact h.chunks x' z'
    weather := by
      dsimp only
      rw [Function.update_of_ne (by simp)]
      exact h.weather }

/-- The rain is replaced. -/
theorem setRain (h : scene.Matches stage) {weather : Option (LiveThing Float32Bits)}
    {life : Option Life} (hmatches : RainMatches weather life) :
    ({ scene with weather } : Scene).Matches
      { stage with present := Function.update stage.present .weather life } :=
  { h with
    entities := fun id => by
      dsimp only
      rw [Function.update_of_ne (by simp)]
      exact h.entities id
    chunks := fun x z => by
      dsimp only
      rw [Function.update_of_ne (by simp)]
      exact h.chunks x z
    weather := by
      dsimp only
      rw [Function.update_self]
      exact hmatches }

end Scene.Matches

namespace Stage

/-- A live thing whose life is on the stage, and whose timeline is the track of its role. -/
structure Carries {V : Type} (stage : Stage) (value : Codec Failure V) (thing : LiveThing V)
    (role : Role) : Prop where
  live : thing = role.liveFrom thing.spawn thing.timeline
  present : stage.present role.key = some (role.lifeFrom thing.spawn)
  written : ∀ log handle log', log.commitTimeline value thing.timeline = .ok (handle, log') →
    role.WrittenTo log handle log'

/-- The record that the indexer makes of a live thing is that of its life. -/
theorem Carries.record_eq {V : Type} {stage : Stage} {value : Codec Failure V}
    {thing : LiveThing V} {role : Role} (h : stage.Carries value thing role) (t : Time)
    (inner : Handle) :
    (⟨thing.spawn, t, thing.key, [thing.appearance], [thing.disappearance], inner⟩ : ThingRecord) =
      ((role.lifeFrom thing.spawn).endedAt t).recordAt inner := by
  rw [h.live]
  rfl

/-- A live entity is carried by its role. -/
theorem carries_of_entity {stage : Stage} {id : Int32} {thing : LiveThing Location}
    (h : EntityMatches id (some thing) (stage.present (.entity id))) :
    ∃ role, role.key = .entity id ∧ stage.Carries Stored.location thing role := by
  generalize hlife : stage.present (.entity id) = life at h
  cases h with
  | some uuid kind place line spawn =>
    exact ⟨.entity id uuid kind place line, rfl, rfl, hlife, fun _ _ _ h => h⟩

/-- A live chunk is carried by its role. -/
theorem carries_of_chunk {stage : Stage} {x z : Int32} {chunk : LiveChunk} {column : Column}
    (h : ChunkMatches x z (some chunk) (stage.present (.chunk x z)) column) :
    ∃ role, role.key = .chunk x z ∧ stage.Carries Stored.changes chunk.thing role := by
  generalize hlife : stage.present (.chunk x z) = life at h
  cases h with
  | some data line spawn =>
    exact ⟨.chunk x z data line, rfl, rfl, hlife, fun _ _ _ h => h⟩

/-- The rain is carried by its role. -/
theorem carries_of_rain {stage : Stage} {thing : LiveThing Float32Bits}
    (h : RainMatches (some thing) (stage.present .weather)) :
    ∃ role, role.key = .weather ∧ stage.Carries Stored.level thing role := by
  generalize hlife : stage.present .weather = life at h
  cases h with
  | some line spawn => exact ⟨.weather line, rfl, rfl, hlife, fun _ _ _ h => h⟩

end Stage

namespace Progress

/-! ### Lives that end -/

/-- What has been written keeps the lives that are over. -/
structure Keeps (p : Progress) (past : List Life) : Prop where
  faithful : p.log.Faithful
  roster : ∃ roster : Roster, roster.map (·.1) = p.scene.draft.things ∧
    roster.map (·.2) = past.map Life.stored ∧ ∀ q ∈ roster, q.2.KeptBy p.log q.1

variable {p p' : Progress} {stage : Stage} {t : Time} {V : Type} {value : Codec Failure V}

/-- **A life that ends is written**, unless it ends as it began. -/
theorem Keeps.retire (h : p.Keeps stage.past) (horder : stage.Orderly t) (ht : t ≤ Time.last)
    {thing : LiveThing V} {role : Role} (hcarries : stage.Carries value thing role)
    (hok : p.retire value thing t = .done p') :
    p'.Keeps (stage.retire t role.key).past ∧ p.log.GrowsTo p'.log ∧
      ∃ things, p'.scene = { p.scene with draft.things := things } := by
  have hpast : (stage.retire t role.key).past =
      if t ≤ thing.spawn then stage.past
      else stage.past ++ [(role.lifeFrom thing.spawn).endedAt t] := by
    rw [Stage.retire, hcarries.present]
    rfl
  rcases retire_cases hok with ⟨hle, rfl⟩ | ⟨hspawn, inner, log, hcommit, rfl⟩
  · -- nothing is written of what was never seen
    rw [hpast, if_pos hle]
    exact ⟨⟨h.faithful, h.roster⟩, .refl h.faithful, p.scene.draft.things, rfl⟩
  · obtain ⟨-, -, hwithin⟩ := horder.present _ _ hcarries.present
    -- the changes of the thing lie within its life, so their times can be written
    have htimes : ∀ τ ∈ role.times, 0 ≤ τ ∧ τ ≤ Time.last := fun τ hτ =>
      ⟨Int.le_trans hwithin.nonneg (hwithin.times τ hτ).1,
        Int.le_trans (hwithin.times τ hτ).2 ht⟩
    obtain ⟨hgrow, hheld⟩ :=
      (hcarries.written _ _ _ hcommit).heldIn h.faithful htimes
    rw [hcarries.record_eq]
    rw [hpast, if_neg (Int.not_le.2 hspawn)]
    obtain ⟨roster, hthings, hlives, hkept⟩ := h.roster
    refine ⟨⟨hgrow.faithful, roster ++ [(((role.lifeFrom thing.spawn).endedAt t).recordAt inner,
      ((role.lifeFrom thing.spawn).endedAt t).stored)], ?_, ?_, ?_⟩, hgrow, _, rfl⟩
    · rw [List.map_append, hthings]
      rfl
    · rw [List.map_append, List.map_append, hlives]
      rfl
    · intro q hq
      rcases List.mem_append.1 hq with hq | hq
      · exact (hkept q hq).grow h.faithful hgrow
      · rw [List.mem_singleton.1 hq]
        exact Life.keptBy_recordAt hheld hwithin.nonneg hspawn ht

/-! ### Packets -/

/-- What the indexer knows and has written of the open world. -/
structure Tells (p : Progress) (stage : Stage) : Prop where
  scene : p.scene.Matches stage
  keeps : p.Keeps stage.past

/-- The counts do not matter. -/
theorem Tells.setStats (h : p.Tells stage) (stats : Stats) :
    ({ p with stats } : Progress).Tells stage :=
  ⟨h.scene, h.keeps.faithful, h.keeps.roster⟩

/-- A live thing is taken from the scene and ends its life. -/
theorem Tells.retire (h : p.Tells stage) (horder : stage.Orderly t) (ht : t ≤ Time.last)
    {thing : LiveThing V} {role : Role} (hcarries : stage.Carries value thing role)
    (scene : Scene) (hthings : scene.draft.things = p.scene.draft.things)
    (hscene : scene.Matches { stage with
      present := Function.update stage.present role.key none })
    (hok : ({ p with scene } : Progress).retire value thing t = .done p') :
    p'.Tells (stage.retire t role.key) ∧ p.log.GrowsTo p'.log := by
  have hkeeps : ({ p with scene } : Progress).Keeps stage.past :=
    ⟨h.keeps.faithful, by rw [hthings]; exact h.keeps.roster⟩
  obtain ⟨hkeeps', hgrow, things, hthings'⟩ := hkeeps.retire horder ht hcarries hok
  refine ⟨⟨?_, hkeeps'⟩, hgrow⟩
  rw [hthings', Stage.retire, hcarries.present]
  exact ⟨hscene.start, hscene.info, hscene.entities, hscene.chunks, hscene.weather,
    hscene.viewCenter, hscene.viewDistance, hscene.clock, hscene.thunder⟩

theorem retire_of_none {key : ThingKey} (h : stage.present key = none) :
    stage.retire t key = stage := by
  rw [Stage.retire, h]

/-- An entity goes. -/
theorem Tells.retireEntity (h : p.Tells stage) (horder : stage.Orderly t) (ht : t ≤ Time.last)
    {id : Int32} (hok : p.retireEntity t id = .done p') :
    p'.Tells (stage.retire t (.entity id)) ∧ p.log.GrowsTo p'.log := by
  have hmatches := h.scene.entities id
  rw [Progress.retireEntity] at hok
  cases hget : p.scene.entities.get? id with
  | none =>
    rw [hget] at hok
    obtain rfl := Outcome.done_inj.1 hok
    rw [retire_of_none (hmatches.eq_none_iff.1 hget)]
    exact ⟨h, .refl h.keeps.faithful⟩
  | some thing =>
    rw [hget] at hok hmatches
    obtain ⟨role, hkey, hcarries⟩ := Stage.carries_of_entity hmatches
    rw [← hkey]
    refine h.retire horder ht hcarries
      { p.scene with entities := p.scene.entities.erase id } rfl ?_ hok
    rw [hkey]
    exact h.scene.setEntity .none fun id' => SortedMap.get?_erase ..

/-- A chunk goes. -/
theorem Tells.retireChunk (h : p.Tells stage) (horder : stage.Orderly t) (ht : t ≤ Time.last)
    {x z : Int32} (hok : p.retireChunk t x z = .done p') :
    p'.Tells (stage.retire t (.chunk x z)) ∧ p.log.GrowsTo p'.log := by
  have hmatches := h.scene.chunks x z
  rw [Progress.retireChunk] at hok
  cases hget : p.scene.chunks.get? (x, z) with
  | none =>
    rw [hget] at hok
    obtain rfl := Outcome.done_inj.1 hok
    rw [retire_of_none (hmatches.eq_none_iff.1 hget)]
    exact ⟨h, .refl h.keeps.faithful⟩
  | some chunk =>
    rw [hget] at hok hmatches
    obtain ⟨role, hkey, hcarries⟩ := Stage.carries_of_chunk hmatches
    rw [← hkey]
    refine h.retire horder ht hcarries
      { p.scene with chunks := p.scene.chunks.erase (x, z) } rfl ?_ hok
    have hscene := h.scene.setChunk (.none (stage.column (x, z)))
      (fun key => SortedMap.get?_erase p.scene.chunks (x, z) key)
    rw [Function.update_eq_self] at hscene
    rw [hkey]
    exact hscene

/-- The rain ends. -/
theorem Tells.endRain (h : p.Tells stage) (horder : stage.Orderly t) (ht : t ≤ Time.last)
    (hok : p.endRain t = .done p') :
    p'.Tells (stage.retire t .weather) ∧ p.log.GrowsTo p'.log := by
  have hmatches := h.scene.weather
  rw [Progress.endRain] at hok
  cases hget : p.scene.weather with
  | none =>
    rw [hget] at hok
    obtain rfl := Outcome.done_inj.1 hok
    rw [retire_of_none (hmatches.eq_none_iff.1 hget)]
    exact ⟨h, .refl h.keeps.faithful⟩
  | some rain =>
    rw [hget] at hok hmatches
    obtain ⟨role, hkey, hcarries⟩ := Stage.carries_of_rain hmatches
    rw [← hkey]
    refine h.retire horder ht hcarries { p.scene with weather := none } rfl ?_ hok
    rw [hkey]
    exact h.scene.setRain .none

/-- The scene is replaced by one that matches another stage with the same past. -/
theorem Tells.setScene (h : p.Tells stage) {scene : Scene} {stage' : Stage}
    (hscene : scene.Matches stage') (hthings : scene.draft.things = p.scene.draft.things)
    (hpast : stage'.past = stage.past) : ({ p with scene } : Progress).Tells stage' :=
  ⟨hscene, h.keeps.faithful, by rw [hpast, hthings]; exact h.keeps.roster⟩

/-- An entity appears. -/
theorem Tells.spawnEntity (h : p.Tells stage) (horder : stage.Orderly t) (ht : t ≤ Time.last)
    {id : Int32} {uuid : Uuid} {kind : Int32} {location : Location}
    (hok : p.spawnEntity t id uuid kind location = .done p') :
    p'.Tells (stage.receive t (.spawnEntity id uuid kind location)) ∧ p.log.GrowsTo p'.log := by
  obtain ⟨p₁, hretire, hok⟩ := Outcome.andThen_eq_done_iff.1 hok
  obtain rfl := Outcome.done_inj.1 hok
  obtain ⟨htells, hgrow⟩ := h.retireEntity horder ht hretire
  refine ⟨htells.setScene (htells.scene.setEntity (.some uuid kind location _ t) fun id' => ?_)
    rfl rfl, hgrow⟩
  exact SortedMap.get?_insert ..

/-- An entity moves. -/
theorem Tells.teleportEntity (h : p.Tells stage) (id : Int32) (location : Location) :
    (p.teleportEntity t id location).Tells (stage.alter (.entity id) (Role.movedAt t location)) ∧
      (p.teleportEntity t id location).log = p.log := by
  have hmatches := h.scene.entities id
  rw [Progress.teleportEntity]
  generalize hlive : p.scene.entities.get? id = live at hmatches
  generalize hlife : stage.present (.entity id) = life at hmatches
  cases hmatches with
  | none =>
    rw [Stage.alter_of_none hlife]
    exact ⟨h.setStats _, rfl⟩
  | some uuid kind place line spawn =>
    refine ⟨h.setScene ?_ rfl rfl, rfl⟩
    rw [Stage.alter_of_some hlife]
    exact h.scene.setEntity (.some uuid kind place (line.insert t location) spawn)
      fun id' => SortedMap.get?_insert ..

/-- An entity goes that should be there. -/
theorem Tells.removeEntity (h : p.Tells stage) (horder : stage.Orderly t) (ht : t ≤ Time.last)
    {id : Int32} (hok : p.removeEntity t id = .done p') :
    p'.Tells (stage.retire t (.entity id)) ∧ p.log.GrowsTo p'.log := by
  rw [Progress.removeEntity] at hok
  split at hok
  · next hnone =>
    -- an entity that is not there is counted, which changes neither scene nor log
    obtain rfl := Outcome.done_inj.1 hok
    rw [retire_of_none ((h.scene.entities id).eq_none_iff.1 hnone)]
    exact ⟨h.setStats _, .refl h.keeps.faithful⟩
  · exact h.retireEntity horder ht hok

/-- Entities go. -/
theorem Tells.removeEntities (h : p.Tells stage) (horder : stage.Orderly t) (ht : t ≤ Time.last)
    {ids : List Int32} (hok : Progress.removeEntities t ids p = .done p') :
    p'.Tells (stage.receive t (.removeEntities ids)) ∧ p.log.GrowsTo p'.log := by
  induction ids generalizing p stage with
  | nil =>
    obtain rfl := Outcome.done_inj.1 hok
    exact ⟨h, .refl h.keeps.faithful⟩
  | cons id ids ih =>
    rw [removeEntities_cons] at hok
    obtain ⟨p₁, hremove, hok⟩ := Outcome.andThen_eq_done_iff.1 hok
    obtain ⟨htells, hgrow⟩ := h.removeEntity horder ht hremove
    obtain ⟨htells', hgrow'⟩ := ih htells (horder.retire _) hok
    exact ⟨htells', hgrow.trans hgrow'⟩

/-! ### Chunks -/

/-- A chunk appears. -/
theorem Tells.spawnChunk (h : p.Tells stage) (horder : stage.Orderly t) (ht : t ≤ Time.last)
    {x z : Int32} {data : Bytes} {column : Column}
    (hok : p.spawnChunk t x z data column = .done p') :
    p'.Tells (((stage.retire t (.chunk x z)).place t (.chunk x z data .empty)).setColumn (x, z)
      column) ∧ p.log.GrowsTo p'.log := by
  obtain ⟨p₁, hretire, hok⟩ := Outcome.andThen_eq_done_iff.1 hok
  obtain rfl := Outcome.done_inj.1 hok
  obtain ⟨htells, hgrow⟩ := h.retireChunk horder ht hretire
  refine ⟨htells.setScene (htells.scene.setChunk (.some data _ t column) fun key => ?_) rfl rfl,
    hgrow⟩
  exact SortedMap.get?_insert ..

/-- Changes of a live chunk are changes of its role. -/
theorem record_liveFrom {x z : Int32} {data : Bytes} {line : Timeline (List BlockChange)}
    {spawn : Time} {column : Column} (changes : List BlockChange) :
    ∃ line', (Role.chunk x z data line).changedAt t changes = .chunk x z data line' ∧
      LiveChunk.record ⟨(Role.chunk x z data line).liveFrom spawn line, column⟩ t changes =
        ⟨(Role.chunk x z data line').liveFrom spawn line', column⟩ := by
  rw [Role.changedAt, LiveChunk.record]
  by_cases hempty : changes.isEmpty = true
  · rw [if_pos hempty, if_pos hempty]
    exact ⟨line, rfl, rfl⟩
  · rw [if_neg hempty, if_neg hempty]
    exact ⟨_, rfl, rfl⟩

/-- A chunk that is there goes on, with other blocks. -/
theorem Tells.changeChunk (h : p.Tells stage) {x z : Int32} {chunk : LiveChunk}
    (hchunk : p.scene.chunks.get? (x, z) = some chunk) (changes : List BlockChange)
    (column : Column) :
    ({ p with
        scene.chunks := p.scene.chunks.insert (x, z)
          ⟨(LiveChunk.record chunk t changes).thing, column⟩ } : Progress).Tells
      ((stage.alter (.chunk x z) (Role.changedAt t changes)).setColumn (x, z) column) := by
  have hmatches := h.scene.chunks x z
  rw [hchunk] at hmatches
  generalize hlife : stage.present (.chunk x z) = life at hmatches
  generalize stage.column (x, z) = before at hmatches
  cases hmatches with
  | some data line spawn =>
    obtain ⟨line', hrole, hrecord⟩ := record_liveFrom (x := x) (z := z) (t := t) changes
    have hgoes : ((some ((Role.chunk x z data line).lifeFrom spawn)).map fun life : Life =>
        { life with role := life.role.changedAt t changes }) =
        some ((Role.chunk x z data line').lifeFrom spawn) := by
      rw [← hrole]
      rfl
    refine h.setScene ?_ rfl rfl
    rw [hrecord, Stage.alter, hlife, hgoes]
    exact h.scene.setChunk (.some data line' spawn column) fun key => SortedMap.get?_insert ..

/-- A chunk is sent. -/
theorem Tells.receiveChunk (h : p.Tells stage) (horder : stage.Orderly t) (ht : t ≤ Time.last)
    {x z : Int32} {data : Bytes} (hok : p.receiveChunk t x z data = .done p') :
    p'.Tells (stage.receive t (.chunkData x z data)) ∧ p.log.GrowsTo p'.log := by
  obtain ⟨column, hdecode, hok⟩ := receiveChunk_cases hok
  have hmatches := h.scene.chunks x z
  rw [Stage.receive]
  simp only [hdecode]
  rw [Stage.receiveChunk]
  cases hget : p.scene.chunks.get? (x, z) with
  | none =>
    rw [hget] at hok
    simp only [hmatches.eq_none_iff.1 hget]
    exact h.spawnChunk horder ht hok
  | some chunk =>
    rw [hget] at hok hmatches
    -- both compare the new blocks with the same old ones
    have hcolumn : stage.column (x, z) = chunk.column := hmatches.column_eq
    obtain ⟨life, hlife⟩ := Option.ne_none_iff_exists'.1
      fun hnone => absurd (hmatches.eq_none_iff.2 hnone) (by simp)
    simp only [h.scene.minY_eq, ← hcolumn] at hok
    simp only [hlife]
    cases hdiff : Column.diff? x z stage.minY (stage.column (x, z)) column with
    | none =>
      -- the columns cannot be compared, so a new chunk takes the place of the old one
      simp only [hdiff] at hok
      exact h.spawnChunk horder ht hok
    | some changes =>
      simp only [hdiff] at hok
      obtain rfl := Outcome.done_inj.1 hok
      exact ⟨h.changeChunk hget changes column, .refl h.keeps.faithful⟩

/-- A block changes. -/
theorem Tells.updateBlock (h : p.Tells stage) (position : Position) (state : BlockState) :
    (p.updateBlock t position state).Tells (stage.updateBlock t position state) ∧
      (p.updateBlock t position state).log = p.log := by
  have hmatches := h.scene.chunks position.chunk.1 position.chunk.2
  rw [Progress.updateBlock, Stage.updateBlock, Client.chunkKey]
  cases hget : p.scene.chunks.get? position.chunk with
  | none =>
    simp only [hmatches.eq_none_iff.1 hget]
    exact ⟨h.setStats _, rfl⟩
  | some chunk =>
    have hget' : p.scene.chunks.get? (position.chunk.1, position.chunk.2) = some chunk := hget
    rw [hget'] at hmatches
    have hcolumn : stage.column position.chunk = chunk.column := hmatches.column_eq
    obtain ⟨life, hlife⟩ := Option.ne_none_iff_exists'.1
      fun hnone => absurd (hmatches.eq_none_iff.2 hnone) (by simp)
    simp only [hlife, h.scene.minY_eq, ← hcolumn]
    cases hblock : (stage.column position.chunk).block? stage.minY position with
    | none => exact ⟨h.setStats _, rfl⟩
    | some before =>
      dsimp only
      by_cases hsame : before = state
      · rw [if_pos hsame, if_pos hsame]
        exact ⟨h, rfl⟩
      · rw [if_neg hsame, if_neg hsame]
        exact ⟨h.changeChunk hget' _ _, rfl⟩

/-! ### Weather and channels -/

/-- Rain begins. -/
theorem Tells.beginRain (h : p.Tells stage) :
    (p.beginRain t).Tells (stage.beginRain t) ∧ (p.beginRain t).log = p.log := by
  have hmatches := h.scene.weather
  rw [Progress.beginRain, Stage.beginRain]
  generalize hlive : p.scene.weather = live at hmatches
  generalize hlife : stage.present .weather = life at hmatches
  cases hmatches with
  | none => exact ⟨h.setScene (h.scene.setRain (.some (SortedMap.empty.insert t 0) t)) rfl rfl, rfl⟩
  | some line spawn =>
    refine ⟨h.setScene ?_ rfl rfl, rfl⟩
    simp only [Stage.alter_of_some hlife]
    exact h.scene.setRain (.some (line.insert t 0) spawn)

/-- The rain takes a strength. -/
theorem Tells.setRain (h : p.Tells stage) (level : Float32Bits) :
    ({ p with scene.weather := p.scene.weather.map (Progress.setRain t level) } : Progress).Tells
      (stage.alter .weather (Role.leveledAt t level)) := by
  have hmatches := h.scene.weather
  generalize hlive : p.scene.weather = live at hmatches
  generalize hlife : stage.present .weather = life at hmatches
  cases hmatches with
  | none =>
    rw [Stage.alter_of_none hlife, Option.map_none, ← hlive]
    exact h
  | some line spawn =>
    refine h.setScene ?_ rfl rfl
    rw [Stage.alter_of_some hlife]
    exact h.scene.setRain (.some (line.insert t level) spawn)

/-- A game event. -/
theorem Tells.gameEvent (h : p.Tells stage) (horder : stage.Orderly t) (ht : t ≤ Time.last)
    {event : UInt8} {value : Float32Bits} (hok : p.gameEvent t event value = .done p') :
    p'.Tells (stage.gameEvent t event value) ∧ p.log.GrowsTo p'.log := by
  have hrefl : p.log.GrowsTo p.log := .refl h.keeps.faithful
  rw [Progress.gameEvent] at hok
  rw [Stage.gameEvent]
  split
  · next hbegin =>
    rw [if_pos hbegin] at hok
    obtain rfl := Outcome.done_inj.1 hok
    exact ⟨h.beginRain.1, by rw [h.beginRain.2]; exact hrefl⟩
  next hbegin =>
  rw [if_neg hbegin] at hok
  split
  · next hend =>
    rw [if_pos hend] at hok
    exact h.endRain horder ht hok
  next hend =>
  rw [if_neg hend] at hok
  split
  · next hlevel =>
    rw [if_pos hlevel] at hok
    obtain rfl := Outcome.done_inj.1 hok
    exact ⟨h.setRain value, hrefl⟩
  next hlevel =>
  rw [if_neg hlevel] at hok
  split
  · next hthunder =>
    rw [if_pos hthunder] at hok
    obtain rfl := Outcome.done_inj.1 hok
    have hthunder := congrArg (SortedMap.insert · t (.gameEvent event value)) h.scene.thunder
    exact ⟨h.setScene { h.scene with thunder := hthunder } rfl rfl, hrefl⟩
  next hthunder =>
  rw [if_neg hthunder] at hok
  obtain rfl := Outcome.done_inj.1 hok
  exact ⟨h, hrefl⟩

/-! ### All packets -/

/-- **What the indexer takes, the stage receives.** -/
theorem Tells.receive (h : p.Tells stage) (horder : stage.Orderly t) (ht : t ≤ Time.last)
    {packet : Packet} (hok : p.receive t packet = .done p') :
    p'.Tells (stage.receive t packet) ∧ p.log.GrowsTo p'.log := by
  have hrefl : p.log.GrowsTo p.log := .refl h.keeps.faithful
  cases packet with
  | spawnEntity id uuid kind location => exact h.spawnEntity horder ht hok
  | teleportEntity id location onGround =>
    obtain rfl := Outcome.done_inj.1 hok
    exact ⟨(h.teleportEntity id location).1, by rw [(h.teleportEntity id location).2]; exact hrefl⟩
  | removeEntities ids => exact h.removeEntities horder ht hok
  | chunkData x z data => exact h.receiveChunk horder ht hok
  | unloadChunk x z => exact h.retireChunk horder ht hok
  | blockUpdate position state =>
    obtain rfl := Outcome.done_inj.1 hok
    exact ⟨(h.updateBlock position state).1, by rw [(h.updateBlock position state).2]; exact hrefl⟩
  | gameEvent event value => exact h.gameEvent horder ht hok
  | setTime worldAge timeOfDay =>
    obtain rfl := Outcome.done_inj.1 hok
    have hclock := congrArg (SortedMap.insert · t (.setTime worldAge timeOfDay)) h.scene.clock
    exact ⟨h.setScene { h.scene with clock := hclock } rfl rfl, hrefl⟩
  | setViewCenter x z =>
    obtain rfl := Outcome.done_inj.1 hok
    have hcenter := congrArg (SortedMap.insert · t (.setViewCenter x z)) h.scene.viewCenter
    exact ⟨h.setScene { h.scene with viewCenter := hcenter } rfl rfl, hrefl⟩
  | setViewDistance distance =>
    obtain rfl := Outcome.done_inj.1 hok
    have hdistance :=
      congrArg (SortedMap.insert · t (.setViewDistance distance)) h.scene.viewDistance
    exact ⟨h.setScene { h.scene with viewDistance := hdistance } rfl rfl, hrefl⟩
  | joinGame | respawn | playerPosition | changeDifficulty | foreign =>
    obtain rfl := Outcome.done_inj.1 hok
    exact ⟨h, hrefl⟩

/-! ### The end of the world

All that is live is written, the entities first, then the chunks, then the rain. The keys under
which it lives are different, so ending one life leaves the others carried
(`Playhead.Stage.CarriesAll.of_present`). -/

end Progress

/-- The keys of the live entities. -/
def Scene.entityKeys (scene : Scene) : List ThingKey := scene.entities.keys.map .entity

/-- The keys of the live chunks. -/
def Scene.chunkKeys (scene : Scene) : List ThingKey :=
  scene.chunks.keys.map fun key => .chunk key.1 key.2

/-- The key of the rain, if it rains. -/
def Scene.rainKeys (scene : Scene) : List ThingKey := scene.weather.toList.map fun _ => .weather

namespace Stage

variable {stage stage' : Stage} {V : Type} {value : Codec Failure V} {things : List (LiveThing V)}
  {keys : List ThingKey}

/-- Live things are carried, each under its own key. -/
def CarriesAll (stage : Stage) (value : Codec Failure V) (things : List (LiveThing V))
    (keys : List ThingKey) : Prop :=
  List.Forall₂ (fun thing key => ∃ role : Role, role.key = key ∧ stage.Carries value thing role)
    things keys

/-- Things in a row are carried if each of them is. -/
theorem carriesAll_map {ι : Type} {members : List ι} {thing : ι → LiveThing V} {key : ι → ThingKey}
    (h : ∀ i ∈ members, ∃ role : Role, role.key = key i ∧ stage.Carries value (thing i) role) :
    stage.CarriesAll value (members.map thing) (members.map key) := by
  rw [CarriesAll, List.forall₂_map_left_iff, List.forall₂_map_right_iff, List.forall₂_same]
  exact h

/-- They are still carried on a stage with the same lives under their keys. -/
theorem CarriesAll.of_present (h : stage.CarriesAll value things keys)
    (hpresent : ∀ key ∈ keys, stage'.present key = stage.present key) :
    stage'.CarriesAll value things keys := by
  refine List.forall₂_iff_zip.2 ⟨h.length_eq, fun {thing key} hmem => ?_⟩
  obtain ⟨role, rfl, hcarries⟩ := (List.forall₂_iff_zip.1 h).2 hmem
  have hkey : role.key ∈ keys := (List.of_mem_zip hmem).2
  exact ⟨role, rfl, hcarries.live, (hpresent _ hkey).trans hcarries.present, hcarries.written⟩

theorem CarriesAll.close (h : stage.CarriesAll value things keys) (t : Time) {gone : List ThingKey}
    (hapart : ∀ key ∈ keys, key ∉ gone) : (stage.close t gone).CarriesAll value things keys :=
  h.of_present fun key hkey => by rw [present_close, if_neg (hapart key hkey)]

end Stage

namespace Scene

/-- Everything that is live has a key of its own, and the keys are in the order in which lives
end. -/
theorem sorted_liveKeys (scene : Scene) :
    (scene.entityKeys ++ (scene.chunkKeys ++ scene.rainKeys)).Pairwise ThingKey.Precedes := by
  have hentities : scene.entityKeys.Pairwise ThingKey.Precedes :=
    List.pairwise_map.2 (List.pairwise_map.2 scene.entities.sorted)
  have hchunks : scene.chunkKeys.Pairwise ThingKey.Precedes :=
    List.pairwise_map.2 (List.pairwise_map.2 scene.chunks.sorted)
  have hrain : scene.rainKeys.Pairwise ThingKey.Precedes := by
    rw [rainKeys]
    cases scene.weather <;> simp
  refine List.pairwise_append.2 ⟨hentities, List.pairwise_append.2 ⟨hchunks, hrain, ?_⟩, ?_⟩
  · intro a ha b hb
    obtain ⟨_, -, rfl⟩ := List.mem_map.1 ha
    obtain ⟨_, -, rfl⟩ := List.mem_map.1 hb
    trivial
  · intro a ha b hb
    obtain ⟨_, -, rfl⟩ := List.mem_map.1 ha
    rcases List.mem_append.1 hb with hb | hb
    all_goals
      obtain ⟨_, -, rfl⟩ := List.mem_map.1 hb
      trivial

theorem nodup_liveKeys (scene : Scene) :
    (scene.entityKeys ++ (scene.chunkKeys ++ scene.rainKeys)).Nodup :=
  scene.sorted_liveKeys.imp ThingKey.Precedes.ne

namespace Matches

variable {scene : Scene} {stage : Stage}

/-- All live entities are carried. -/
theorem carriesAll_entities (h : scene.Matches stage) :
    stage.CarriesAll Stored.location scene.entities.values scene.entityKeys := by
  rw [SortedMap.values, entityKeys, SortedMap.keys, List.map_map]
  refine Stage.carriesAll_map fun e he => ?_
  have hmatches := h.entities e.1
  rw [SortedMap.get?_eq_some_iff.2 he] at hmatches
  exact Stage.carries_of_entity hmatches

/-- All live chunks are carried. -/
theorem carriesAll_chunks (h : scene.Matches stage) :
    stage.CarriesAll Stored.changes (scene.chunks.values.map (·.thing)) scene.chunkKeys := by
  rw [SortedMap.values, chunkKeys, SortedMap.keys, List.map_map, List.map_map]
  refine Stage.carriesAll_map fun e he => ?_
  have hmatches := h.chunks e.1.1 e.1.2
  rw [SortedMap.get?_eq_some_iff.2 he] at hmatches
  exact Stage.carries_of_chunk hmatches

/-- The rain is carried, if there is any. -/
theorem carriesAll_rain (h : scene.Matches stage) :
    stage.CarriesAll Stored.level scene.weather.toList scene.rainKeys := by
  rw [rainKeys, ← List.map_id scene.weather.toList, List.map_map]
  refine Stage.carriesAll_map fun rain hrain => ?_
  have hmatches := h.weather
  rw [Option.mem_toList.1 hrain] at hmatches
  exact Stage.carries_of_rain hmatches

/-- What lasts on the stage is what is live in the scene. -/
theorem cover (h : scene.Matches stage) :
    stage.Cover (scene.entityKeys ++ (scene.chunkKeys ++ scene.rainKeys)) := by
  refine ⟨scene.sorted_liveKeys, fun key => ?_⟩
  cases key with
  | entity id =>
    rw [Ne, ← (h.entities id).eq_none_iff, ← Ne, ← SortedMap.mem_keys_iff]
    simp [entityKeys, chunkKeys, rainKeys]
  | chunk x z =>
    rw [Ne, ← (h.chunks x z).eq_none_iff, ← Ne, ← SortedMap.mem_keys_iff]
    simp [entityKeys, chunkKeys, rainKeys]
  | weather =>
    rw [Ne, ← h.weather.eq_none_iff]
    cases hrain : scene.weather <;> simp [entityKeys, chunkKeys, rainKeys, hrain]

end Matches

end Scene

namespace Progress

variable {p p' : Progress} {stage : Stage} {t : Time} {V : Type} {value : Codec Failure V}

/-- Lives end one after the other. -/
theorem Keeps.retireAll (h : p.Keeps stage.past) (horder : stage.Orderly t) (ht : t ≤ Time.last)
    {things : List (LiveThing V)} {keys : List ThingKey} (hnodup : keys.Nodup)
    (hall : stage.CarriesAll value things keys)
    (hok : Progress.retireAll value t things p = .done p') :
    p'.Keeps (stage.close t keys).past ∧ p.log.GrowsTo p'.log ∧
      ∃ things, p'.scene = { p.scene with draft.things := things } := by
  induction keys generalizing things p stage with
  | nil =>
    obtain rfl := List.forall₂_nil_right_iff.1 hall
    obtain rfl := Outcome.done_inj.1 hok
    exact ⟨h, .refl h.faithful, p.scene.draft.things, rfl⟩
  | cons key keys ih =>
    obtain ⟨thing, things, ⟨role, rfl, hcarries⟩, hrest, rfl⟩ :=
      List.forall₂_cons_right_iff.1 hall
    obtain ⟨hkey, hrestNodup⟩ := List.nodup_cons.1 hnodup
    rw [retireAll_cons] at hok
    obtain ⟨p₁, hretire, hok⟩ := Outcome.andThen_eq_done_iff.1 hok
    obtain ⟨hkeeps, hgrow, records, hscene⟩ := h.retire horder ht hcarries hretire
    have hothers : (stage.retire t role.key).CarriesAll value things keys :=
      Stage.CarriesAll.of_present hrest fun key hmem => by
        have hother : key ≠ role.key := fun heq => hkey (heq ▸ hmem)
        rw [Stage.present_retire, if_neg hother]
    obtain ⟨hkeeps', hgrow', records', hscene'⟩ :=
      ih hkeeps (horder.retire _) hrestNodup hothers hok
    exact ⟨hkeeps', hgrow.trans hgrow', records', by rw [hscene', hscene]⟩

/-- The end of the rain is the end of all rain there is. -/
theorem endRain_eq (p : Progress) (t : Time) :
    p.endRain t = Progress.retireAll Stored.level t p.scene.weather.toList
      { p with scene.weather := none } := by
  rw [Progress.endRain]
  cases hrain : p.scene.weather with
  | none =>
    obtain ⟨⟨start, draft, entities, chunks, weather⟩, log, stats⟩ := p
    obtain rfl : weather = none := hrain
    rfl
  | some rain => exact (Outcome.andThen_done _).symm

/-- **When the world ends, all lives that last are written.** -/
theorem Tells.endAll (h : p.Tells stage) (horder : stage.Orderly t) (ht : t ≤ Time.last)
    (hok : p.endAll t = .done p') :
    ∃ keys, stage.Cover keys ∧ p'.Keeps (stage.close t keys).past ∧ p.log.GrowsTo p'.log ∧
      ∃ things, p'.scene.start = p.scene.start ∧
        p'.scene.draft = { p.scene.draft with things := things } := by
  obtain ⟨p₂, hothers, hrain⟩ := Outcome.andThen_eq_done_iff.1 hok
  obtain ⟨p₁, hentities, hchunks⟩ := Outcome.andThen_eq_done_iff.1 hothers
  have hnodup := p.scene.nodup_liveKeys
  obtain ⟨hnodupEntities, hnodupOthers, hapart⟩ := List.nodup_append.1 hnodup
  obtain ⟨hnodupChunks, hnodupRain, hapart'⟩ := List.nodup_append.1 hnodupOthers
  -- what goes is taken from the scene first, which leaves what is kept
  have hkeeps₀ : ({ p with scene.entities := .empty } : Progress).Keeps stage.past :=
    ⟨h.keeps.faithful, h.keeps.roster⟩
  obtain ⟨hkeeps₁, hgrow₁, things₁, hscene₁⟩ :=
    hkeeps₀.retireAll horder ht hnodupEntities h.scene.carriesAll_entities hentities
  have hkeeps₁' : ({ p₁ with scene.chunks := .empty } : Progress).Keeps _ :=
    ⟨hkeeps₁.faithful, hkeeps₁.roster⟩
  have hcarriesChunks := h.scene.carriesAll_chunks.close t fun key hkey hentity =>
    hapart key hentity key (List.mem_append_left _ hkey) rfl
  rw [show p.scene.chunks = p₁.scene.chunks by rw [hscene₁]] at hcarriesChunks
  obtain ⟨hkeeps₂, hgrow₂, things₂, hscene₂⟩ :=
    hkeeps₁'.retireAll (horder.close _) ht hnodupChunks hcarriesChunks hchunks
  have hkeeps₂' : ({ p₂ with scene.weather := none } : Progress).Keeps _ :=
    ⟨hkeeps₂.faithful, hkeeps₂.roster⟩
  have hcarriesRain := (h.scene.carriesAll_rain.close t fun key hkey hentity =>
    hapart key hentity key (List.mem_append_right _ hkey) rfl).close t fun key hkey hchunk =>
      hapart' key hchunk key hkey rfl
  rw [show p.scene.weather = p₂.scene.weather by rw [hscene₂, hscene₁]] at hcarriesRain
  rw [endRain_eq] at hrain
  obtain ⟨hkeeps₃, hgrow₃, things₃, hscene₃⟩ :=
    hkeeps₂'.retireAll ((horder.close _).close _) ht hnodupRain hcarriesRain hrain
  rw [← Stage.close_append, ← Stage.close_append] at hkeeps₃
  refine ⟨_, h.scene.cover, hkeeps₃, (hgrow₁.trans hgrow₂).trans hgrow₃, things₃, ?_, ?_⟩
  · rw [hscene₃, hscene₂, hscene₁]
  · rw [hscene₃, hscene₂, hscene₁]

end Progress

end Playhead
