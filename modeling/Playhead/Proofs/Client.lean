import Mathlib.Logic.Function.Basic
import Playhead.Client
import Playhead.Proofs.Column.Diff
import Playhead.Proofs.SortedMap
import Playhead.Thing.Record

/-!
# What a client shows, thing by thing

What a client shows falls in two: the things, each under its key (`Playhead.Client.look`), and
everything else (`Playhead.Client.bare`). A packet about a thing replaces what is shown under that
key, and leaves the other keys and everything else alone; there is one law for each packet.

Two clients show the same when both halves are equal (`Playhead.Client.Alike`), as long as their
columns are sound, and then they agree field by field (`Playhead.Client.Alike.sameScene`).
-/

namespace Playhead

/-- What is shown of a thing. -/
inductive Figure where
  | entity (shown : ShownEntity)
  | chunk (content : Content)
  | rain (level : Float32Bits)

namespace Figure

/-- An entity at another place. -/
def moved (location : Location) : Figure → Figure
  | entity shown => entity { shown with location }
  | figure => figure

/-- A chunk with a block replaced. -/
def withBlock (minY : Int32) (p : Position) (state : BlockState) : Figure → Figure
  | chunk content => chunk (content.setBlock minY p state)
  | figure => figure

/-- Rain of another strength. -/
def withLevel (level : Float32Bits) : Figure → Figure
  | rain _ => rain level
  | figure => figure

end Figure

namespace Packet

/-- Whether a packet is about a thing: an entity, a chunk or rain. -/
def IsOfThing : Packet → Prop
  | spawnEntity .. | teleportEntity .. | removeEntities .. | chunkData .. | unloadChunk ..
  | blockUpdate .. => True
  | gameEvent event _ => event ≠ GameEvent.thunderLevel
  | _ => False

theorem isOfThing_beginRain : beginRain.IsOfThing := show GameEvent.rainBegins ≠ _ by decide

theorem isOfThing_endRain : endRain.IsOfThing := show GameEvent.rainEnds ≠ _ by decide

theorem isOfThing_rainLevel (level : Float32Bits) : (rainLevel level).IsOfThing :=
  show GameEvent.rainLevel ≠ GameEvent.thunderLevel by decide

/-- Whether a packet brings the client into a world. -/
def IsEntrance : Packet → Prop
  | joinGame .. | respawn .. => True
  | _ => False

/-- Whether the blocks that a packet brings are in range. -/
def IsSound : Packet → Prop
  | chunkData _ _ data => ∀ column, Column.decode data = .ok column → column.Sound
  | blockUpdate _ state => IdInRange state
  | _ => True

end Packet

namespace Client

/-- What is shown under a key. -/
def look (client : Client) : ThingKey → Option Figure
  | .entity id => (client.entities.get? id).map .entity
  | .chunk x z => (client.chunks.get? (x, z)).map fun column => .chunk column.content
  | .weather => if client.raining then some (.rain client.rainLevel) else none

/-- The client without any things. -/
def bare (client : Client) : Client :=
  { client with
    entities := .empty
    chunks := .empty
    raining := false
    rainLevel := 0 }

/-- A client whose columns are sound, and in which rain has a strength only while it rains. -/
structure Sound (client : Client) : Prop where
  columns : ∀ key column, client.chunks.get? key = some column → column.Sound
  dry : client.raining = false → client.rainLevel = 0

/-- Clients that show the same. -/
structure Alike (a b : Client) : Prop where
  bare : a.bare = b.bare
  look : a.look = b.look

/-- The lowest height is that of the world, so it is the same where the world is. -/
theorem minY_of_bare {a b : Client} (h : a.bare = b.bare) : a.minY = b.minY := by
  have hdimension : a.bare.dimension = b.bare.dimension := by rw [h]
  exact congrArg (fun d => (Option.map Dimension.minY d).getD 0) hdimension

theorem sound_blank : blank.Sound :=
  ⟨fun _ _ h => absurd h (by simp [blank]), fun _ => rfl⟩

/-- Where there are no entities, no chunks and no rain, nothing is to be seen. -/
theorem look_of_empty {client : Client} (he : client.entities = .empty)
    (hc : client.chunks = .empty) (hr : client.raining = false) (key : ThingKey) :
    client.look key = none := by
  cases key with
  | entity id => simp [look, he]
  | chunk x z => simp [look, hc]
  | weather => simp [look, hr]

/-! ### One packet about a thing -/

section Packets

variable (client : Client)

/-- An entity that appears is seen where it appears, and nothing else changes. -/
theorem look_spawnEntity (id : Int32) (uuid : Uuid) (kind : Int32) (location : Location) :
    (client.apply (.spawnEntity id uuid kind location)).look =
      Function.update client.look (.entity id) (some (.entity ⟨uuid, kind, location⟩)) := by
  funext key
  cases key with
  | entity id' =>
    simp only [apply, look, SortedMap.get?_insert, Function.update_apply, ThingKey.entity.injEq]
    split <;> rfl
  | chunk x z => rfl
  | weather => rfl

/-- An entity that moves is seen elsewhere, if it is seen at all. -/
theorem look_teleportEntity (id : Int32) (location : Location) (onGround : Bool) :
    (client.apply (.teleportEntity id location onGround)).look =
      Function.update client.look (.entity id)
        ((client.look (.entity id)).map (Figure.moved location)) := by
  funext key
  cases key with
  | entity id' =>
    simp only [apply, look, SortedMap.get?_modify, Function.update_apply, ThingKey.entity.injEq,
      Option.map_map]
    split
    · rw [Option.map_map]
      rfl
    · rfl
  | chunk x z => rfl
  | weather => rfl

/-- What is erased is gone, whatever the order, and the rest is left. -/
theorem get?_foldl_erase {K V : Type} [KeyOrder K] [DecidableEq K] (ks : List K)
    (m : SortedMap K V) (k : K) :
    (ks.foldl (fun m k => m.erase k) m).get? k = if k ∈ ks then none else m.get? k := by
  induction ks generalizing m with
  | nil => simp
  | cons k' ks ih =>
    rw [List.foldl_cons, ih, SortedMap.get?_erase]
    by_cases hk : k ∈ ks
    · simp [hk]
    · by_cases hk' : k = k' <;> simp [hk, hk']

/-- Entities that go are not seen any more. -/
theorem look_removeEntities (ids : List Int32) (key : ThingKey) :
    (client.apply (.removeEntities ids)).look key =
      if ∃ id ∈ ids, key = .entity id then none else client.look key := by
  cases key with
  | entity id =>
    simp only [apply, look, get?_foldl_erase, ThingKey.entity.injEq]
    by_cases h : id ∈ ids <;> simp [h]
  | chunk x z =>
    refine Eq.symm (if_neg ?_)
    rintro ⟨id, -, h⟩
    exact absurd h (by simp)
  | weather =>
    refine Eq.symm (if_neg ?_)
    rintro ⟨id, -, h⟩
    exact absurd h (by simp)

/-- A chunk that is sent is seen with its blocks. -/
theorem look_chunkData {x z : Int32} {data : Bytes} {column : Column}
    (h : Column.decode data = .ok column) :
    (client.apply (.chunkData x z data)).look =
      Function.update client.look (.chunk x z) (some (.chunk column.content)) := by
  funext key
  simp only [apply, h]
  cases key with
  | entity id => rfl
  | chunk x' z' =>
    simp only [look, SortedMap.get?_insert, Function.update_apply, ThingKey.chunk.injEq,
      Prod.mk.injEq]
    split <;> rfl
  | weather => rfl

/-- A chunk that is unloaded is not seen any more. -/
theorem look_unloadChunk (x z : Int32) :
    (client.apply (.unloadChunk x z)).look = Function.update client.look (.chunk x z) none := by
  funext key
  cases key with
  | entity id => rfl
  | chunk x' z' =>
    simp only [apply, look, SortedMap.get?_erase, Function.update_apply, ThingKey.chunk.injEq,
      Prod.mk.injEq]
    split <;> rfl
  | weather => rfl

/-- The key of the chunk of a position. -/
def chunkKey (p : Position) : ThingKey := .chunk p.chunk.1 p.chunk.2

/-- A block that changes is seen in its chunk, if the chunk is seen. -/
theorem look_blockUpdate (h : client.Sound) (p : Position) {state : BlockState}
    (hstate : IdInRange state) :
    (client.apply (.blockUpdate p state)).look =
      Function.update client.look (chunkKey p)
        ((client.look (chunkKey p)).map (Figure.withBlock client.minY p state)) := by
  funext key
  cases key with
  | entity id => rfl
  | chunk x z =>
    simp only [apply, look, chunkKey, SortedMap.get?_modify, Function.update_apply,
      ThingKey.chunk.injEq, Option.map_map]
    by_cases hkey : (x, z) = p.chunk
    · rw [if_pos hkey, if_pos (by simp [← hkey])]
      cases hc : client.chunks.get? p.chunk with
      | none => rfl
      | some column =>
        have hset := (h.columns _ _ hc).content_setBlock client.minY p hstate
        exact congrArg (some ∘ Figure.chunk) hset
    · rw [if_neg hkey, if_neg fun he => hkey (Prod.ext he.1 he.2)]
  | weather => rfl

/-- Rain that begins is seen, without strength yet. -/
theorem look_beginRain : (client.apply .beginRain).look =
    Function.update client.look .weather (some (.rain 0)) := by
  funext key
  cases key with
  | entity id => rfl
  | chunk x z => rfl
  | weather => rfl

/-- Rain that ends is not seen any more. -/
theorem look_endRain : (client.apply .endRain).look =
    Function.update client.look .weather none := by
  funext key
  cases key with
  | entity id => rfl
  | chunk x z => rfl
  | weather => rfl

/-- A strength of rain counts only while it rains. -/
theorem look_rainLevel (level : Float32Bits) : (client.apply (.rainLevel level)).look =
    Function.update client.look .weather
      ((client.look .weather).map (Figure.withLevel level)) := by
  have happly : client.apply (.rainLevel level) =
      if client.raining then { client with rainLevel := level } else client := rfl
  funext key
  rw [happly]
  by_cases hr : client.raining
  · rw [if_pos hr]
    cases key with
    | entity id => rfl
    | chunk x z => rfl
    | weather => simp [look, hr, Figure.withLevel]
  · rw [if_neg hr]
    cases key with
    | entity id => rfl
    | chunk x z => rfl
    | weather => simp [look, hr]

end Packets

/-! ### Everything else -/

/-- **A packet about a thing leaves everything else alone.** -/
theorem bare_apply (client : Client) {packet : Packet} (h : packet.IsOfThing) :
    (client.apply packet).bare = client.bare := by
  cases packet with
  | chunkData x z data =>
    simp only [apply]
    split <;> rfl
  | gameEvent event value =>
    simp only [apply, gameEvent]
    split
    · rfl
    split
    · rfl
    split
    · split <;> rfl
    · rw [if_neg h]
  | spawnEntity | teleportEntity | removeEntities | unloadChunk | blockUpdate => rfl
  | joinGame | respawn | playerPosition | setTime | setViewCenter | setViewDistance
  | changeDifficulty | foreign => exact absurd h id

/-! ### Sound clients stay sound -/

/-- A game event leaves a client that holds together as one that does. -/
theorem Sound.gameEvent {client : Client} (h : client.Sound) (event : UInt8)
    (value : Float32Bits) : (client.gameEvent event value).Sound := by
  rw [Client.gameEvent]
  split
  · exact ⟨h.columns, fun hr => absurd hr (by simp)⟩
  split
  · exact ⟨h.columns, fun _ => rfl⟩
  split
  · split
    · next hr => exact ⟨h.columns, fun hr' => absurd (hr.symm.trans hr') (by simp)⟩
    · exact h
  split
  · exact ⟨h.columns, h.dry⟩
  · exact h

/-- **Packets whose blocks are in range keep a client sound.** -/
theorem Sound.apply {client : Client} (h : client.Sound) {packet : Packet}
    (hp : packet.IsSound) : (client.apply packet).Sound := by
  cases packet with
  | joinGame settings dimension => exact ⟨sound_blank.columns, sound_blank.dry⟩
  | respawn dimension => exact ⟨sound_blank.columns, fun _ => rfl⟩
  | chunkData x z data =>
    simp only [Client.apply]
    split
    · next column hdecode =>
      refine ⟨fun key c hc => ?_, h.dry⟩
      simp only [SortedMap.get?_insert] at hc
      split at hc
      · obtain rfl := Option.some.inj hc
        exact hp _ hdecode
      · exact h.columns key c hc
    · exact h
  | unloadChunk x z =>
    refine ⟨fun key c hc => ?_, h.dry⟩
    simp only [Client.apply, SortedMap.get?_erase] at hc
    split at hc
    · exact absurd hc (by simp)
    · exact h.columns key c hc
  | blockUpdate position state =>
    refine ⟨fun key c hc => ?_, h.dry⟩
    simp only [Client.apply, SortedMap.get?_modify] at hc
    split at hc
    · obtain ⟨c', hc', rfl⟩ := Option.map_eq_some_iff.1 hc
      exact (h.columns _ c' hc').setBlock client.minY position hp
    · exact h.columns key c hc
  | gameEvent event value => exact h.gameEvent event value
  | spawnEntity | teleportEntity | removeEntities | playerPosition | setTime | setViewCenter
  | setViewDistance | changeDifficulty | foreign => exact ⟨h.columns, h.dry⟩

theorem applyAll_append (client : Client) (front back : List Packet) :
    client.applyAll (front ++ back) = (client.applyAll front).applyAll back :=
  List.foldl_append

theorem applyAll_cons (client : Client) (p : Packet) (packets : List Packet) :
    client.applyAll (p :: packets) = (client.apply p).applyAll packets := rfl

/-! ### Clients that show the same -/

/-- Clients that show the same, bit for bit and by content, apart from the corrective packets. -/
structure SameScene (a b : Client) : Prop where
  join : a.join = b.join
  dimension : a.dimension = b.dimension
  entities : a.entities = b.entities
  chunks : mapsAgree Column.same a.chunks b.chunks
  raining : a.raining = b.raining
  rainLevel : a.rainLevel = b.rainLevel
  thunderLevel : a.thunderLevel = b.thunderLevel
  worldAge : a.worldAge = b.worldAge
  timeOfDay : a.timeOfDay = b.timeOfDay
  viewCenter : a.viewCenter = b.viewCenter
  viewDistance : a.viewDistance = b.viewDistance

/-- Clients that show the same in every field. -/
structure Same (a b : Client) : Prop extends SameScene a b where
  corrections : a.corrections = b.corrections

/-- Maps with the same keys and values of equal content agree. -/
theorem mapsAgree_same {m n : SortedMap (Int32 × Int32) Column}
    (hm : ∀ key c, m.get? key = some c → c.Sound) (hn : ∀ key c, n.get? key = some c → c.Sound)
    (h : ∀ key, (m.get? key).map Column.content = (n.get? key).map Column.content) :
    mapsAgree Column.same m n = true := by
  have hmap : m.map (fun _ c => c.content) = n.map fun _ c => c.content :=
    SortedMap.ext_get? fun key => by rw [SortedMap.get?_map, SortedMap.get?_map, h]
  have hentries : m.entries.map (fun e => (e.1, e.2.content)) =
      n.entries.map fun e => (e.1, e.2.content) := congrArg SortedMap.entries hmap
  rw [mapsAgree, Bool.and_eq_true, decide_eq_true_eq]
  refine (Column.all_zip_iff (r := fun a b => a.1 = b.1 && Column.same a.2 b.2)
    fun e he e' he' => ?_).2 hentries
  rw [Bool.and_eq_true, decide_eq_true_eq,
    Column.same_iff (hm _ _ (SortedMap.get?_eq_some_iff.2 he))
      (hn _ _ (SortedMap.get?_eq_some_iff.2 he'))]
  exact ⟨fun h => Prod.ext h.1 h.2, fun h => ⟨(Prod.mk.inj h).1, (Prod.mk.inj h).2⟩⟩

/-- **Sound clients that show the same agree field by field.** -/
theorem Alike.sameScene {a b : Client} (h : a.Alike b) (ha : a.Sound) (hb : b.Sound) :
    a.SameScene b := by
  -- what is not looked up agrees as it stands, and the rest as far as it is looked up
  have hbare : ∀ {α : Type} (f : Client → α), f a.bare = f b.bare := fun f => by rw [h.bare]
  have hlook : ∀ key, a.look key = b.look key := fun key => by rw [h.look]
  have hentities : a.entities = b.entities := SortedMap.ext_get? fun id => by
    have := hlook (.entity id)
    simp only [Client.look] at this
    cases ha : a.entities.get? id <;> cases hb : b.entities.get? id <;> simp_all
  have hchunks : ∀ key, (a.chunks.get? key).map Column.content =
      (b.chunks.get? key).map Column.content := by
    intro key
    obtain ⟨x, z⟩ := key
    have := hlook (.chunk x z)
    simp only [Client.look] at this
    cases ha : a.chunks.get? (x, z) <;> cases hb : b.chunks.get? (x, z) <;> simp_all
  have hrain : a.raining = b.raining ∧ a.rainLevel = b.rainLevel := by
    have := hlook .weather
    simp only [Client.look] at this
    cases hra : a.raining <;> cases hrb : b.raining <;> simp [hra, hrb] at this
    · exact ⟨rfl, (ha.dry hra).trans (hb.dry hrb).symm⟩
    · exact ⟨rfl, this⟩
  exact
    { join := hbare Client.join
      dimension := hbare Client.dimension
      entities := hentities
      chunks := mapsAgree_same ha.columns hb.columns hchunks
      raining := hrain.1
      rainLevel := hrain.2
      thunderLevel := hbare Client.thunderLevel
      worldAge := hbare Client.worldAge
      timeOfDay := hbare Client.timeOfDay
      viewCenter := hbare Client.viewCenter
      viewDistance := hbare Client.viewDistance }

theorem Alike.corrections {a b : Client} (h : a.Alike b) : a.corrections = b.corrections :=
  have hbare : a.bare.corrections = b.bare.corrections := by rw [h.bare]
  hbare

end Client

end Playhead
