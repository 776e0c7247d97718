import Playhead.Column.Basic
import Playhead.Indexer.Basic

/-!
# What a client shows

A model of the client: what it shows after a stream of packets (`Playhead.Client.apply`). It is the
yardstick of seeking – after a seek the client should show what it would show after all packets
recorded up to then. `Playhead.Client.agrees` compares two clients: blocks and biomes by content,
and floating-point numbers as numbers, so that a NaN agrees with nothing and the two zeros agree.
-/

namespace Playhead

/-! ### Comparing bit patterns as numbers -/

/-- Whether two single-precision bit patterns are equal as numbers. -/
def Float32Bits.agrees (a b : Float32Bits) : Bool :=
  let magnitude (v : Float32Bits) := v &&& 0x7FFFFFFF
  let isNumber (v : Float32Bits) := magnitude v ≤ 0x7F800000
  isNumber a && isNumber b && (a == b || (magnitude a == 0 && magnitude b == 0))

/-- Whether two double-precision bit patterns are equal as numbers. -/
def Float64Bits.agrees (a b : Float64Bits) : Bool :=
  let magnitude (v : Float64Bits) := v &&& 0x7FFFFFFFFFFFFFFF
  let isNumber (v : Float64Bits) := magnitude v ≤ 0x7FF0000000000000
  isNumber a && isNumber b && (a == b || (magnitude a == 0 && magnitude b == 0))

/-- Whether two places have equal coordinates and angles. -/
def Location.agrees (a b : Location) : Bool :=
  Float64Bits.agrees a.x b.x && Float64Bits.agrees a.y b.y && Float64Bits.agrees a.z b.z &&
    Float32Bits.agrees a.yaw b.yaw && Float32Bits.agrees a.pitch b.pitch

/-! ### The client -/

/-- An entity as the client shows it. -/
structure ShownEntity where
  uuid : Uuid
  kind : Int32
  location : Location
  deriving DecidableEq, Repr

/-- What a client shows. -/
structure Client where
  join : Option JoinSettings
  dimension : Option Dimension
  entities : SortedMap Int32 ShownEntity
  chunks : SortedMap (Int32 × Int32) Column
  raining : Bool
  rainLevel : Float32Bits
  thunderLevel : Float32Bits
  worldAge : Int64
  timeOfDay : Int64
  viewCenter : Int32 × Int32
  viewDistance : Int32
  corrections : SortedMap CorrectionSlot Packet

namespace Client

/-- A client that has not received anything. -/
def blank : Client where
  join := none
  dimension := none
  entities := .empty
  chunks := .empty
  raining := false
  rainLevel := 0
  thunderLevel := 0
  worldAge := 0
  timeOfDay := 0
  viewCenter := (0, 0)
  viewDistance := 0
  corrections := .empty

/-- The lowest height of the dimension; zero before there is one. -/
def minY (client : Client) : Int32 := (client.dimension.map (·.minY)).getD 0

/-- The client in another dimension: entities, chunks and weather are forgotten. -/
def respawn (client : Client) (dimension : Dimension) : Client :=
  { client with
    dimension := some dimension
    entities := .empty
    chunks := .empty
    raining := false
    rainLevel := 0
    thunderLevel := 0 }

/-- The client after a game event. A strength of rain counts only while it rains. -/
def gameEvent (client : Client) (event : UInt8) (value : Float32Bits) : Client :=
  if event = GameEvent.rainBegins then { client with raining := true, rainLevel := 0 }
  else if event = GameEvent.rainEnds then { client with raining := false, rainLevel := 0 }
  else if event = GameEvent.rainLevel then
    if client.raining then { client with rainLevel := value } else client
  else if event = GameEvent.thunderLevel then { client with thunderLevel := value }
  else client

/-- The client after one more packet. A chunk that cannot be read is ignored. -/
def apply (client : Client) (packet : Packet) : Client :=
  match packet with
  | .joinGame settings dimension =>
    { blank with
      join := some settings
      dimension := some dimension
      viewDistance := settings.viewDistance }
  | .respawn dimension => client.respawn dimension
  | .playerPosition .. => client
  | .spawnEntity id uuid kind location =>
    { client with entities := client.entities.insert id ⟨uuid, kind, location⟩ }
  | .teleportEntity id location _ =>
    { client with entities := client.entities.modify id fun e => { e with location } }
  | .removeEntities ids =>
    { client with entities := ids.foldl (fun entities id => entities.erase id) client.entities }
  | .chunkData x z data =>
    match Column.decode data with
    | .ok column => { client with chunks := client.chunks.insert (x, z) column }
    | .error _ => client
  | .unloadChunk x z => { client with chunks := client.chunks.erase (x, z) }
  | .blockUpdate position state =>
    { client with
      chunks := client.chunks.modify position.chunk fun c =>
        c.setBlock client.minY position state }
  | .gameEvent event value => client.gameEvent event value
  | .setTime worldAge timeOfDay => { client with worldAge, timeOfDay }
  | .setViewCenter x z => { client with viewCenter := (x, z) }
  | .setViewDistance distance => { client with viewDistance := distance }
  | .changeDifficulty difficulty locked =>
    { client with
      corrections := client.corrections.insert .difficulty (.changeDifficulty difficulty locked) }
  | .foreign id data =>
    { client with corrections := client.corrections.insert (.foreign id) (.foreign id data) }

/-- The client after a stream of packets. -/
def applyAll (client : Client) (packets : List Packet) : Client :=
  packets.foldl apply client

/-- Whether two maps have the same keys and values that agree. -/
def mapsAgree {K V : Type} [KeyOrder K] [DecidableEq K] (agree : V → V → Bool)
    (m n : SortedMap K V) : Bool :=
  m.size = n.size && (m.entries.zip n.entries).all fun (a, b) => a.1 = b.1 && agree a.2 b.2

/-- Whether two clients show the same. -/
def agrees (a b : Client) : Bool :=
  a.join = b.join && a.dimension = b.dimension &&
    mapsAgree (fun e f => e.uuid = f.uuid && e.kind = f.kind && e.location.agrees f.location)
      a.entities b.entities &&
    mapsAgree Column.same a.chunks b.chunks &&
    a.raining = b.raining && Float32Bits.agrees a.rainLevel b.rainLevel &&
    Float32Bits.agrees a.thunderLevel b.thunderLevel &&
    a.worldAge = b.worldAge && a.timeOfDay = b.timeOfDay &&
    a.viewCenter = b.viewCenter && a.viewDistance = b.viewDistance &&
    mapsAgree (fun p q => p = q) a.corrections b.corrections

end Client

end Playhead
