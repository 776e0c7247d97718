import Playhead.Position

/-!
# Packets

The packets of a recorded session, as far as this library interprets them; `Packet.foreign` stands
for every other, carried along under its number. The order of the constructors is the order of
their wire tags.

`Playhead.CorrectionSlot` names the slots of **corrective** packets: settings of the whole session
of which only the latest in each slot counts, and which a fresh join wipes.
-/

namespace Playhead

/-- Where an entity or the player is and looks. -/
structure Location where
  x : Float64Bits
  y : Float64Bits
  z : Float64Bits
  yaw : Float32Bits
  pitch : Float32Bits
  deriving DecidableEq, Repr, Inhabited

/-- An identifier of 128 bits. -/
structure Uuid where
  high : UInt64
  low : UInt64
  deriving DecidableEq, Repr, Inhabited

/-- The identifier that a number spells. -/
def Uuid.ofNat (n : Nat) : Uuid where
  high := UInt64.ofNat (n / UInt64.size)
  low := UInt64.ofNat n

/-- What only a full join can change. -/
structure JoinSettings where
  entity : Int32
  hardcore : Bool
  maxPlayers : Int32
  viewDistance : Int32
  /-- Registry data, carried along as it is. -/
  registry : Bytes
  deriving DecidableEq, Repr, Inhabited

/-- What describes a dimension; a respawn changes it. -/
structure Dimension where
  name : String
  hashedSeed : Int64
  gameMode : UInt8
  flat : Bool
  /-- The lowest height at which there are blocks. -/
  minY : Int32
  deriving DecidableEq, Repr, Inhabited

/-- A packet sent to the client. -/
inductive Packet where
  | joinGame (settings : JoinSettings) (dimension : Dimension)
  | respawn (dimension : Dimension)
  | playerPosition (location : Location) (teleport : Int32)
  | spawnEntity (entity : Int32) (uuid : Uuid) (kind : Int32) (location : Location)
  | teleportEntity (entity : Int32) (location : Location) (onGround : Bool)
  | removeEntities (entities : List Int32)
  | chunkData (x z : Int32) (data : Bytes)
  | unloadChunk (x z : Int32)
  | blockUpdate (position : Position) (state : BlockState)
  | gameEvent (event : UInt8) (value : Float32Bits)
  | setTime (worldAge timeOfDay : Int64)
  | setViewCenter (x z : Int32)
  | setViewDistance (distance : Int32)
  | changeDifficulty (difficulty : UInt8) (locked : Bool)
  | foreign (id : Int32) (data : Bytes)
  deriving DecidableEq, Repr, Inhabited

namespace Packet

/-- The name a packet goes by. -/
def name : Packet → String
  | joinGame .. => "JoinGame"
  | respawn .. => "Respawn"
  | playerPosition .. => "PlayerPosition"
  | spawnEntity .. => "SpawnEntity"
  | teleportEntity .. => "TeleportEntity"
  | removeEntities .. => "RemoveEntities"
  | chunkData .. => "ChunkData"
  | unloadChunk .. => "UnloadChunk"
  | blockUpdate .. => "BlockUpdate"
  | gameEvent .. => "GameEvent"
  | setTime .. => "SetTime"
  | setViewCenter .. => "SetChunkCacheCenter"
  | setViewDistance .. => "SetChunkCacheRadius"
  | changeDifficulty .. => "ChangeDifficulty"
  | foreign .. => "Opaque"

/-- The player at the origin, facing south. -/
def neutralPosition : Packet :=
  playerPosition ⟨0, 0, 0, 0, 0⟩ 0

end Packet

/-! ### Game events -/

namespace GameEvent

/-- The event that ends the rain. -/
def rainEnds : UInt8 := 1

/-- The event that begins the rain. -/
def rainBegins : UInt8 := 2

/-- The event that sets the strength of the rain. -/
def rainLevel : UInt8 := 7

/-- The event that sets the strength of the thunder. -/
def thunderLevel : UInt8 := 8

end GameEvent

namespace Packet

/-- The rain begins. -/
def beginRain : Packet := gameEvent GameEvent.rainBegins 0

/-- The rain ends. -/
def endRain : Packet := gameEvent GameEvent.rainEnds 0

/-- The rain has this strength. -/
def rainLevel (level : Float32Bits) : Packet := gameEvent GameEvent.rainLevel level

/-- The thunder has this strength. -/
def thunderLevel (level : Float32Bits) : Packet := gameEvent GameEvent.thunderLevel level

end Packet

end Playhead
