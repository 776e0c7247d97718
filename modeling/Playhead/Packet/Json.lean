import Playhead.Json.Record
import Playhead.Packet.Basic

/-!
# Packets in JSON

A packet is an object with one member, whose key is the packet's name (`Playhead.Packet.ofJson?`).
Numbers and identifiers are plain numbers, byte strings are lists of bytes.
-/

namespace Playhead

open Json

/-- A position by its coordinates. -/
def Position.ofJson? (v : Value) : Option Position := do
  let [x, y, z] ← fields? ["x", "y", "z"] v | none
  return ⟨← i32? x, ← i16? y, ← i32? z⟩

/-- A place by its coordinates and angles. -/
def Location.ofJson? (v : Value) : Option Location := do
  let [x, y, z, yaw, pitch] ← fields? ["x", "y", "z", "yaw", "pitch"] v | none
  return ⟨← f64? x, ← f64? y, ← f64? z, ← f32? yaw, ← f32? pitch⟩

/-- An identifier by its number. -/
def Uuid.ofJson? (v : Value) : Option Uuid :=
  (naturalBelow? (UInt64.size * UInt64.size) v).map Uuid.ofNat

/-- The settings of a join. -/
def JoinSettings.ofJson? (v : Value) : Option JoinSettings := do
  let [entity, hardcore, maxPlayers, viewDistance, registry] ←
    fields? ["entity_id", "hardcore", "max_players", "view_distance", "registry"] v | none
  return ⟨← i32? entity, ← bool? hardcore, ← i32? maxPlayers, ← i32? viewDistance,
    ← bytes? registry⟩

/-- The description of a dimension. -/
def Dimension.ofJson? (v : Value) : Option Dimension := do
  let [name, hashedSeed, gameMode, flat, minY] ←
    fields? ["dimension", "hashed_seed", "game_mode", "flat", "min_y"] v | none
  return ⟨← text? name, ← i64? hashedSeed, ← u8? gameMode, ← bool? flat, ← i32? minY⟩

namespace Packet

/-- The packet of a given name. -/
def ofNamed? (name : String) (body : Value) : Option Packet :=
  match name with
  | "JoinGame" => do
    let [settings, dimension] ← fields? ["settings", "respawn"] body | none
    return joinGame (← JoinSettings.ofJson? settings) (← Dimension.ofJson? dimension)
  | "Respawn" => (Dimension.ofJson? body).map respawn
  | "PlayerPosition" => do
    let [location, teleport] ← fields? ["location", "teleport_id"] body | none
    return playerPosition (← Location.ofJson? location) (← i32? teleport)
  | "SpawnEntity" => do
    let [entity, uuid, kind, location] ← fields? ["entity_id", "uuid", "kind", "location"] body
      | none
    return spawnEntity (← i32? entity) (← Uuid.ofJson? uuid) (← i32? kind)
      (← Location.ofJson? location)
  | "TeleportEntity" => do
    let [entity, location, onGround] ← fields? ["entity_id", "location", "on_ground"] body | none
    return teleportEntity (← i32? entity) (← Location.ofJson? location) (← bool? onGround)
  | "RemoveEntities" => do
    let [entities] ← fields? ["entity_ids"] body | none
    return removeEntities (← list? i32? entities)
  | "ChunkData" => do
    let [x, z, data] ← fields? ["x", "z", "data"] body | none
    return chunkData (← i32? x) (← i32? z) (← bytes? data)
  | "UnloadChunk" => do
    let [x, z] ← fields? ["x", "z"] body | none
    return unloadChunk (← i32? x) (← i32? z)
  | "BlockUpdate" => do
    let [position, state] ← fields? ["position", "state"] body | none
    return blockUpdate (← Position.ofJson? position) (← i32? state)
  | "GameEvent" => do
    let [event, value] ← fields? ["event", "value"] body | none
    return gameEvent (← u8? event) (← f32? value)
  | "SetTime" => do
    let [worldAge, timeOfDay] ← fields? ["world_age", "time_of_day"] body | none
    return setTime (← i64? worldAge) (← i64? timeOfDay)
  | "SetChunkCacheCenter" => do
    let [x, z] ← fields? ["x", "z"] body | none
    return setViewCenter (← i32? x) (← i32? z)
  | "SetChunkCacheRadius" => do
    let [distance] ← fields? ["distance"] body | none
    return setViewDistance (← i32? distance)
  | "ChangeDifficulty" => do
    let [difficulty, locked] ← fields? ["difficulty", "locked"] body | none
    return changeDifficulty (← u8? difficulty) (← bool? locked)
  | "Opaque" => do
    let [id, data] ← fields? ["id", "data"] body | none
    return foreign (← i32? id) (← bytes? data)
  | _ => none

/-- The packet that a value describes. -/
def ofJson? (v : Value) : Option Packet := do
  let (name, body) ← variant? v
  ofNamed? name body

/-- The packet that a text describes. -/
def ofText? (text : String) : Option Packet := do
  ofJson? (← Value.ofText? text)

end Packet

end Playhead
