import Playhead.Packet.Basic
import Playhead.Wire.Text

/-!
# The wire form of packets

Every record is the sequence of its fields, and a packet is its tag and the fields of its variant
(`Playhead.Packet.codec`). Numbers of entities, kinds, teleports and of the view are of variable
width; coordinates of chunks, the height of a dimension and the player's own number are of fixed
width.
-/

namespace Playhead

open Wire (Codec Fault Variant)

/-- Three coordinates and two angles. -/
def Location.codec : Codec Fault Location :=
  (Wire.f64.pair (Wire.f64.pair (Wire.f64.pair (Wire.f32.pair Wire.f32)))).iso
    (fun v => ⟨v.1, v.2.1, v.2.2.1, v.2.2.2.1, v.2.2.2.2⟩)
    (fun l => (l.x, l.y, l.z, l.yaw, l.pitch))

/-- Sixteen bytes. -/
def Uuid.codec : Codec Fault Uuid :=
  (Wire.u64.pair Wire.u64).iso (fun v => ⟨v.1, v.2⟩) (fun u => (u.high, u.low))

/-- The settings of a session, field by field. -/
def JoinSettings.codec : Codec Fault JoinSettings :=
  (Wire.i32.pair (Wire.bool.pair (Wire.varint.pair (Wire.varint.pair Wire.byteRun)))).iso
    (fun v => ⟨v.1, v.2.1, v.2.2.1, v.2.2.2.1, v.2.2.2.2⟩)
    (fun s => (s.entity, s.hardcore, s.maxPlayers, s.viewDistance, s.registry))

/-- The description of a dimension, field by field. -/
def Dimension.codec : Codec Fault Dimension :=
  (Wire.text.pair (Wire.i64.pair (Wire.u8.pair (Wire.bool.pair Wire.i32)))).iso
    (fun v => ⟨v.1, v.2.1, v.2.2.1, v.2.2.2.1, v.2.2.2.2⟩)
    (fun d => (d.name, d.hashedSeed, d.gameMode, d.flat, d.minY))

namespace Packet

/-- The variants of packets in the order of their tags. -/
def variants : List (Variant Packet) := [
  { Payload := JoinSettings × Dimension
    codec := JoinSettings.codec.pair Dimension.codec
    inject := fun v => joinGame v.1 v.2
    project := fun | joinGame settings dimension => some (settings, dimension) | _ => none },
  { Payload := Dimension
    codec := Dimension.codec
    inject := respawn
    project := fun | respawn dimension => some dimension | _ => none },
  { Payload := Location × Int32
    codec := Location.codec.pair Wire.varint
    inject := fun v => playerPosition v.1 v.2
    project := fun | playerPosition location teleport => some (location, teleport) | _ => none },
  { Payload := Int32 × Uuid × Int32 × Location
    codec := Wire.varint.pair (Uuid.codec.pair (Wire.varint.pair Location.codec))
    inject := fun v => spawnEntity v.1 v.2.1 v.2.2.1 v.2.2.2
    project := fun
      | spawnEntity entity uuid kind location => some (entity, uuid, kind, location)
      | _ => none },
  { Payload := Int32 × Location × Bool
    codec := Wire.varint.pair (Location.codec.pair Wire.bool)
    inject := fun v => teleportEntity v.1 v.2.1 v.2.2
    project := fun
      | teleportEntity entity location onGround => some (entity, location, onGround)
      | _ => none },
  { Payload := List Int32
    codec := Wire.listOf Wire.varint
    inject := removeEntities
    project := fun | removeEntities entities => some entities | _ => none },
  { Payload := Int32 × Int32 × Bytes
    codec := Wire.i32.pair (Wire.i32.pair Wire.byteRun)
    inject := fun v => chunkData v.1 v.2.1 v.2.2
    project := fun | chunkData x z data => some (x, z, data) | _ => none },
  { Payload := Int32 × Int32
    codec := Wire.i32.pair Wire.i32
    inject := fun v => unloadChunk v.1 v.2
    project := fun | unloadChunk x z => some (x, z) | _ => none },
  { Payload := Position × BlockState
    codec := Position.codec.pair Wire.varint
    inject := fun v => blockUpdate v.1 v.2
    project := fun | blockUpdate position state => some (position, state) | _ => none },
  { Payload := UInt8 × Float32Bits
    codec := Wire.u8.pair Wire.f32
    inject := fun v => gameEvent v.1 v.2
    project := fun | gameEvent event value => some (event, value) | _ => none },
  { Payload := Int64 × Int64
    codec := Wire.i64.pair Wire.i64
    inject := fun v => setTime v.1 v.2
    project := fun | setTime worldAge timeOfDay => some (worldAge, timeOfDay) | _ => none },
  { Payload := Int32 × Int32
    codec := Wire.varint.pair Wire.varint
    inject := fun v => setViewCenter v.1 v.2
    project := fun | setViewCenter x z => some (x, z) | _ => none },
  { Payload := Int32
    codec := Wire.varint
    inject := setViewDistance
    project := fun | setViewDistance distance => some distance | _ => none },
  { Payload := UInt8 × Bool
    codec := Wire.u8.pair Wire.bool
    inject := fun v => changeDifficulty v.1 v.2
    project := fun | changeDifficulty difficulty locked => some (difficulty, locked) | _ => none },
  { Payload := Int32 × Bytes
    codec := Wire.varint.pair Wire.byteRun
    inject := fun v => foreign v.1 v.2
    project := fun | foreign id data => some (id, data) | _ => none }]

/-- A packet behind its tag. -/
def codec : Codec Fault Packet :=
  Wire.oneOf variants

end Packet

end Playhead
