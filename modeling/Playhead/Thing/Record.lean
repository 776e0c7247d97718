import Playhead.Stored

/-!
# Things and their records

A thing is an object with a lifetime inside one world: an entity, a chunk, or rain. Its record in
the log has the lifetime `[spawn, despawn)`, the packets that make it appear and disappear, and the
handle of the track of what happens to it in between. Reading a record refuses an empty lifetime
before it looks at anything else.
-/

namespace Playhead

open Wire (Codec)

/-- The kinds of things, in the order of their numbers. -/
inductive ThingKind where
  | entity
  | chunk
  | weather
  deriving DecidableEq, Repr

namespace ThingKind

/-- The number of a kind. -/
def number : ThingKind → UInt8
  | entity => 0
  | chunk => 1
  | weather => 2

/-- The kind with a number. -/
def ofNumber (n : UInt8) : Except Failure ThingKind :=
  if n = 0 then .ok entity
  else if n = 1 then .ok chunk
  else if n = 2 then .ok weather
  else .error (.unknownThingKind n)

/-- The name of a kind. -/
def name : ThingKind → String
  | entity => "Entity"
  | chunk => "Chunk"
  | weather => "Weather"

end ThingKind

/-- What a thing is, beyond its lifetime. -/
inductive ThingKey where
  | entity (id : Int32)
  | chunk (x z : Int32)
  | weather
  deriving DecidableEq, Repr

namespace ThingKey

/-- The kind of a thing. -/
def kind : ThingKey → ThingKind
  | entity _ => .entity
  | chunk _ _ => .chunk
  | weather => .weather

/-- A key as the number of its kind and its coordinates, all of fixed width. -/
def codec : Codec Failure ThingKey where
  encode key := do
    let front ← (Wire.u8.encode key.kind.number).mapError .wire
    let back ← match key with
      | entity id => (Wire.i32.encode id).mapError .wire
      | chunk x z => ((Wire.i32.pair Wire.i32).encode (x, z)).mapError .wire
      | weather => .ok []
    return front ++ back
  decode bytes := do
    let (number, rest) ← (Wire.u8.decode bytes).mapError Failure.wire
    match ← ThingKind.ofNumber number with
    | .entity =>
      let (id, rest) ← (Wire.i32.decode rest).mapError Failure.wire
      return (entity id, rest)
    | .chunk =>
      let ((x, z), rest) ← ((Wire.i32.pair Wire.i32).decode rest).mapError Failure.wire
      return (chunk x z, rest)
    | .weather => return (weather, rest)

end ThingKey

/-- A thing as it is stored. -/
structure ThingRecord where
  spawn : Time
  despawn : Time
  key : ThingKey
  spawnPackets : List Packet
  despawnPackets : List Packet
  /-- The track of what happens to the thing while it lives. -/
  inner : Handle
  deriving DecidableEq, Repr

namespace ThingRecord

/-- Whether a thing lives at a moment. -/
def AliveAt (r : ThingRecord) (t : Time) : Prop := r.spawn ≤ t ∧ t < r.despawn

instance (r : ThingRecord) (t : Time) : Decidable (r.AliveAt t) :=
  inferInstanceAs (Decidable (_ ∧ _))

/-- What a record holds after the lifetime. -/
def bodyCodec (compression : Option Compression) :
    Codec Failure (ThingKey × List Packet × List Packet × Handle) :=
  ThingKey.codec.pair ((Stored.packets compression).pair
    ((Stored.packets compression).pair (Stored.handle.mapError .wire)))

/-- A record: the lifetime, the key, the packets, the handle. -/
def codec (compression : Option Compression) : Codec Failure ThingRecord where
  encode r := do
    let lifetime ← ((Wire.varlong.pair Wire.varlong).encode
      (Int64.ofInt r.spawn, Int64.ofInt r.despawn)).mapError .wire
    let body ← (bodyCodec compression).encode (r.key, r.spawnPackets, r.despawnPackets, r.inner)
    return lifetime ++ body
  decode bytes := do
    let ((spawn, despawn), rest) ←
      ((Wire.varlong.pair Wire.varlong).decode bytes).mapError Failure.wire
    if despawn ≤ spawn then .error (.invalidInterval spawn.toInt despawn.toInt)
    else
      let ((key, spawnPackets, despawnPackets, inner), rest) ← (bodyCodec compression).decode rest
      return (⟨spawn.toInt, despawn.toInt, key, spawnPackets, despawnPackets, inner⟩, rest)

end ThingRecord

end Playhead
