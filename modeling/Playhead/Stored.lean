import Playhead.Failure
import Playhead.Packet.Codec
import Playhead.Wire.Frame

/-!
# The stored forms of values

What a timeline or a record holds is stored as on the wire, with one difference: a packet is put
into a frame of its own, compressed as the log says that it is written to. Reading does not depend
on that.
-/

namespace Playhead.Stored

open Wire (Codec)

/-- A strength of rain. -/
def level : Codec Failure Float32Bits := Wire.f32.mapError .wire

/-- A place of an entity. -/
def location : Codec Failure Location := Location.codec.mapError .wire

/-- Block changes in order. -/
def changes : Codec Failure (List BlockChange) := (Wire.listOf BlockChange.codec).mapError .wire

/-- A packet in its frame. -/
def packet (compression : Option Compression) : Codec Failure Packet :=
  (Wire.framed compression Packet.codec).mapError .wire

/-- Packets, each in its frame. -/
def packets (compression : Option Compression) : Codec Failure (List Packet) :=
  (Wire.listOf (Wire.framed compression Packet.codec)).mapError .wire

/-- A handle: eight bytes. -/
def handle : Codec Wire.Fault Handle := Wire.fixedWidth 8

end Playhead.Stored
