import Playhead.Wire.Text
import Playhead.Zlib.Inflate

/-!
# Frames

A frame carries a payload, as it is or compressed. It starts with a number whose low bit says
which and whose other bits give the length of the stored form:

* **plain**: `length * 2`, then the payload;
* **compressed**: `length * 2 + 1`, the length of the payload, then a compressed stream.

The format of compressed streams is fixed, but not how a payload is turned into one. So a compressor
is a parameter, with the law that its streams unpack to the payload (`Playhead.Compression`), and
reading does not depend on it. A payload is compressed when there is a compression and the payload
is long enough (`Playhead.Wire.Frame.compressionOf`).

`Playhead.Wire.framed` puts the values of a codec into frames. Its reader insists that the value
takes up the whole payload.
-/

namespace Playhead

/-- A way to compress payloads. -/
structure Compression where
  /-- The length from which on payloads are compressed. -/
  limit : Nat
  deflate : Bytes → Bytes
  /-- What is compressed unpacks to the payload. -/
  inflate_deflate : ∀ payload, Zlib.inflate (deflate payload) = .ok payload

namespace Wire

namespace Frame

/-- The compression that a payload takes; none if the payload is too short. -/
def compressionOf (compression : Option Compression) (payload : Bytes) : Option Compression :=
  compression.filter fun c => c.limit ≤ payload.length

/-- The frame of a payload. -/
def encode (compression : Option Compression) (payload : Bytes) : Except Fault Bytes :=
  match compressionOf compression payload with
  | some c => do
    let stored := c.deflate payload
    let lead ← length.encode (stored.length * 2 + 1)
    let size ← length.encode payload.length
    return lead ++ size ++ stored
  | none => do
    let lead ← length.encode (payload.length * 2)
    return lead ++ payload

/-- What a frame says before its body: the length of the body, and the length of the payload if the
body is compressed. -/
structure Header where
  stored : Nat
  unpacked : Option Nat
  deriving DecidableEq, Repr

/-- The header at the start of a frame, and the bytes after it. -/
def decodeHeader (bytes : Bytes) : Except Fault (Header × Bytes) := do
  let (lead, rest) ← length.decode bytes
  if lead % 2 = 1 then
    let (size, rest) ← length.decode rest
    return (⟨lead / 2, some size⟩, rest)
  else return (⟨lead / 2, none⟩, rest)

/-- The payload of a frame from its body. -/
def unpack (header : Header) (body : Bytes) : Except Fault Bytes :=
  match header.unpacked with
  | none => .ok body
  | some size => do
    let payload ← Zlib.inflate body
    if payload.length = size then return payload
    else .error (.lengthMismatch size payload.length)

/-- The payload of the frame at the start of a byte string, and the bytes after the frame. -/
def decode (bytes : Bytes) : Except Fault (Bytes × Bytes) := do
  let (header, rest) ← decodeHeader bytes
  let (body, rest) ← takeRun header.stored rest
  let payload ← unpack header body
  return (payload, rest)

/-- All frames of a byte string, up to its end or to the first frame that cannot be read. -/
def decodeAll (bytes : Bytes) : List Bytes × Option Fault :=
  if bytes = [] then ([], none)
  else
    match decode bytes with
    | .error fault => ([], some fault)
    | .ok (payload, rest) =>
      if rest.length < bytes.length then
        let (payloads, fault) := decodeAll rest
        (payload :: payloads, fault)
      else ([payload], none)
termination_by bytes.length

end Frame

/-- A value in a frame of its own. -/
def framed {α : Type} (compression : Option Compression) (codec : Codec Fault α) :
    Codec Fault α where
  encode v := do
    let payload ← codec.encode v
    Frame.encode compression payload
  decode bytes := do
    let (payload, rest) ← Frame.decode bytes
    let (v, left) ← codec.decode payload
    if left.isEmpty then return (v, rest)
    else .error (.lengthMismatch (payload.length - left.length) payload.length)

end Wire

end Playhead
