import Playhead.Column.Packed
import Playhead.Wire.Text

/-!
# Paletted containers

A container is an array of ids in one of three forms:

* **single** – one id for all entries;
* **indirect** – a palette of ids, and for each entry the index of its id in the palette;
* **direct** – the ids themselves.

Which widths mean which form, and where a growing container passes from one to the next, is its
`Playhead.ContainerKind`. The array view is `Playhead.Container.get`, and two containers are equal
as arrays (`Playhead.Container.same`) whatever their forms. `Playhead.Container.set` changes form
when it has to: single becomes indirect at the first other id, a full palette is widened, and one
that cannot be widened any more gives way to direct ids.
-/

namespace Playhead

open Wire (Fault)

/-- The shape of a container. -/
structure ContainerKind where
  entries : Nat
  /-- The least width of the indirect form when it is chosen here. -/
  minBits : Nat
  /-- The greatest width of the indirect form. -/
  maxIndirectBits : Nat
  /-- The width of the direct form when it is chosen here. -/
  globalBits : Nat
  deriving DecidableEq, Repr

namespace ContainerKind

/-- Block states: 16 × 16 × 16 of them. -/
def blocks : ContainerKind := ⟨4096, 4, 8, 15⟩

/-- Biomes: 4 × 4 × 4 of them. -/
def biomes : ContainerKind := ⟨64, 1, 3, 6⟩

end ContainerKind

/-- The form in which ids are stored. -/
inductive Packing where
  | single (id : Int32)
  | indirect (palette : Array Int32) (slots : PackedArray)
  | direct (ids : PackedArray)
  deriving DecidableEq, Repr

/-- An array of ids. -/
structure Container where
  kind : ContainerKind
  packing : Packing
  deriving Repr

/-- The least width that tells `n` values apart. -/
def bitsFor (n : Nat) : Nat :=
  if n ≤ 1 then 0 else Nat.log2 (n - 1) + 1

/-- An id as an entry of a packed array: its two's complement. -/
def idToEntry (id : Int32) : UInt64 := id.toInt64.toUInt64

/-- An entry of a packed array as an id: its lowest 32 bits. -/
def entryToId (entry : UInt64) : Int32 := entry.toUInt32.toInt32

namespace Container

/-- A container with one id everywhere. -/
def single (kind : ContainerKind) (id : Int32) : Container :=
  ⟨kind, .single id⟩

/-- The id at an index. -/
def get (c : Container) (i : Nat) : Int32 :=
  match c.packing with
  | .single id => id
  | .indirect palette slots => palette.getD (slots.get i).toNat 0
  | .direct ids => entryToId (ids.get i)

/-- All ids in order. -/
def toList (c : Container) : List Int32 :=
  (List.range c.kind.entries).map c.get

/-- Whether two containers are the same array. -/
def same (c d : Container) : Bool :=
  c.kind = d.kind && (List.range c.kind.entries).all fun i => c.get i == d.get i

/-- The packing in which entry `i` has become `id`, an id that is not there yet. -/
def store (kind : ContainerKind) (i : Nat) (id : Int32) : Packing → Packing
  | .single current =>
    .indirect #[current, id] ((PackedArray.zeros (max kind.minBits 1) kind.entries).set i 1)
  | .indirect palette slots =>
    match palette.idxOf? id with
    | some slot => .indirect palette (slots.set i (UInt64.ofNat slot))
    | none =>
      if palette.size < Nat.pow 2 slots.bits then
        .indirect (palette.push id) (slots.set i (UInt64.ofNat palette.size))
      else
        let bits := max (bitsFor (palette.size + 1)) kind.minBits
        if bits ≤ kind.maxIndirectBits then
          .indirect (palette.push id) ((slots.resized bits).set i (UInt64.ofNat palette.size))
        else
          .direct ((PackedArray.tabulate kind.globalBits kind.entries fun j =>
            idToEntry (palette.getD (slots.get j).toNat 0)).set i (idToEntry id))
  | .direct ids => .direct (ids.set i (idToEntry id))

/-- The container with the id at an index replaced. -/
def set (c : Container) (i : Nat) (id : Int32) : Container :=
  if c.get i = id then c else { c with packing := store c.kind i id c.packing }

/-- The id at an index, and the container in which another one has taken its place. -/
def exchange (c : Container) (i : Nat) (id : Int32) : Int32 × Container :=
  (c.get i, c.set i id)

/-! ### The wire form -/

/-- The bytes of a packing: the width, then what the form needs. -/
def encode (c : Container) : Except Failure Bytes :=
  match c.packing with
  | .single id => do
    let front ← (Wire.varint.encode id).mapError .wire
    return 0 :: front
  | .indirect palette slots => do
    let ids ← ((Wire.listOf Wire.varint).encode palette.toList).mapError .wire
    return UInt8.ofNat slots.bits :: (ids ++ slots.encode)
  | .direct ids => return UInt8.ofNat ids.bits :: ids.encode

/-- A palette and the slots of an indirect container of the given width. Every slot has to be in
the palette. -/
def decodeIndirect (kind : ContainerKind) (bits : Nat) (bytes : Bytes) :
    Except Failure (Packing × Bytes) := do
  let (size, rest) ← (Wire.length.decode bytes).mapError .wire
  if size = 0 ∨ Nat.pow 2 bits < size then .error (.malformedColumn .paletteSize)
  else
    let (ids, rest) ← (Wire.varint.decodeMany size [] rest).mapError .wire
    let palette := ids.toArray
    let (slots, rest) ← PackedArray.decode bits kind.entries rest
    if (List.range kind.entries).all fun i => (slots.get i).toNat < palette.size then
      return (.indirect palette slots, rest)
    else .error (.malformedColumn .paletteIndex)

/-- The packing at the start of a byte string. Its first byte is the width: none for a single id,
up to `maxIndirectBits` for a palette, up to 32 for direct ids. -/
def decodePacking (kind : ContainerKind) : Bytes → Except Failure (Packing × Bytes)
  | [] => .error .endOfInput
  | width :: rest =>
    let bits := width.toNat
    if bits = 0 then do
      let (id, rest) ← (Wire.varint.decode rest).mapError .wire
      return (.single id, rest)
    else if bits ≤ kind.maxIndirectBits then decodeIndirect kind bits rest
    else if bits ≤ 32 then do
      let (ids, rest) ← PackedArray.decode bits kind.entries rest
      return (.direct ids, rest)
    else .error (.malformedColumn .entryWidth)

/-- The container of a given kind at the start of a byte string, and the bytes after it. -/
def decode (kind : ContainerKind) (bytes : Bytes) : Except Failure (Container × Bytes) := do
  let (packing, rest) ← decodePacking kind bytes
  return (⟨kind, packing⟩, rest)

end Container

end Playhead
