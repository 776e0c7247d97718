import Playhead.Wire.Number
import Playhead.Wire.Varint

/-!
# Block positions and block changes

A block sits at an `(x, y, z)`; chunks are columns of 16 by 16 blocks (`Position.chunk`). On the
wire a position takes one 64-bit word: 26 bits of `x`, 26 bits of `z` and 12 bits of `y`, each in
two's complement. Coordinates outside those ranges lose their high bits, so reading back what was
written needs `Position.Packable`, and reading never gives anything else.
-/

namespace Playhead

/-- The global number of a block state. -/
abbrev BlockState := Int32

/-- The block state of empty space. -/
def BlockState.air : BlockState := 0

/-- The coordinates of a block. -/
structure Position where
  x : Int32
  y : Int16
  z : Int32
  deriving DecidableEq, Repr, Inhabited

/-- A coordinate divided by sixteen, rounded down. -/
def chunkCoordinate (v : Int32) : Int32 :=
  Int32.ofInt (v.toInt / 16)

namespace Position

/-- The column of blocks that a position belongs to. -/
def chunk (p : Position) : Int32 × Int32 :=
  (chunkCoordinate p.x, chunkCoordinate p.z)

/-- The coordinates that survive packing. -/
def Packable (p : Position) : Prop :=
  (-0x2000000 ≤ p.x.toInt ∧ p.x.toInt < 0x2000000) ∧ (-0x800 ≤ p.y.toInt ∧ p.y.toInt < 0x800) ∧
    (-0x2000000 ≤ p.z.toInt ∧ p.z.toInt < 0x2000000)

/-- The word of a position: `x` on top, then `z`, then `y`. -/
def pack (p : Position) : Nat :=
  (p.x.toInt % 0x4000000).toNat * 0x4000000000 + (p.z.toInt % 0x4000000).toNat * 0x1000 +
    (p.y.toInt % 0x1000).toNat

/-- The position that a word spells. -/
def unpack (word : Nat) : Position where
  x := Int32.ofInt (Int.bmod (word / 0x4000000000) 0x4000000)
  y := Int16.ofInt (Int.bmod word 0x1000)
  z := Int32.ofInt (Int.bmod (word / 0x1000) 0x4000000)

/-- A position as one word of eight bytes. -/
def codec : Wire.Codec Wire.Fault Position :=
  (Wire.fixedWidth 8).iso unpack pack

end Position

/-- A block that turned from one state into another. -/
structure BlockChange where
  position : Position
  before : BlockState
  after : BlockState
  deriving DecidableEq, Repr, Inhabited

/-- The same change the other way round. -/
def BlockChange.inverse (c : BlockChange) : BlockChange where
  position := c.position
  before := c.after
  after := c.before

/-- A change as its position, the state before and the state after. -/
def BlockChange.codec : Wire.Codec Wire.Fault BlockChange :=
  (Position.codec.pair (Wire.varint.pair Wire.varint)).iso
    (fun v => ⟨v.1, v.2.1, v.2.2⟩) (fun c => (c.position, c.before, c.after))

end Playhead
