import Playhead.Column.Container
import Playhead.Position

/-!
# Chunk sections

A section is a cube of 16 × 16 × 16 blocks with the biomes of its 4 × 4 × 4 cells, and a count of
the blocks that are not air. The count is what the wire says at first and is kept in step with
every block set afterwards; two sections are the same when their blocks and biomes are, whatever
the counts say.
-/

namespace Playhead

/-- The number of blocks of a section. -/
def sectionVolume : Nat := 4096

/-- A cube of blocks. -/
structure ChunkSection where
  blockCount : Int16
  blocks : Container
  biomes : Container
  deriving Repr

namespace ChunkSection

/-- All air, and one biome. -/
def empty (biome : Int32) : ChunkSection where
  blockCount := 0
  blocks := .single .blocks BlockState.air
  biomes := .single .biomes biome

/-- The block at an index `x + 16 z + 256 y`. -/
def block (s : ChunkSection) (i : Nat) : BlockState := s.blocks.get i

/-- By how much the count changes when a block turns from one state into another. -/
def countChange (before after : BlockState) : Int16 :=
  if before = BlockState.air ∧ after ≠ BlockState.air then 1
  else if before ≠ BlockState.air ∧ after = BlockState.air then -1
  else 0

/-- The section with the block at an index replaced. -/
def setBlock (s : ChunkSection) (i : Nat) (state : BlockState) : ChunkSection :=
  { s with
    blockCount := s.blockCount + countChange (s.block i) state
    blocks := s.blocks.set i state }

/-- Whether two sections have the same blocks and biomes. -/
def same (s t : ChunkSection) : Bool :=
  s.blocks.same t.blocks && s.biomes.same t.biomes

/-- The bytes of a section: the count, the blocks, the biomes. -/
def encode (s : ChunkSection) : Except Failure Bytes := do
  let count := Bytes.ofNat 2 s.blockCount.toUInt16.toNat
  let blocks ← s.blocks.encode
  let biomes ← s.biomes.encode
  return count ++ blocks ++ biomes

/-- The section at the start of a byte string, and the bytes after it. -/
def decode (bytes : Bytes) : Except Failure (ChunkSection × Bytes) :=
  match Bytes.split? 2 bytes with
  | none => .error .endOfInput
  | some (front, rest) => do
    let count := (UInt16.ofNat (Bytes.toNat front)).toInt16
    if count < 0 ∨ (sectionVolume : Int) < count.toInt then .error (.malformedColumn .blockCount)
    else
      let (blocks, rest) ← Container.decode .blocks rest
      let (biomes, rest) ← Container.decode .biomes rest
      return (⟨count, blocks, biomes⟩, rest)

end ChunkSection

end Playhead
