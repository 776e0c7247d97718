import Playhead.Column.Section

/-!
# Chunk columns

A column is a stack of sections, the lowest first, whose bottom is the lowest height of its
dimension. `Playhead.Column.locate` finds the section and the index of a position; heights outside
the stack have no block.

Two columns have the same **shape** when they are equally high and agree on all biomes. Then one
can be turned into the other by block changes alone, and `Playhead.Column.diff?` lists them: one
for each index at which the blocks differ, lowest section first and in order of the index.
-/

namespace Playhead

/-- A stack of sections. -/
structure Column where
  sections : Array ChunkSection
  deriving Repr

namespace Column

/-- The section of a position, and its index there, in a dimension whose lowest height is `minY`. -/
def locate (c : Column) (minY : Int32) (p : Position) : Option (Nat × Nat) :=
  let height := p.y.toInt - minY.toInt
  if height < 0 then none
  else
    let level := (height / 16).toNat
    if level < c.sections.size then
      some (level, ((height % 16) * 256 + p.z.toInt % 16 * 16 + p.x.toInt % 16).toNat)
    else none

/-- The block at a position, if the column is that high. -/
def block? (c : Column) (minY : Int32) (p : Position) : Option BlockState := do
  let (level, i) ← c.locate minY p
  let s ← c.sections[level]?
  return s.block i

/-- The column with the block at a position replaced; positions outside it have no effect. -/
def setBlock (c : Column) (minY : Int32) (p : Position) (state : BlockState) : Column :=
  match c.locate minY p with
  | some (level, i) => ⟨c.sections.modify level fun s => s.setBlock i state⟩
  | none => c

/-- Whether two columns have the same blocks and biomes. -/
def same (c d : Column) : Bool :=
  c.sections.size = d.sections.size &&
    (c.sections.toList.zip d.sections.toList).all fun (s, t) => s.same t

/-- Whether two columns are equally high and agree on all biomes. -/
def sameShape (c d : Column) : Bool :=
  c.sections.size = d.sections.size &&
    (c.sections.toList.zip d.sections.toList).all fun (s, t) => s.biomes.same t.biomes

/-- The position of index `i` in section number `level` of the chunk `(x, z)`. -/
def positionOf (x z minY : Int32) (level i : Nat) : Position where
  x := x * 16 + Int32.ofNat (i % 16)
  y := Int16.ofInt (minY.toInt + 16 * level + i / 256)
  z := z * 16 + Int32.ofNat (i / 16 % 16)

/-- The changes that turn the blocks of one section into those of another. -/
def sectionDiff (x z minY : Int32) (level : Nat) (s t : ChunkSection) : List BlockChange :=
  (List.range sectionVolume).filterMap fun i =>
    let before := s.block i
    let after := t.block i
    if before = after then none else some ⟨positionOf x z minY level i, before, after⟩

/-- The block changes that turn a column of the chunk `(x, z)` into another one; none when they
differ in shape. -/
def diff? (x z minY : Int32) (c d : Column) : Option (List BlockChange) :=
  if c.sameShape d then
    some ((c.sections.toList.zip d.sections.toList).zipIdx.flatMap fun ((s, t), level) =>
      sectionDiff x z minY level s t)
  else none

/-! ### The wire form -/

/-- The bytes of all sections. -/
def encode (c : Column) : Except Failure Bytes := do
  let parts ← c.sections.toList.mapM ChunkSection.encode
  return parts.flatten

/-- Reads sections up to the end of the bytes, after those in `done`. Every section takes at least
one byte, so the reading ends. -/
def decodeFrom (done : Array ChunkSection) (bytes : Bytes) : Except Failure Column :=
  if bytes = [] then .ok ⟨done⟩
  else
    match ChunkSection.decode bytes with
    | .error e => .error e
    | .ok (s, rest) =>
      if rest.length < bytes.length then decodeFrom (done.push s) rest else .ok ⟨done.push s⟩
termination_by bytes.length

/-- The column that a byte string spells. -/
def decode (bytes : Bytes) : Except Failure Column :=
  decodeFrom #[] bytes

end Column

end Playhead
