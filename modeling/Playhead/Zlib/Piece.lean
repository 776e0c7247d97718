import Playhead.Bytes

/-!
# Pieces of a compressed block

Between the bits of a block and the bytes it stands for there is a list of **pieces**
(`Playhead.Zlib.Piece`): single bytes, repeats of what came before, and the end of the block. Each
piece is written as one or two symbols. A symbol that stands for a range of numbers is followed by
some extra bits that pick one of them; `Playhead.Zlib.lengthTable` and
`Playhead.Zlib.distanceTable` list the ranges, and `Playhead.Zlib.Mark.ofTable` finds the range of
a number.
-/

namespace Playhead.Zlib

/-- What the symbols of a block say. -/
inductive Piece where
  | byte (b : UInt8)
  | stop
  | repeated (length distance : Nat)

/-- The least match length of each length symbol, with the number of extra bits. -/
def lengthTable : Array (Nat × Nat) :=
  #[(3, 0), (4, 0), (5, 0), (6, 0), (7, 0), (8, 0), (9, 0), (10, 0), (11, 1), (13, 1), (15, 1),
    (17, 1), (19, 2), (23, 2), (27, 2), (31, 2), (35, 3), (43, 3), (51, 3), (59, 3), (67, 4),
    (83, 4), (99, 4), (115, 4), (131, 5), (163, 5), (195, 5), (227, 5), (258, 0)]

/-- The least distance of each distance symbol, with the number of extra bits. -/
def distanceTable : Array (Nat × Nat) :=
  #[(1, 0), (2, 0), (3, 0), (4, 0), (5, 1), (7, 1), (9, 2), (13, 2), (17, 3), (25, 3), (33, 4),
    (49, 4), (65, 5), (97, 5), (129, 6), (193, 6), (257, 7), (385, 7), (513, 8), (769, 8),
    (1025, 9), (1537, 9), (2049, 10), (3073, 10), (4097, 11), (6145, 11), (8193, 12),
    (12289, 12), (16385, 13), (24577, 13)]

/-- A symbol and the extra bits after its code. -/
structure Mark where
  symbol : Nat
  width : Nat := 0
  extra : Nat := 0

/-- The mark of a number in a table: the last range that does not begin above it. -/
def Mark.ofTable (table : Array (Nat × Nat)) (n : Nat) : Mark :=
  let symbol := (table.toList.takeWhile fun range => range.1 ≤ n).length - 1
  let (least, width) := table.getD symbol (0, 0)
  ⟨symbol, width, n - least⟩

namespace Piece

/-- The symbol that ends a block. -/
def stopSymbol : Nat := 256

/-- The mark of a piece in the alphabet of bytes, the end of the block, and lengths. -/
def content : Piece → Mark
  | byte b => { symbol := b.toNat }
  | stop => { symbol := stopSymbol }
  | repeated length _ =>
    let mark := Mark.ofTable lengthTable length
    { mark with symbol := stopSymbol + 1 + mark.symbol }

/-- The mark of a piece in the alphabet of distances. -/
def distance? : Piece → Option Mark
  | repeated _ distance => some (Mark.ofTable distanceTable distance)
  | _ => none

/-- The number of bytes that a piece stands for. -/
def span : Piece → Nat
  | byte _ => 1
  | stop => 0
  | repeated length _ => length

end Piece

end Playhead.Zlib
