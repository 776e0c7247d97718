import Playhead.Zlib.CodeLengths
import Playhead.Zlib.Inflate
import Playhead.Zlib.Repeats

/-!
# Writing compressed streams

A payload is cut into pieces, the pieces into blocks, and each block is written in the way that its
size suggests: a small one in the codes that the format fixes, a larger one in codes made for it,
and one that would not become smaller as it is.

`Playhead.Zlib.deflate` reads its own stream back before it hands it out, and falls back on plain
stored blocks should the two not agree. So **what it writes unpacks to the payload** for a reason
that does not depend on how pieces and codes are chosen: the stored blocks do
(`Playhead.Zlib.storedStream`).
-/

namespace Playhead.Zlib

/-! ### Stored blocks -/

/-- The greatest length of a stored block. -/
def storedLimit : Nat := 65535

/-- A number of sixteen bits, least significant byte first. -/
def littleEndian16 (n : Nat) : Bytes :=
  [UInt8.ofNat n, UInt8.ofNat (n / 256)]

/-- What follows the three bits that start a stored block, and their padding. -/
def storedBody (piece : Bytes) : Bytes :=
  littleEndian16 piece.length ++ littleEndian16 (storedLimit - piece.length) ++ piece

/-- One stored block that starts at a byte boundary; `last` says whether it ends the stream. -/
def storedBlock (last : Bool) (piece : Bytes) : Bytes :=
  (if last then 1 else 0) :: storedBody piece

/-- The blocks of a payload: full ones, then a last one that is not longer than the limit. -/
def storedBlocks (payload : Bytes) : Bytes :=
  if payload.length ≤ storedLimit then storedBlock true payload
  else storedBlock false (payload.take storedLimit) ++ storedBlocks (payload.drop storedLimit)
termination_by payload.length
decreasing_by
  rename_i h
  simp only [storedLimit] at h ⊢
  simp only [List.length_drop]
  omega

/-- A stream with the given blocks. -/
def stream (blocks payload : Bytes) : Bytes :=
  [0x78, 0x9C] ++ blocks ++ Bytes.ofNat 4 (checksum payload)

/-- The plainest stream that unpacks to the payload. -/
def storedStream (payload : Bytes) : Bytes :=
  stream (storedBlocks payload) payload

/-! ### Blocks in prefix codes -/

/-- The code of each symbol. -/
abbrev CodeTable := Array Bits

/-- The codes of the symbols below a place; `path` leads there, last bit first. -/
def Subtree.codes (path : Bits) : Subtree → List (Nat × Bits)
  | .vacant => []
  | .symbol value => [(value, path.reverse)]
  | .branch zero one => zero.codes (false :: path) ++ one.codes (true :: path)

/-- The codes that symbols have by their code lengths. -/
def CodeTable.ofLengths (lengths : List Nat) : CodeTable :=
  let code := PrefixCode.ofLengths lengths
  (code.zero.codes [false] ++ code.one.codes [true]).foldl
    (fun table (symbol, bits) => table.set! symbol bits) (Array.replicate lengths.length [])

/-- A mark in a code: the code of its symbol, then its extra bits. -/
def Mark.bits (codes : CodeTable) (mark : Mark) : Bits :=
  codes.getD mark.symbol [] ++ Bits.ofNumber mark.width mark.extra

/-- A piece in a pair of codes. -/
def Piece.bits (content distance : CodeTable) (piece : Piece) : Bits :=
  piece.content.bits content ++ piece.distance?.elim [] (Mark.bits distance)

/-- How often each of the first `count` symbols occurs. -/
def frequencies (count : Nat) (marks : List Mark) : List Nat :=
  (marks.foldl (fun table mark => table.modify mark.symbol (· + 1))
    (Array.replicate count 0)).toList

/-- A list in parts of `size` elements, the last of which may be shorter. -/
def inParts {α : Type} (size : Nat) (xs : List α) : List (List α) :=
  if size = 0 ∨ xs = [] then []
  else xs.take size :: inParts size (xs.drop size)
termination_by xs.length
decreasing_by
  rename_i h
  have := List.length_pos_iff.2 (not_or.1 h).2
  rw [List.length_drop]
  omega

/-- The marks for a part of a run of zeros. -/
def zeroMarks (run : List Nat) : List Mark :=
  if run.length < 3 then run.map fun length => { symbol := length }
  else if run.length ≤ 10 then [⟨17, 3, run.length - 3⟩]
  else [⟨18, 7, run.length - 11⟩]

/-- The marks for a part of a run of the length before it. -/
def repeatMarks (run : List Nat) : List Mark :=
  if run.length < 3 then run.map fun length => { symbol := length }
  else [⟨16, 2, run.length - 3⟩]

/-- The marks for a run of equal code lengths. -/
def runMarks : List Nat → List Mark
  | [] => []
  | 0 :: run => (inParts 138 (0 :: run)).flatMap zeroMarks
  | length :: run => { symbol := length } :: (inParts 6 run).flatMap repeatMarks

/-- A list without the zeros at its end, but of at least `least` elements. -/
def trimmed (least : Nat) (lengths : List Nat) : List Nat :=
  lengths.take (max least (lengths.reverse.dropWhile (· == 0)).length)

/-- The description of a pair of codes by their lengths. -/
def codesHeader (contentLengths distanceLengths : List Nat) : Bits :=
  let marks := ((contentLengths ++ distanceLengths).splitBy (· == ·)).flatMap runMarks
  let markLengths := codeLengths 7 (frequencies 19 marks)
  -- The order puts the lengths that are seldom used last, so that they need not be written.
  let transmitted := trimmed 4 (lengthCodeOrder.map fun symbol => markLengths.getD symbol 0)
  Bits.ofNumber 5 (contentLengths.length - 257) ++ Bits.ofNumber 5 (distanceLengths.length - 1) ++
    Bits.ofNumber 4 (transmitted.length - 4) ++ transmitted.flatMap (Bits.ofNumber 3) ++
    marks.flatMap (Mark.bits (.ofLengths markLengths))

/-- A block in the codes that the format fixes. -/
def fixedBlock (pieces : List Piece) : Bits :=
  Bits.ofNumber 2 1 ++
    pieces.flatMap (Piece.bits (.ofLengths fixedContentLengths) (.ofLengths fixedDistanceLengths))

/-- A block in codes made for its pieces. -/
def fittedBlock (pieces : List Piece) : Bits :=
  let contentLengths := trimmed 257
    (codeLengths maxCodeLength (frequencies 286 (pieces.map Piece.content)))
  let distanceLengths := trimmed 1
    (codeLengths maxCodeLength (frequencies 30 (pieces.filterMap Piece.distance?)))
  Bits.ofNumber 2 2 ++ codesHeader contentLengths distanceLengths ++
    pieces.flatMap (Piece.bits (.ofLengths contentLengths) (.ofLengths distanceLengths))

/-! ### Streams -/

/-- Some pieces and the bytes they stand for. -/
structure Block where
  pieces : List Piece
  bytes : Bytes

/-- A block shorter than this is written in the fixed codes. -/
def fittedFrom : Nat := 48

/-- A block no longer than this is never stored as it is. -/
def codedUpTo : Nat := 32

/-- The bits of a block after the first `used` bits of a byte. A block of some length whose coded
form takes up as many whole bytes as its content does, or only one less, is stored as it is. -/
def Block.bits (used : Nat) (last : Bool) (block : Block) : Bits :=
  let pieces := block.pieces ++ [.stop]
  let size := block.bytes.length
  let coded := if size < fittedFrom then fixedBlock pieces else fittedBlock pieces
  let started := (used + 1) % 8
  -- Three bits come before the padding: the mark of the last block and the kind.
  last :: if codedUpTo < size ∧ size ≤ windowSize ∧ size ≤ (started + coded.length) / 8 + 1 then
      [false, false] ++ List.replicate ((13 - used) % 8) false ++
        Bits.ofBytes (storedBody block.bytes)
    else coded

/-- The room that a block being collected takes up: a byte for each piece, two more for a repeat,
and one for every eight pieces. -/
structure Room where
  size : Nat := 0
  bytes : Nat := 1
  pieces : Nat := 0

/-- The room after one more piece. -/
def Room.after (room : Room) (piece : Piece) : Room :=
  let width := match piece with
    | .repeated _ _ => 3
    | _ => 1
  ⟨room.size + piece.span, room.bytes + width, room.pieces + 1⟩

/-- Whether a block is to end here: its pieces fill the room there is, or there are many and they
save little. -/
def Room.isFull (room : Room) : Bool :=
  let taken := room.bytes + room.pieces / 8
  65536 - 8 < taken || (31 * 1024 < room.size && room.size ≤ taken * 115 / 128)

/-- The blocks of a payload that is cut into `held`, last first, and the pieces that follow. The
last block may be empty. -/
def blocks (payload : Bytes) (room : Room) (held : List Piece) : List Piece → List Block
  | [] => [⟨held.reverse, payload⟩]
  | piece :: rest =>
    let room := room.after piece
    if room.isFull then
      ⟨(piece :: held).reverse, payload.take room.size⟩ ::
        blocks (payload.drop room.size) {} [] rest
    else blocks payload room (piece :: held) rest

/-- The bits of the blocks; `used` counts the bits before them modulo eight. -/
def blocksBits (used : Nat) : List Block → Bits
  | [] => []
  | block :: rest =>
    let bits := block.bits used rest.isEmpty
    bits ++ blocksBits ((used + bits.length) % 8) rest

/-- A stream that is likely to be smaller than the payload. -/
def packedStream (payload : Bytes) : Bytes :=
  stream (Bits.toBytes (blocksBits 0 (blocks payload {} [] (pieces payload)))) payload

/-- A stream that unpacks to the payload. -/
def deflate (payload : Bytes) : Bytes :=
  let packed := packedStream payload
  match inflate packed with
  | .ok unpacked => if unpacked = payload then packed else storedStream payload
  | .error _ => storedStream payload

end Playhead.Zlib
