import Playhead.Zlib.Checksum
import Playhead.Zlib.Piece
import Playhead.Zlib.PrefixCode

/-!
# Reading compressed streams

A stream is a two-byte header, a sequence of blocks, and the checksum of what they unpack to. A
block is stored as it is, or written in a pair of prefix codes: one for bytes and match lengths,
one for match distances. Both codes are fixed by the format or described at the start of the
block. `Playhead.Zlib.inflate` gives the unpacked bytes and ignores whatever follows the checksum.

Two things can go wrong, and they are told apart: the input **ends** inside the stream
(`incompleteStream`), or it **breaks a rule** (`corruptStream`). Bits are looked at strictly in
order, so a rule that is broken before the end counts as broken.

Matches may reach back beyond the first byte: the window that they copy from holds zeros before
anything is written to it.
-/

namespace Playhead.Zlib

open Wire (Fault)

/-- What has been unpacked so far. -/
abbrev Unpacked := Array UInt8

/-- The next `width` bits as a number. -/
def readNumber (width : Nat) (bits : Bits) : Except Fault (Nat × Bits) :=
  match bits.number? width with
  | some found => .ok found
  | none => .error .incompleteStream

/-! ### Blocks written in prefix codes -/

/-- The two codes of a block. -/
structure BlockCodes where
  /-- The code of bytes, of the end of the block (symbol 256) and of match lengths. -/
  content : PrefixCode
  /-- The code of match distances. -/
  distance : PrefixCode

/-- The byte `distance` places back; a zero before the beginning. -/
def Unpacked.back (out : Unpacked) (distance : Nat) : UInt8 :=
  if distance ≤ out.size then out.getD (out.size - distance) 0 else 0

/-- Repeats `count` bytes from `distance` places back, one after the other, so that a match may
overlap what it writes. -/
def Unpacked.copy (distance : Nat) : Nat → Unpacked → Unpacked
  | 0, out => out
  | count + 1, out => copy distance count (out.push (Unpacked.back out distance))

/-- A value from a table of least values and extra bits. -/
def readFromTable (table : Array (Nat × Nat)) (symbol : Nat) (bits : Bits) :
    Except Fault (Nat × Bits) :=
  match table[symbol]? with
  | none => .error .corruptStream
  | some (least, extra) =>
    match readNumber extra bits with
    | .ok (n, rest) => .ok (least + n, rest)
    | .error e => .error e

/-- The piece at the start of the bits. -/
def readPiece (codes : BlockCodes) (bits : Bits) : Except Fault (Piece × Bits) :=
  match codes.content.decode bits with
  | .error e => .error e
  | .ok (symbol, rest) =>
    if symbol < 256 then .ok (.byte (UInt8.ofNat symbol), rest)
    else if symbol = Piece.stopSymbol then .ok (.stop, rest)
    else
      match readFromTable lengthTable (symbol - 257) rest with
      | .error e => .error e
      | .ok (length, rest) =>
        match codes.distance.decode rest with
        | .error e => .error e
        | .ok (symbol, rest) =>
          match readFromTable distanceTable symbol rest with
          | .error e => .error e
          | .ok (distance, rest) => .ok (.repeated length distance, rest)

theorem readNumber_length {width n : Nat} {bits rest : Bits}
    (h : readNumber width bits = .ok (n, rest)) : rest.length + width = bits.length := by
  unfold readNumber at h
  split at h
  · next found hf =>
    simp only [Except.ok.injEq] at h
    exact Bits.number?_length (h ▸ hf)
  · simp at h

theorem readFromTable_length {table : Array (Nat × Nat)} {symbol n : Nat} {bits rest : Bits}
    (h : readFromTable table symbol bits = .ok (n, rest)) : rest.length ≤ bits.length := by
  unfold readFromTable at h
  split at h
  · simp at h
  · split at h
    · next hn =>
      simp only [Except.ok.injEq, Prod.mk.injEq] at h
      obtain ⟨-, rfl⟩ := h
      have := readNumber_length hn
      omega
    · simp at h

theorem readPiece_length {codes : BlockCodes} {bits rest : Bits} {piece : Piece}
    (h : readPiece codes bits = .ok (piece, rest)) : rest.length < bits.length := by
  unfold readPiece at h
  split at h
  · simp at h
  · next hs =>
    have := PrefixCode.decode_length hs
    split at h
    · simp only [Except.ok.injEq, Prod.mk.injEq] at h; rw [← h.2]; exact this
    · split at h
      · simp only [Except.ok.injEq, Prod.mk.injEq] at h; rw [← h.2]; exact this
      · split at h
        · simp at h
        · next hl =>
          have := readFromTable_length hl
          split at h
          · simp at h
          · next hd =>
            have := PrefixCode.decode_length hd
            split at h
            · simp at h
            · next ht =>
              have := readFromTable_length ht
              simp only [Except.ok.injEq, Prod.mk.injEq] at h
              rw [← h.2]
              omega

/-- Unpacks pieces up to the end of the block. -/
def inflatePieces (codes : BlockCodes) (out : Unpacked) (bits : Bits) :
    Except Fault (Unpacked × Bits) :=
  match h : readPiece codes bits with
  | .error e => .error e
  | .ok (.stop, rest) => .ok (out, rest)
  | .ok (.byte b, rest) =>
    have := readPiece_length h
    inflatePieces codes (out.push b) rest
  | .ok (.repeated length distance, rest) =>
    have := readPiece_length h
    inflatePieces codes (Unpacked.copy distance length out) rest
termination_by bits.length

/-! ### The codes of a block -/

/-- The code lengths of bytes, the end of the block and match lengths that the format fixes. -/
def fixedContentLengths : List Nat :=
  List.replicate 144 8 ++ List.replicate 112 9 ++ List.replicate 24 7 ++ List.replicate 8 8

/-- The code lengths of distances that the format fixes. -/
def fixedDistanceLengths : List Nat :=
  List.replicate 32 5

/-- The codes that the format fixes. Their unused symbols have places, and are refused when they
turn up. -/
def fixedCodes : BlockCodes where
  content := .ofLengths fixedContentLengths
  distance := .ofLengths fixedDistanceLengths

/-- The order in which the lengths of the code of code lengths are transmitted. -/
def lengthCodeOrder : List Nat :=
  [16, 17, 18, 0, 8, 7, 9, 6, 10, 5, 11, 4, 12, 3, 13, 2, 14, 1, 15]

/-- The next `count` numbers of three bits. -/
def readTriples : Nat → List Nat → Bits → Except Fault (List Nat × Bits)
  | 0, done, bits => .ok (done.reverse, bits)
  | count + 1, done, bits =>
    match readNumber 3 bits with
    | .ok (n, rest) => readTriples count (n :: done) rest
    | .error e => .error e

/-- Reads code lengths until there are `total` of them; those already read are in `done`, last
first. A symbol below 16 is a length; the others repeat the last length or zero, and may not repeat
past the end. -/
def readLengths (code : PrefixCode) (total : Nat) (done : List Nat) (bits : Bits) :
    Except Fault (List Nat × Bits) :=
  if done.length = total then .ok (done.reverse, bits)
  else if total < done.length then .error .corruptStream
  else
    match hs : code.decode bits with
    | .error e => .error e
    | .ok (symbol, rest) =>
      have := PrefixCode.decode_length hs
      if symbol < 16 then readLengths code total (symbol :: done) rest
      else if symbol = 16 ∧ done = [] then .error .corruptStream
      else
        let (width, least, value) :=
          if symbol = 16 then (2, 3, done.headD 0)
          else if symbol = 17 then (3, 3, 0)
          else (7, 11, 0)
        match hn : readNumber width rest with
        | .error e => .error e
        | .ok (n, rest) =>
          have := readNumber_length hn
          readLengths code total (List.replicate (least + n) value ++ done) rest
termination_by bits.length

/-- The codes described at the start of a block. -/
def readCodes (bits : Bits) : Except Fault (BlockCodes × Bits) := do
  let (contentExtra, bits) ← readNumber 5 bits
  let (distanceExtra, bits) ← readNumber 5 bits
  let (lengthExtra, bits) ← readNumber 4 bits
  let contentCount := contentExtra + 257
  let distanceCount := distanceExtra + 1
  if 286 < contentCount ∨ 30 < distanceCount then .error .corruptStream
  else
    let (triples, bits) ← readTriples (lengthExtra + 4) [] bits
    let transmitted := lengthCodeOrder.zip triples
    let lengthLengths := (List.range 19).map fun s => (transmitted.lookup s).getD 0
    if !isComplete lengthLengths then .error .corruptStream
    else
      let (lengths, bits) ← readLengths (.ofLengths lengthLengths)
        (contentCount + distanceCount) [] bits
      -- A run may go on from the first list into the second.
      let (contentLengths, distanceLengths) := lengths.splitAt contentCount
      if !isUsable contentLengths || !isUsable distanceLengths then .error .corruptStream
      else return (⟨.ofLengths contentLengths, .ofLengths distanceLengths⟩, bits)

/-! ### Blocks and streams -/

/-- A block that is stored as it is: its length, the length's complement, the bytes. -/
def inflateStored (out : Unpacked) (bits : Bits) : Except Fault (Unpacked × Bits) := do
  let (size, bits) ← readNumber 16 bits.align
  let (complement, bits) ← readNumber 16 bits
  if size + complement ≠ 0xFFFF then .error .corruptStream
  else
    match bits.bytes? size with
    | some (stored, bits) => return (out ++ stored, bits)
    | none => .error .incompleteStream

/-- The body of a block of the given kind. -/
def inflateBlock (kind : Nat) (out : Unpacked) (bits : Bits) : Except Fault (Unpacked × Bits) :=
  match kind with
  | 0 => inflateStored out bits
  | 1 => inflatePieces fixedCodes out bits
  | 2 => do
    let (codes, bits) ← readCodes bits
    inflatePieces codes out bits
  | _ => .error .corruptStream

/-- Unpacks blocks up to the last one. The bits that are left bound the number of blocks. -/
def inflateBlocks : Nat → Unpacked → Bits → Except Fault (Unpacked × Bits)
  | 0, _, _ => .error .incompleteStream
  | bound + 1, out, bits =>
    match readNumber 1 bits with
    | .error e => .error e
    | .ok (last, bits) =>
      match readNumber 2 bits with
      | .error e => .error e
      | .ok (kind, bits) =>
        match inflateBlock kind out bits with
        | .error e => .error e
        | .ok (out, bits) => if last = 1 then .ok (out, bits) else inflateBlocks bound out bits

/-- Whether two bytes can start a stream: a multiple of 31 as a number, the one method there is,
a window of at most 32768 bytes, and no dictionary agreed on beforehand. -/
def isHeader (method flags : UInt8) : Bool :=
  (method.toNat * 256 + flags.toNat) % 31 == 0 && method.toNat % 16 == 8 &&
    method.toNat / 16 ≤ 7 && flags.toNat / 32 % 2 == 0

/-- The bytes that a stream unpacks to. -/
def inflate (bytes : Bytes) : Except Fault Bytes :=
  match bytes with
  | method :: flags :: body =>
    if !isHeader method flags then .error .corruptStream
    else do
      let bits := Bits.ofBytes body
      let (out, rest) ← inflateBlocks (bits.length + 1) #[] bits
      match rest.align.bytes? 4 with
      | none => .error .incompleteStream
      | some (sum, _) =>
        let unpacked := out.toList
        if Bytes.toNat sum = checksum unpacked then return unpacked else .error .corruptStream
  | _ => .error .incompleteStream

end Playhead.Zlib
