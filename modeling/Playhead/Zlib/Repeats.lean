import Playhead.Zlib.Piece

/-!
# Finding repeats

A payload is cut into pieces by looking, at each position, for the longest run of bytes that also
occurs not too far back (`Playhead.Zlib.Text.longest`). Earlier positions that may match are chained
by a hash of three bytes, nearest first, and only so many of them are tried. A match is not taken at
once: it waits for the next position, and gives way to a longer match there
(`Playhead.Zlib.Text.cut`).

Any other way to cut would do: what the pieces stand for is checked when they have been written.
-/

namespace Playhead.Zlib

/-- The longest match that can be written. -/
def longestMatch : Nat := 258

/-- How far back a match can reach. -/
def windowSize : Nat := 32768

/-- A payload and, for each position, the nearest earlier one with the same hash. -/
structure Text where
  bytes : Array UInt8
  earlier : Array (Option Nat)

namespace Text

/-- The number of hashes. -/
def hashCount : Nat := 0x8000

/-- A hash of three bytes. -/
def hash (a b c : UInt8) : Nat :=
  ((a.toNat <<< 10) ^^^ (b.toNat <<< 5) ^^^ c.toNat) % hashCount

/-- Chains the positions of a byte string after those in `earlier`; `heads` holds the last position
of each hash. -/
def chain (heads earlier : Array (Option Nat)) : Bytes → Array (Option Nat)
  | a :: b :: c :: rest =>
    let h := hash a b c
    let last := heads.getD h none
    chain (heads.setIfInBounds h (some earlier.size)) (earlier.push last) (b :: c :: rest)
  | _ => earlier

/-- A payload with its chains. The first position starts no match and is in no chain. -/
def ofBytes (bytes : Bytes) : Text :=
  ⟨bytes.toArray, chain (Array.replicate hashCount none) #[none] (bytes.drop 1)⟩

/-- How many bytes from `i` and `j` on are equal, counting at most `limit`. -/
def common (text : Text) (i j : Nat) : Nat → Nat
  | 0 => 0
  | limit + 1 =>
    if text.bytes[i]? = text.bytes[j]? then common text (i + 1) (j + 1) limit + 1 else 0

/-- A match: its length and how far back it lies. -/
structure Match where
  length : Nat
  distance : Nat

/-- Where a search stands: the match to beat, and what may still be tried. -/
structure Search where
  best : Match
  /-- Rounds left; a round ends with a position that may beat the best match. -/
  rounds : Nat
  /-- Positions left in this round. -/
  tries : Nat

/-- The number of positions looked at in one round. -/
def triesPerRound : Nat := 3

/-- Looks at the positions chained before `seen` for a match at `pos` that is longer than the best,
at most `limit` long and at most `reach` back. -/
def search (text : Text) (pos limit reach : Nat) : Nat → Nat → Search → Match
  | 0, _, s => s.best
  | bound + 1, seen, s =>
    let (rounds, tries) :=
      if s.tries = 0 then (s.rounds - 1, triesPerRound) else (s.rounds, s.tries)
    if rounds = 0 then s.best
    else
      match text.earlier.getD seen none with
      | none => s.best
      | some found =>
        if reach < pos - found then s.best
        else
          -- A longer match agrees in the last byte of the best one and in the byte after it.
          let ends (n : Nat) : Bool := text.bytes[found + n]? = text.bytes[pos + n]?
          if !(ends (s.best.length - 1) && ends s.best.length) then
            search text pos limit reach bound found ⟨s.best, rounds, tries - 1⟩
          else
            let length := text.common found pos limit
            let best := if s.best.length < length then ⟨length, pos - found⟩ else s.best
            if best.length = limit then best
            else search text pos limit reach bound found ⟨best, rounds, 0⟩

/-- A match of the least length does not pay off from this distance on. -/
def tooFar : Nat := 8192

/-- The longest match at a position that is longer than `least`, if there is one. A search that
starts from a long match gives up sooner, and a match that begins at a multiple of the window's size
is passed over. -/
def longest (text : Text) (pos least : Nat) : Option Match :=
  let limit := min longestMatch (text.bytes.size - pos)
  let reach := min pos (windowSize - limit)
  if limit ≤ least then none
  else
    let rounds := if least < 32 then 44 else 12
    let found := text.search pos limit reach pos pos ⟨⟨least, 0⟩, rounds, 0⟩
    if found.length ≤ least ∨ (found.length = 3 ∧ tooFar ≤ found.distance) ∨
        (pos - found.distance) % windowSize = 0 then none
    else some found

/-- A match of this length is taken without looking for a longer one. -/
def longEnough : Nat := 128

/-- The pieces from a position on, where `waiting` is the match that the position before it starts
and `done` are the pieces before, last first. Each step moves on by a byte or more, so `bound` need
not exceed the number of bytes left. -/
def cut (text : Text) : Nat → Nat → Option Match → List Piece → List Piece
  | 0, _, _, done => done.reverse
  | bound + 1, pos, waiting, done =>
    if text.bytes.size ≤ pos then done.reverse
    else
      let byteAt (i : Nat) : Piece := .byte (text.bytes.getD i 0)
      let repeated (m : Match) : Piece := .repeated m.length m.distance
      match waiting, text.longest pos (waiting.elim 2 Match.length) with
      | none, none => cut text bound (pos + 1) none (byteAt pos :: done)
      -- Nothing longer starts here, so the match that waits is taken.
      | some kept, none => cut text bound (pos - 1 + kept.length) none (repeated kept :: done)
      | _, some found =>
        -- A longer match starts here, so the position before is a byte of its own.
        let done := if waiting.isSome then byteAt (pos - 1) :: done else done
        if longEnough ≤ found.length then
          cut text bound (pos + found.length) none (repeated found :: done)
        else cut text bound (pos + 1) (some found) done

end Text

/-- A payload cut into pieces. -/
def pieces (payload : Bytes) : List Piece :=
  (Text.ofBytes payload).cut payload.length 0 none []

end Playhead.Zlib
