import Playhead.Failure
import Playhead.Wire.Number

/-!
# Packed arrays

An array of unsigned numbers of `bits` bits each, several to a 64-bit word. An entry never spans
two words: a word holds `64 / bits` entries, the first in the lowest bits, and the bits above the
last entry are padding. Padding is kept as it was read, so an array that nobody writes to is
written back bit for bit.

The array view of this layout is `Playhead.PackedArray.get`; writing an entry
(`Playhead.PackedArray.set`) changes that entry alone.
-/

namespace Playhead

/-- The word with ones in its lowest `bits` bits. -/
def lowOnes (bits : Nat) : UInt64 :=
  (1 <<< UInt64.ofNat bits) - 1

/-- The entry of a word that starts at bit `shift`. -/
def entryAt (word : UInt64) (shift bits : Nat) : UInt64 :=
  (word >>> UInt64.ofNat shift) &&& lowOnes bits

/-- The word with the entry that starts at bit `shift` replaced by the lowest bits of `value`. -/
def withEntry (word : UInt64) (shift bits : Nat) (value : UInt64) : UInt64 :=
  (word &&& ~~~(lowOnes bits <<< UInt64.ofNat shift)) |||
    ((value &&& lowOnes bits) <<< UInt64.ofNat shift)

/-- `length` numbers of `bits` bits each. -/
structure PackedArray where
  bits : Nat
  length : Nat
  words : Array UInt64
  deriving DecidableEq, Repr

namespace PackedArray

/-- How many entries a word holds. -/
def perWord (bits : Nat) : Nat := 64 / bits

/-- How many words `length` entries take. -/
def wordCount (bits length : Nat) : Nat :=
  (length + perWord bits - 1) / perWord bits

/-- An array of zeros. -/
def zeros (bits length : Nat) : PackedArray where
  bits := bits
  length := length
  words := Array.replicate (wordCount bits length) 0

/-- The word that holds an entry. -/
def wordIndex (a : PackedArray) (i : Nat) : Nat := i / perWord a.bits

/-- Where in its word an entry starts. -/
def shift (a : PackedArray) (i : Nat) : Nat := i % perWord a.bits * a.bits

/-- The entry at an index. -/
def get (a : PackedArray) (i : Nat) : UInt64 :=
  entryAt (a.words.getD (a.wordIndex i) 0) (a.shift i) a.bits

/-- The array with the entry at an index replaced by the lowest bits of a value. -/
def set (a : PackedArray) (i : Nat) (value : UInt64) : PackedArray :=
  { a with words := a.words.modify (a.wordIndex i) fun w => withEntry w (a.shift i) a.bits value }

/-- The array of another width in which entry `i` is `f i`. -/
def tabulate (bits length : Nat) (f : Nat → UInt64) : PackedArray :=
  (List.range length).foldl (fun a i => a.set i (f i)) (zeros bits length)

/-- The same entries at another width. -/
def resized (a : PackedArray) (bits : Nat) : PackedArray :=
  tabulate bits a.length a.get

/-- The bytes of all words, in order. -/
def encode (a : PackedArray) : Bytes :=
  a.words.toList.flatMap fun w => Bytes.ofNat 8 w.toNat

/-- Reads `count` words after those in `done`. -/
def decodeWords : Nat → Array UInt64 → Bytes → Except Failure (Array UInt64 × Bytes)
  | 0, done, bytes => .ok (done, bytes)
  | count + 1, done, bytes =>
    match Bytes.split? 8 bytes with
    | some (front, rest) => decodeWords count (done.push (UInt64.ofNat (Bytes.toNat front))) rest
    | none => .error .endOfInput

/-- The array of the given shape at the start of a byte string, and the bytes after it. -/
def decode (bits length : Nat) (bytes : Bytes) : Except Failure (PackedArray × Bytes) :=
  match decodeWords (wordCount bits length) #[] bytes with
  | .ok (words, rest) => .ok (⟨bits, length, words⟩, rest)
  | .error e => .error e

end PackedArray

end Playhead
