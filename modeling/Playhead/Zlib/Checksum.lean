import Playhead.Bytes

/-!
# The checksum at the end of a compressed stream

Adler-32: two running sums modulo 65521, the first of the bytes and the second of the first sum,
packed into 32 bits with the second sum on top.
-/

namespace Playhead.Zlib

/-- The modulus of both running sums, the largest prime below `2 ^ 16`. -/
def checksumModulus : Nat := 65521

/-- The two running sums after one more byte. -/
def checksumStep (sums : Nat × Nat) (b : UInt8) : Nat × Nat :=
  let low := (sums.1 + b.toNat) % checksumModulus
  (low, (sums.2 + low) % checksumModulus)

/-- The checksum of a byte string. -/
def checksum (bytes : Bytes) : Nat :=
  let sums := bytes.foldl checksumStep (1, 0)
  sums.2 * 0x10000 + sums.1

end Playhead.Zlib
