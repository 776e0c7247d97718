import Playhead.Wire.Codec

/-!
# Numbers of variable width

A variable-length number is a list of groups of seven bits, least significant first; the high bit
of a byte says that another group follows. `Playhead.Wire.Groups.encode` writes the fewest groups.
`Playhead.Wire.Groups.decode` reads at most a given number of groups and accepts redundant ones;
it gives the plain sum, and the number read is that sum **modulo the width** of the type: bits that
do not fit are dropped. Signed numbers go through their two's complement, so negative ones take
the full length.

`Playhead.Wire.length` is the form in which every list, text and frame announces its length.
-/

namespace Playhead.Wire

namespace Groups

/-- The seven-bit groups of a number, least significant first and as few as possible. -/
def encode (n : Nat) : Bytes :=
  if n < 128 then [UInt8.ofNat n]
  else UInt8.ofNat (n % 128 + 128) :: encode (n / 128)
termination_by n
decreasing_by omega

/-- The sum of at most `limit` groups, and the bytes after the last of them. -/
def decode : Nat → Bytes → Except Fault (Nat × Bytes)
  | 0, _ => .error .oversizedNumber
  | _ + 1, [] => .error .endOfInput
  | limit + 1, b :: rest =>
    if b < 128 then .ok (b.toNat, rest)
    else
      match decode limit rest with
      | .ok (n, rest) => .ok (b.toNat % 128 + 128 * n, rest)
      | .error e => .error e

end Groups

/-- A signed 32-bit number in at most five groups. -/
def varint : Codec Fault Int32 where
  encode v := .ok (Groups.encode v.toUInt32.toNat)
  decode bytes := do
    let (n, rest) ← Groups.decode 5 bytes
    return ((UInt32.ofNat n).toInt32, rest)

/-- A signed 64-bit number in at most ten groups. -/
def varlong : Codec Fault Int64 where
  encode v := .ok (Groups.encode v.toUInt64.toNat)
  decode bytes := do
    let (n, rest) ← Groups.decode 10 bytes
    return ((UInt64.ofNat n).toInt64, rest)

/-- A length: a number of `varint` form that is not negative. -/
def length : Codec Fault Nat where
  encode n := if n < 0x80000000 then varint.encode (Int32.ofNat n) else .error .oversizedNumber
  decode bytes := do
    let (v, rest) ← varint.decode bytes
    if v < 0 then .error .oversizedNumber else return (v.toInt.toNat, rest)

/-- A list behind its length. -/
def listOf {α : Type} (codec : Codec Fault α) : Codec Fault (List α) :=
  Codec.list length codec

/-- A type given by its variants, behind the number of the variant. -/
def oneOf {α : Type} (variants : List (Variant α)) : Codec Fault α :=
  Codec.oneOf varint variants

end Playhead.Wire
