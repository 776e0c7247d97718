import Playhead.Bytes

/-!
# Bit strings

A compressed stream is read bit by bit, the **least significant bit of each byte first**. This
file turns bytes into bits and back (`Playhead.Zlib.Bits.ofBytes`, `Playhead.Zlib.Bits.toBytes`,
`Playhead.Zlib.Bits.bytes?`) and reads numbers of a given width from a bit string
(`Playhead.Zlib.Bits.number?`). What is left after a read is always a suffix of what was there, so
its length modulo eight tells how far the next byte boundary is (`Playhead.Zlib.Bits.align`).
-/

namespace Playhead.Zlib

/-- A bit string. -/
abbrev Bits := List Bool

namespace Bits

/-- The lowest `width` binary digits of a number, least significant first. -/
def ofNumber (width n : Nat) : Bits :=
  (List.range width).map n.testBit

/-- The eight bits of a byte. -/
def ofByte (b : UInt8) : Bits :=
  ofNumber 8 b.toNat

/-- The bits of a byte string. -/
def ofBytes (bytes : Bytes) : Bits :=
  bytes.flatMap ofByte

/-- The number that the first `width` bits spell, least significant first. -/
def number? : Nat → Bits → Option (Nat × Bits)
  | 0, bits => some (0, bits)
  | _ + 1, [] => none
  | width + 1, b :: bits =>
    match number? width bits with
    | some (n, rest) => some (b.toNat + 2 * n, rest)
    | none => none

/-- The bits from the next byte boundary on, in a string that ends on one. -/
def align (bits : Bits) : Bits :=
  bits.drop (bits.length % 8)

/-- The bytes that hold all the bits, the last one filled up with zeros, after those in `done`,
last first. -/
def toBytesFrom (done : Bytes) (bits : Bits) : Bytes :=
  match bits with
  | [] => done.reverse
  | b :: bits =>
    let n := ((b :: bits).take 8).foldr (fun b n => b.toNat + 2 * n) 0
    toBytesFrom (UInt8.ofNat n :: done) (bits.drop 7)
termination_by bits.length

/-- The bytes that hold all the bits, the last one filled up with zeros. -/
def toBytes (bits : Bits) : Bytes :=
  toBytesFrom [] bits

/-- The first `count` bytes; those already read are in `done`, last first. -/
def bytesFrom? : Nat → Bytes → Bits → Option (Bytes × Bits)
  | 0, done, bits => some (done.reverse, bits)
  | count + 1, done, bits =>
    match number? 8 bits with
    | some (n, rest) => bytesFrom? count (UInt8.ofNat n :: done) rest
    | none => none

/-- The first `count` bytes. -/
def bytes? (count : Nat) (bits : Bits) : Option (Bytes × Bits) :=
  bytesFrom? count [] bits

theorem number?_length {width n : Nat} {bits rest : Bits}
    (h : number? width bits = some (n, rest)) :
    rest.length + width = bits.length := by
  induction width generalizing n bits with
  | zero => simp only [number?, Option.some.injEq, Prod.mk.injEq] at h; simp [h.2]
  | succ width ih =>
    cases bits with
    | nil => simp [number?] at h
    | cons b bits =>
      simp only [number?] at h
      split at h
      · next n' rest' h' =>
        simp only [Option.some.injEq, Prod.mk.injEq] at h
        obtain ⟨rfl, rfl⟩ := h
        have := ih h'
        rw [List.length_cons]
        omega
      · simp at h

end Bits

end Playhead.Zlib
