import Playhead.Wire.Codec

/-!
# Numbers of fixed width

A number of fixed width is written **most significant byte first**, signed ones in two's
complement. Floating-point numbers are kept as their bit patterns throughout
(`Playhead.Float32Bits`, `Playhead.Float64Bits`): the payload of a NaN and the sign of a zero are
part of what is recorded, and nothing here computes with them.
-/

namespace Playhead

/-- The bit pattern of a single-precision number. -/
abbrev Float32Bits := UInt32

/-- The bit pattern of a double-precision number. -/
abbrev Float64Bits := UInt64

namespace Wire

/-- A number below `256 ^ width` as its `width` bytes; greater ones are refused. -/
def fixedWidth (width : Nat) : Codec Fault Nat where
  encode n := if n < Nat.pow 256 width then .ok (Bytes.ofNat width n) else .error .oversizedNumber
  decode bytes :=
    match Bytes.split? width bytes with
    | some (front, rest) => .ok (Bytes.toNat front, rest)
    | none => .error .endOfInput

/-- A single byte. -/
def u8 : Codec Fault UInt8 :=
  (fixedWidth 1).iso UInt8.ofNat UInt8.toNat

/-- A signed number of two bytes. -/
def i16 : Codec Fault Int16 :=
  (fixedWidth 2).iso (fun n => (UInt16.ofNat n).toInt16) (fun v => v.toUInt16.toNat)

/-- A signed number of four bytes. -/
def i32 : Codec Fault Int32 :=
  (fixedWidth 4).iso (fun n => (UInt32.ofNat n).toInt32) (fun v => v.toUInt32.toNat)

/-- A signed number of eight bytes. -/
def i64 : Codec Fault Int64 :=
  (fixedWidth 8).iso (fun n => (UInt64.ofNat n).toInt64) (fun v => v.toUInt64.toNat)

/-- An unsigned number of four bytes. -/
def u32 : Codec Fault UInt32 :=
  (fixedWidth 4).iso UInt32.ofNat UInt32.toNat

/-- An unsigned number of eight bytes. -/
def u64 : Codec Fault UInt64 :=
  (fixedWidth 8).iso UInt64.ofNat UInt64.toNat

/-- The bit pattern of a single-precision number. -/
def f32 : Codec Fault Float32Bits := u32

/-- The bit pattern of a double-precision number. -/
def f64 : Codec Fault Float64Bits := u64

/-- A truth value: one byte, written as zero or one; any byte but zero reads as true. -/
def bool : Codec Fault Bool :=
  u8.iso (fun b => b != 0) (fun v => if v then 1 else 0)

/-- A value that may be absent, behind a truth value. -/
def optional {α : Type} (codec : Codec Fault α) : Codec Fault (Option α) :=
  Codec.option bool codec

end Wire

end Playhead
