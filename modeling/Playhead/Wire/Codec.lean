import Playhead.Bytes
import Playhead.Wire.Fault

/-!
# Codecs and how they are put together

A **codec** is a writer and a reader of one type (`Playhead.Wire.Codec`). The writer may refuse a
value; the reader takes a byte string and gives a value with the bytes that follow it, so that
readers run one after another on one string.

Everything on the wire is built from few numbers and texts by the combinators here:

* `Codec.pair`, `Codec.iso`, `Codec.unit` – the fields of a record, in order;
* `Codec.option` – a flag, then perhaps a value;
* `Codec.oneOf` – the number of a variant, then what that variant carries.

Each of them is stated without reference to what it is applied to, so that a law of codecs
(reading back, refusing a cut-off string) needs one lemma per combinator and none per record.
-/

namespace Playhead.Wire

/-- A writer and a reader of values of type `α`, both of which may fail with an `ε`. -/
structure Codec (ε α : Type) where
  /-- The bytes of a value. -/
  encode : α → Except ε Bytes
  /-- The value at the start of a byte string, and the bytes after it. -/
  decode : Bytes → Except ε (α × Bytes)

namespace Codec

variable {ε ε' α β : Type}

/-- Nothing at all: no bytes, and one value. -/
def unit : Codec ε Unit where
  encode _ := .ok []
  decode bytes := .ok ((), bytes)

/-- One value after the other. -/
def pair (first : Codec ε α) (second : Codec ε β) : Codec ε (α × β) where
  encode v := do
    let front ← first.encode v.1
    let back ← second.encode v.2
    return front ++ back
  decode bytes := do
    let (a, rest) ← first.decode bytes
    let (b, rest) ← second.decode rest
    return ((a, b), rest)

/-- The same bytes for another form of the same values. -/
def iso (codec : Codec ε α) (build : α → β) (fields : β → α) : Codec ε β where
  encode v := codec.encode (fields v)
  decode bytes := do
    let (a, rest) ← codec.decode bytes
    return (build a, rest)

/-- The same codec with its errors renamed. -/
def mapError (codec : Codec ε α) (f : ε → ε') : Codec ε' α where
  encode v := (codec.encode v).mapError f
  decode bytes := (codec.decode bytes).mapError f

/-- Reads `n` values in a row; `done` holds those already read, last first. -/
def decodeMany (codec : Codec ε α) : Nat → List α → Bytes → Except ε (List α × Bytes)
  | 0, done, bytes => .ok (done.reverse, bytes)
  | n + 1, done, bytes =>
    match codec.decode bytes with
    | .ok (a, rest) => decodeMany codec n (a :: done) rest
    | .error e => .error e

/-- A list: its length as `length` writes it, then its members. -/
def list (length : Codec ε Nat) (codec : Codec ε α) : Codec ε (List α) where
  encode vs := do
    let count ← length.encode vs.length
    let members ← vs.mapM codec.encode
    return count ++ members.flatten
  decode bytes := do
    let (count, rest) ← length.decode bytes
    codec.decodeMany count [] rest

/-- A value that may be absent: a flag, then the value if the flag says so. -/
def option (flag : Codec ε Bool) (codec : Codec ε α) : Codec ε (Option α) where
  encode
    | none => flag.encode false
    | some v => do
      let front ← flag.encode true
      let back ← codec.encode v
      return front ++ back
  decode bytes := do
    let (present, rest) ← flag.decode bytes
    if present then
      let (v, rest) ← codec.decode rest
      return (some v, rest)
    else
      return (none, rest)

end Codec

/-- One variant of a type `α`: what it carries, how that is written, and how it sits in `α`. -/
structure Variant (α : Type) where
  /-- What the variant carries. -/
  Payload : Type
  /-- How that is written. -/
  codec : Codec Fault Payload
  /-- The value with the given payload. -/
  inject : Payload → α
  /-- The payload of a value of this variant. -/
  project : α → Option Payload

/-- The bytes of a value that belongs to one of the variants; `tag` is the number of the first. A
value of none of them has no number to be written under, and the first free one is reported. -/
def Variant.encodeFrom {α : Type} (tagCodec : Codec Fault Int32) (v : α) :
    Int32 → List (Variant α) → Except Fault Bytes
  | tag, [] => .error (.unknownVariant tag)
  | tag, variant :: others =>
    match variant.project v with
    | some payload => do
      let front ← tagCodec.encode tag
      let back ← variant.codec.encode payload
      return front ++ back
    | none => encodeFrom tagCodec v (tag + 1) others

/-- A type given by its variants, numbered from zero in the order of the list. -/
def Codec.oneOf {α : Type} (tagCodec : Codec Fault Int32) (variants : List (Variant α)) :
    Codec Fault α where
  encode v := Variant.encodeFrom tagCodec v 0 variants
  decode bytes := do
    let (tag, rest) ← tagCodec.decode bytes
    match if tag < 0 then none else variants[tag.toInt.toNat]? with
    | some variant =>
      let (payload, rest) ← variant.codec.decode rest
      return (variant.inject payload, rest)
    | none => .error (.unknownVariant tag)

end Playhead.Wire
