import Playhead.Wire.Varint

/-!
# Texts and runs of bytes

A text is its length in bytes followed by its UTF-8 form; a reader refuses one that announces more
than `Playhead.Wire.textLimit` bytes before looking at them. `Playhead.Wire.Utf8.decode` is strict:
no surrogates, no overlong forms, nothing above U+10FFFF. When it refuses it says **where**, and
how many bytes of the broken sequence were still acceptable.

A run of bytes is its length followed by the bytes as they are. Announcing more bytes than there
are is an `endOfInput` for a text and a `lengthMismatch` for a run.
-/

namespace Playhead.Wire

namespace Utf8

/-- The bytes of a list of characters. -/
def encode (cs : List Char) : Bytes :=
  cs.flatMap String.utf8EncodeChar

/-- What a leading byte announces: how many bytes follow, the bits it contributes itself, and the
range of the next byte. The ranges that are narrower than `0x80`–`0xBF` leave out overlong forms,
surrogates and values above U+10FFFF. -/
def lead? (a : UInt8) : Option (Nat × Nat × UInt8 × UInt8) :=
  if a < 0x80 then some (0, a.toNat, 0x80, 0xBF)
  else if a < 0xC2 then none
  else if a < 0xE0 then some (1, a.toNat % 32, 0x80, 0xBF)
  else if a = 0xE0 then some (2, 0, 0xA0, 0xBF)
  else if a = 0xED then some (2, 13, 0x80, 0x9F)
  else if a < 0xF0 then some (2, a.toNat % 16, 0x80, 0xBF)
  else if a = 0xF0 then some (3, 0, 0x90, 0xBF)
  else if a < 0xF4 then some (3, a.toNat % 8, 0x80, 0xBF)
  else if a = 0xF4 then some (3, 4, 0x80, 0x8F)
  else none

/-- The bytes that follow a leading byte: `n` of them, the first between `low` and `high` and each
further one a plain continuation byte, six bits apiece. `seen` counts the bytes accepted so far. -/
def decodeTail : Nat → Nat → Nat → UInt8 → UInt8 → Bytes → Except BrokenText (Nat × Bytes)
  | 0, _, value, _, _, rest => .ok (value, rest)
  | _ + 1, _, _, _, _, [] => .error .cutOff
  | n + 1, seen, value, low, high, b :: rest =>
    if low ≤ b ∧ b ≤ high then
      decodeTail n (seen + 1) (value * 64 + b.toNat % 64) 0x80 0xBF rest
    else .error (.malformed seen)

theorem length_of_decodeTail {n seen value value' : Nat} {low high : UInt8} {rest rest' : Bytes}
    (h : decodeTail n seen value low high rest = .ok (value', rest')) :
    rest'.length ≤ rest.length := by
  induction n generalizing seen value low high rest with
  | zero => simp only [decodeTail, Except.ok.injEq, Prod.mk.injEq] at h; simp [h.2]
  | succ n ih =>
    cases rest with
    | nil => simp [decodeTail] at h
    | cons b rest =>
      simp only [decodeTail] at h
      split at h
      · exact Nat.le_succ_of_le (ih h)
      · simp at h

/-- The scalar value that starts with byte `a`, and the bytes after it. -/
def decodeScalar (a : UInt8) (rest : Bytes) : Except BrokenText (Nat × Bytes) :=
  match lead? a with
  | none => .error (.malformed 1)
  | some (following, value, low, high) => decodeTail following 1 value low high rest

theorem length_of_decodeScalar {a : UInt8} {rest rest' : Bytes} {value : Nat}
    (h : decodeScalar a rest = .ok (value, rest')) : rest'.length ≤ rest.length := by
  unfold decodeScalar at h
  split at h
  · simp at h
  · exact length_of_decodeTail h

/-- Reads characters to the end. `place` counts the bytes read so far and `done` holds the
characters read so far, last first. -/
def decodeFrom (place : Nat) (done : List Char) :
    Bytes → Except (Nat × BrokenText) (List Char)
  | [] => .ok done.reverse
  | a :: rest =>
    match h : decodeScalar a rest with
    | .ok (value, rest') =>
      have := length_of_decodeScalar h
      decodeFrom (place + (Char.ofNat value).utf8Size) (Char.ofNat value :: done) rest'
    | .error cause => .error (place, cause)
termination_by bytes => bytes.length
decreasing_by simp; omega

/-- The characters of a byte string, or where it is broken and how. -/
def decode (bytes : Bytes) : Except (Nat × BrokenText) (List Char) :=
  decodeFrom 0 [] bytes

end Utf8

/-- The greatest number of bytes that a text may announce. -/
def textLimit : Nat := 32767

/-- A text behind its length in bytes. The limit is the reader's: longer texts can be written. -/
def text : Codec Fault String where
  encode s := do
    let bytes := Utf8.encode s.toList
    let front ← length.encode bytes.length
    return front ++ bytes
  decode bytes := do
    let (count, rest) ← length.decode bytes
    if textLimit < count then .error (.oversizedText count textLimit)
    else
      match Bytes.split? count rest with
      | none => .error .endOfInput
      | some (front, rest) =>
        match Utf8.decode front with
        | .ok cs => return (String.ofList cs, rest)
        | .error (place, cause) => .error (.brokenText place cause)

/-- Exactly `count` bytes; when there are fewer, how many there are. -/
def takeRun (count : Nat) (bytes : Bytes) : Except Fault (Bytes × Bytes) :=
  match Bytes.split? count bytes with
  | some found => .ok found
  | none => .error (.lengthMismatch count bytes.length)

/-- A run of bytes behind its length. -/
def byteRun : Codec Fault Bytes where
  encode bytes := do
    let front ← length.encode bytes.length
    return front ++ bytes
  decode bytes := do
    let (count, rest) ← length.decode bytes
    takeRun count rest

end Playhead.Wire
