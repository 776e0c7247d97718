/-!
# Byte strings and big-endian numbers

Everything that is stored or sent is a finite list of bytes. This file fixes the type
`Playhead.Bytes` and the two operations every reader and writer below is made of:

* `Playhead.Bytes.ofNat`, `Playhead.Bytes.toNat` – the bytes of a number, **most significant
  first**, and the number that a run of bytes spells;
* `Playhead.Bytes.split?` – the first `n` bytes and what follows them, or nothing when there are
  fewer than `n`.
-/

namespace Playhead

/-- A byte string. -/
abbrev Bytes := List UInt8

namespace Bytes

/-- The lowest `width` base-256 digits of `n`, most significant first. -/
def ofNat : Nat → Nat → Bytes
  | 0, _ => []
  | width + 1, n => UInt8.ofNat (n / Nat.pow 256 width) :: ofNat width n

/-- The number whose base-256 digits are the given bytes, most significant first. -/
def toNat (bytes : Bytes) : Nat :=
  bytes.foldl (fun n b => n * 256 + b.toNat) 0

/-- The first `n` bytes and the rest; nothing when the string is shorter. -/
def split? (n : Nat) (bytes : Bytes) : Option (Bytes × Bytes) :=
  let (front, rest) := bytes.splitAt n
  if front.length = n then some (front, rest) else none

@[simp] theorem length_ofNat (width n : Nat) : (ofNat width n).length = width := by
  induction width with
  | zero => rfl
  | succ width ih => simp [ofNat, ih]

theorem split?_append (front rest : Bytes) :
    split? front.length (front ++ rest) = some (front, rest) := by
  simp [split?]

theorem split?_eq_some_iff {n : Nat} {bytes front rest : Bytes} :
    split? n bytes = some (front, rest) ↔ bytes = front ++ rest ∧ front.length = n := by
  constructor
  · intro h
    simp only [split?, List.splitAt_eq] at h
    split at h
    · next hn =>
      simp only [Option.some.injEq, Prod.mk.injEq] at h
      obtain ⟨rfl, rfl⟩ := h
      exact ⟨(List.take_append_drop n bytes).symm, hn⟩
    · simp at h
  · rintro ⟨rfl, rfl⟩
    exact split?_append front rest

end Bytes

end Playhead
