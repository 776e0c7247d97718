import Playhead.Wire.Fault
import Playhead.Zlib.Bits

/-!
# Prefix codes from code lengths

A prefix code is a binary tree with a symbol at each leaf: a zero bit goes left, a one bit right.
The format transmits only the **length** of each symbol's code. The tree is the one that places
the symbols, shorter codes first and equal lengths in order of the symbols, each at the leftmost
free place of its depth (`Playhead.Zlib.PrefixCode.ofLengths`).

Lengths must fill the tree exactly (`Playhead.Zlib.isComplete`), with one licence: a code of a
single symbol is of **one bit**, and leaves half of the tree free, and a code of no symbol leaves
all of it free (`Playhead.Zlib.isSparse`). A bit that leads to a free place is refused at once; only
bits that lead to no symbol yet count as cut off, and no bits at all do so in every code.
-/

namespace Playhead.Zlib

open Wire (Fault)

/-- The greatest length of a code. -/
def maxCodeLength : Nat := 15

/-- The subtree of a code below some place. -/
inductive Subtree where
  | vacant
  | symbol (value : Nat)
  | branch (zero one : Subtree)

/-- A prefix code; the code of each symbol has at least one bit. -/
structure PrefixCode where
  zero : Subtree
  one : Subtree

/-- The tree that holds the first symbols of `pending`, pairs of a code length and a symbol, at the
leftmost places at or below `depth`, and the symbols that found no place. -/
def Subtree.grow : Nat → Nat → List (Nat × Nat) → Subtree × List (Nat × Nat)
  | _, _, [] => (.vacant, [])
  | room, depth, (length, value) :: pending =>
    if length ≤ depth then (.symbol value, pending)
    else
      match room with
      | 0 => (.vacant, (length, value) :: pending)
      | room + 1 =>
        let (zero, pending) := grow room (depth + 1) ((length, value) :: pending)
        let (one, pending) := grow room (depth + 1) pending
        (.branch zero one, pending)

/-- The symbols that have a code, shorter codes first. -/
def codeOrder (lengths : List Nat) : List (Nat × Nat) :=
  (lengths.zipIdx.filter fun entry => entry.1 ≠ 0).mergeSort fun a b => a.1 ≤ b.1

/-- The prefix code in which symbol `s` has a code of `lengths[s]` bits, or none for zero. -/
def PrefixCode.ofLengths (lengths : List Nat) : PrefixCode :=
  let (zero, pending) := Subtree.grow (maxCodeLength - 1) 1 (codeOrder lengths)
  let (one, _) := Subtree.grow (maxCodeLength - 1) 1 pending
  ⟨zero, one⟩

/-- How many places of greatest depth a code of some length takes up; no code takes up none. -/
def placesOf (length : Nat) : Nat :=
  if length = 0 then 0 else Nat.pow 2 (maxCodeLength - length)

/-- How many places of greatest depth codes of these lengths take up. -/
def occupied (lengths : List Nat) : Nat :=
  lengths.foldl (fun taken length => taken + placesOf length) 0

/-- Whether codes of these lengths fill the tree exactly. -/
def isComplete (lengths : List Nat) : Bool :=
  occupied lengths == Nat.pow 2 maxCodeLength

/-- Whether at most one symbol has a code, and that code is of one bit. -/
def isSparse (lengths : List Nat) : Bool :=
  match lengths.filter (· ≠ 0) with
  | [] => true
  | [length] => length == 1
  | _ => false

/-- Whether a code may have these lengths. -/
def isUsable (lengths : List Nat) : Bool :=
  isComplete lengths || isSparse lengths

/-- Follows the bits from a place in the tree to a symbol. -/
def Subtree.walk : Subtree → Bits → Option (Option Nat × Bits)
  | .vacant, bits => some (none, bits)
  | .symbol value, bits => some (some value, bits)
  | .branch _ _, [] => none
  | .branch zero one, b :: bits => if b then one.walk bits else zero.walk bits

/-- The symbol whose code the bits start with. -/
def PrefixCode.decode (code : PrefixCode) (bits : Bits) : Except Fault (Nat × Bits) :=
  match bits with
  | [] => .error .incompleteStream
  | b :: rest =>
    match (if b then code.one else code.zero).walk rest with
    | some (some value, rest) => .ok (value, rest)
    | some (none, _) => .error .corruptStream
    | none => .error .incompleteStream

theorem Subtree.walk_length {tree : Subtree} {bits rest : Bits} {found : Option Nat}
    (h : tree.walk bits = some (found, rest)) : rest.length ≤ bits.length := by
  fun_induction Subtree.walk tree bits with
  | case1 bits => simp only [Option.some.injEq, Prod.mk.injEq] at h; simp [h.2]
  | case2 value bits => simp only [Option.some.injEq, Prod.mk.injEq] at h; simp [h.2]
  | case3 => simp at h
  | case4 zero one bits ih => exact Nat.le_succ_of_le (ih h)
  | case5 zero one b bits _ ih => exact Nat.le_succ_of_le (ih h)

theorem PrefixCode.decode_length {code : PrefixCode} {bits rest : Bits} {value : Nat}
    (h : code.decode bits = .ok (value, rest)) : rest.length < bits.length := by
  unfold PrefixCode.decode at h
  split at h
  · simp at h
  · split at h
    · next hw =>
      simp only [Except.ok.injEq, Prod.mk.injEq] at h
      obtain ⟨rfl, rfl⟩ := h
      have := Subtree.walk_length hw
      rw [List.length_cons]
      omega
    · simp at h
    · simp at h

end Playhead.Zlib
