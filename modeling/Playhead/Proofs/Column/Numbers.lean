import Playhead.Proofs.Column.Strict

/-!
# Packed storage as an array of numbers

The packed arrays of a width and a length that there are (`Playhead.PackedArray.Reachable`) start as
zeros or as words that were read, padding and all, and are then written to, at any index. Whatever
the words hold, they are an array of numbers below two to the width: a call writes one of them
(`Playhead.PackedArray.Reachable.toNat_get_set`), and the move to another width keeps them all
(`Playhead.PackedArray.Reachable.array_of_numbers`).
-/

namespace Playhead.PackedArray

/-- **The packed arrays that there are**: zeros, or words that were read, and then any calls. An
index need not be below the length; if there is no word for it nothing is written. -/
inductive Reachable (bits length : Nat) : PackedArray → Prop
  | zeros : Reachable bits length (zeros bits length)
  | read {bytes rest : Bytes} {a : PackedArray} (h : decode bits length bytes = .ok (a, rest)) :
      Reachable bits length a
  | set {a : PackedArray} (h : Reachable bits length a) (i : Nat) (v : UInt64) :
      Reachable bits length (a.set i v)

namespace Reachable

variable {bits length : Nat} {a : PackedArray}

/-- Whatever was read or written, the array holds together and has its width and its length. -/
theorem shape (hp : 0 < bits) (hb : bits < 64) (h : Reachable bits length a) :
    a.WellFormed ∧ a.bits = bits ∧ a.length = length := by
  induction h with
  | zeros => exact ⟨.zeros hp hb length, rfl, rfl⟩
  | read h => exact ((decode_eq_ok_iff hp hb).1 h).1
  | set _ i v ih =>
    obtain ⟨hwf, hbits, hlength⟩ := ih
    exact ⟨hwf.set i v, hbits, hlength⟩

/-- After a row of calls it is still one of those that there are. -/
theorem sets (h : Reachable bits length a) (calls : List (Nat × UInt64)) :
    Reachable bits length (calls.foldl (fun a call => a.set call.1 call.2) a) := by
  induction calls generalizing a with
  | nil => exact h
  | cons call calls ih => exact ih (h.set call.1 call.2)

/-- What is moved to another width is zeros of that width, and then calls. -/
theorem resized (h : Reachable bits length a) (hp : 0 < bits) (hb : bits < 64) (wider : Nat) :
    Reachable wider length (a.resized wider) := by
  obtain ⟨-, -, hlength⟩ := h.shape hp hb
  have hcalls := (zeros : Reachable wider length _).sets
    ((List.range length).map fun i => (i, a.get i))
  rw [List.foldl_map] at hcalls
  rwa [PackedArray.resized, hlength]

/-! ### The numbers of an array -/

/-- **A call writes its number, cut to the width**, and leaves the others alone. -/
theorem toNat_get_set (hp : 0 < bits) (hb : bits < 64) (h : Reachable bits length a) {i : Nat}
    (v : UInt64) {j : Nat} (hj : j < length) :
    ((a.set i v).get j).toNat = if j = i then v.toNat % 2 ^ bits else (a.get j).toNat := by
  obtain ⟨hwf, hbits, hlength⟩ := h.shape hp hb
  split
  · next hji => rw [get_set hwf (hji ▸ hlength ▸ hj), if_pos hji, hbits, toNat_cut hb]
  · next hji => rw [get_set_of_ne hwf hji]

/-- An entry is below two to the width. -/
theorem toNat_get_lt (hp : 0 < bits) (hb : bits < 64) (h : Reachable bits length a) (j : Nat) :
    (a.get j).toNat < 2 ^ bits := by
  obtain ⟨-, hbits, -⟩ := h.shape hp hb
  have hget : a.get j = cut (a.words.getD (a.wordIndex j) 0 >>> UInt64.ofNat (a.shift j)) bits := by
    rw [PackedArray.get, hbits, entryAt, cut]
  rw [hget, toNat_cut hb]
  exact Nat.mod_lt _ (Nat.two_pow_pos bits)

/-- **Packed storage is an array of numbers of its width**, whatever it was read from and whatever
was written to it. A call below the length finds its word; the number that it writes is there modulo
two to the width, and the others are left alone. At a width that is not smaller there are the same
numbers. -/
theorem array_of_numbers (hbits : 1 ≤ bits ∧ bits ≤ 63) (h : Reachable bits length a) :
    (∀ i < length, a.strictGet i = .ok (a.get i) ∧ ∀ v, a.strictSet i v = .ok (a.set i v) ∧
      ((a.set i v).get i).toNat = v.toNat % 2 ^ bits ∧
      ∀ j < length, j ≠ i → (a.set i v).get j = a.get j) ∧
    ∀ wider, bits ≤ wider → wider ≤ 63 →
      strictTabulate wider length a.strictGet = .ok (a.resized wider) ∧
      Reachable wider length (a.resized wider) ∧
      ∀ i < length, (a.resized wider).get i = a.get i := by
  have hp : 0 < bits := hbits.1
  have hb : bits < 64 := Nat.lt_succ_of_le hbits.2
  obtain ⟨hwf, -, hlength⟩ := h.shape hp hb
  constructor
  · intro i hi
    refine ⟨hwf.strictGet_eq (hlength ▸ hi), fun v => ⟨hwf.strictSet_eq (hlength ▸ hi) v, ?_,
      fun j _ hji => get_set_of_ne hwf hji v⟩⟩
    rw [h.toNat_get_set hp hb v hi, if_pos rfl]
  intro wider hle hwider
  refine ⟨?_, h.resized hp hb wider, fun i hi => ?_⟩
  · rw [PackedArray.resized, hlength]
    exact strictTabulate_eq (hp.trans_le hle) (Nat.lt_succ_of_le hwider) fun i hi =>
      hwf.strictGet_eq (hlength ▸ hi)
  · -- an entry is not cut, it has room in the wider one
    have hb' : wider < 64 := Nat.lt_succ_of_le hwider
    obtain ⟨-, -, -, hget⟩ := get_resized a wider (hp.trans_le hle) hb'
    rw [hget i (hlength ▸ hi)]
    exact cut_eq_self hb' ((h.toNat_get_lt hp hb i).trans_le (Nat.pow_le_pow_right (by decide) hle))

/-- Two words that were read with all bits set, the four above the twelfth entry too. -/
theorem array_of_numbers_padded : ∃ a rest, decode 5 13 (List.replicate 17 0xFF) = .ok (a, rest) ∧
    ((a.set 11 34).get 11).toNat = 2 ∧ ((a.set 11 34).get 12).toNat = 31 ∧
    (a.resized 15).get 12 = 31 := by
  have hread : decode 5 13 (List.replicate 17 0xFF) =
      .ok (⟨5, 13, Array.replicate 2 0xFFFFFFFFFFFFFFFF⟩, [0xFF]) := by
    decide +kernel
  obtain ⟨hset, hresized⟩ := array_of_numbers (by decide) (.read hread)
  obtain ⟨-, hcall⟩ := hset 11 (by decide)
  obtain ⟨-, hnumber, hothers⟩ := hcall 34
  obtain ⟨-, -, hsame⟩ := hresized 15 (by decide) (by decide)
  refine ⟨_, _, hread, hnumber, ?_, ?_⟩
  · rw [hothers 12 (by decide) (by decide)]
    decide +kernel
  · rw [hsame 12 (by decide)]
    decide +kernel

end Reachable

end Playhead.PackedArray
