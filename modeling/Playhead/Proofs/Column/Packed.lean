import Mathlib.Algebra.Group.Nat.Defs
import Playhead.Column.Packed

/-!
# A packed array is an array

Writing an entry of a packed array changes that entry and no other
(`Playhead.PackedArray.get_set`), whatever the width; the entry read back is the written value cut
to the width. Bits are compared one by one, so nothing is asked of the padding.
-/

namespace Playhead

/-! ### Entries of a word -/

/-- The mask of a width is the greatest number of that width. -/
theorem toNat_lowOnes {bits : Nat} (h : bits < 64) : (lowOnes bits).toNat = 2 ^ bits - 1 := by
  have hpow : 2 ^ bits < 2 ^ 64 := Nat.pow_lt_pow_right (by decide) h
  have hbits : (UInt64.ofNat bits).toNat % 64 = bits := by
    rw [UInt64.toNat_ofNat', Nat.mod_eq_of_lt (by omega : bits < 2 ^ 64), Nat.mod_eq_of_lt h]
  have hshift : ((1 : UInt64) <<< UInt64.ofNat bits).toNat = 2 ^ bits := by
    rw [UInt64.toNat_shiftLeft, hbits, UInt64.toNat_one, Nat.shiftLeft_eq, Nat.one_mul,
      Nat.mod_eq_of_lt hpow]
  rw [lowOnes, UInt64.toNat_sub_of_le, hshift, UInt64.toNat_one]
  rw [UInt64.le_iff_toNat_le, hshift]
  exact Nat.two_pow_pos bits

theorem getLsbD_lowOnes {bits : Nat} (h : bits < 64) (k : Nat) :
    (lowOnes bits).toBitVec.getLsbD k = decide (k < bits) := by
  rw [← BitVec.testBit_toNat, UInt64.toNat_toBitVec, toNat_lowOnes h, Nat.testBit_two_pow_sub_one]

/-- Shifting a word to the right shifts its bits. -/
theorem toBitVec_shiftRight {w : UInt64} {s : Nat} (hs : s < 64) :
    (w >>> UInt64.ofNat s).toBitVec = w.toBitVec >>> s := by
  have hmod : ((UInt64.ofNat s).toBitVec % 64).toNat = s := by
    rw [BitVec.toNat_umod, UInt64.toNat_toBitVec, UInt64.toNat_ofNat']
    change s % 2 ^ 64 % 64 = s
    omega
  rw [UInt64.toBitVec_shiftRight, BitVec.ushiftRight_eq', hmod]

/-- Shifting a word to the left shifts its bits. -/
theorem toBitVec_shiftLeft {w : UInt64} {s : Nat} (hs : s < 64) :
    (w <<< UInt64.ofNat s).toBitVec = w.toBitVec <<< s := by
  have hmod : ((UInt64.ofNat s).toBitVec % 64).toNat = s := by
    rw [BitVec.toNat_umod, UInt64.toNat_toBitVec, UInt64.toNat_ofNat']
    change s % 2 ^ 64 % 64 = s
    omega
  rw [UInt64.toBitVec_shiftLeft, BitVec.shiftLeft_eq', hmod]

/-- The bits of an entry are bits of its word. -/
theorem getLsbD_entryAt {word : UInt64} {shift bits : Nat} (hs : shift < 64) (hb : bits < 64)
    (k : Nat) : (entryAt word shift bits).toBitVec.getLsbD k =
      (word.toBitVec.getLsbD (shift + k) && decide (k < bits)) := by
  rw [entryAt, UInt64.toBitVec_and, BitVec.getLsbD_and, getLsbD_lowOnes hb, toBitVec_shiftRight hs,
    BitVec.getLsbD_ushiftRight]

/-- **Writing an entry replaces its own bits only.** -/
theorem getLsbD_withEntry {word value : UInt64} {shift bits : Nat} (hs : shift < 64)
    (hb : bits < 64) {k : Nat} (hk : k < 64) :
    (withEntry word shift bits value).toBitVec.getLsbD k =
      if shift ≤ k ∧ k < shift + bits then value.toBitVec.getLsbD (k - shift)
      else word.toBitVec.getLsbD k := by
  rw [withEntry, UInt64.toBitVec_or, UInt64.toBitVec_and, UInt64.toBitVec_not,
    toBitVec_shiftLeft hs, toBitVec_shiftLeft hs, UInt64.toBitVec_and, BitVec.getLsbD_or,
    BitVec.getLsbD_and, BitVec.getLsbD_not, BitVec.getLsbD_shiftLeft, BitVec.getLsbD_shiftLeft,
    BitVec.getLsbD_and, getLsbD_lowOnes hb]
  by_cases h1 : shift ≤ k
  · by_cases h2 : k < shift + bits
    · have h3 : k - shift < bits := by omega
      simp [hk, h1, h2, h3, Nat.not_lt.2 h1]
    · have h3 : ¬ k - shift < bits := by omega
      simp [hk, h2, h3]
  · simp [hk, h1, Nat.lt_of_not_le h1]

/-- The lowest bits of a value. -/
def cut (value : UInt64) (bits : Nat) : UInt64 := value &&& lowOnes bits

/-- Cutting a number to a width keeps the bits below it. -/
theorem getLsbD_cut {value : UInt64} {bits : Nat} (hb : bits < 64) (k : Nat) :
    (cut value bits).toBitVec.getLsbD k = (value.toBitVec.getLsbD k && decide (k < bits)) := by
  rw [cut, UInt64.toBitVec_and, BitVec.getLsbD_and, getLsbD_lowOnes hb]

/-- Cutting a number to a width takes it modulo two to the width. -/
theorem toNat_cut {value : UInt64} {bits : Nat} (hb : bits < 64) :
    (cut value bits).toNat = value.toNat % 2 ^ bits := by
  rw [cut, UInt64.toNat_and, toNat_lowOnes hb, Nat.and_two_pow_sub_one_eq_mod]

theorem UInt64.eq_of_getLsbD {v w : UInt64}
    (h : ∀ k < 64, v.toBitVec.getLsbD k = w.toBitVec.getLsbD k) : v = w :=
  UInt64.toBitVec_inj.1 (BitVec.eq_of_getLsbD_eq fun k hk => h k hk)

/-- A number that fits a width is not cut. -/
theorem cut_eq_self {value : UInt64} {bits : Nat} (hb : bits < 64)
    (h : value.toNat < 2 ^ bits) : cut value bits = value := by
  refine UInt64.eq_of_getLsbD fun k _ => ?_
  rw [getLsbD_cut hb]
  by_cases hk : k < bits
  · simp [hk]
  · have hlt : value.toNat < 2 ^ k :=
      Nat.lt_of_lt_of_le h (Nat.pow_le_pow_right (by decide) (Nat.le_of_not_lt hk))
    rw [← BitVec.testBit_toNat, UInt64.toNat_toBitVec, Nat.testBit_lt_two_pow hlt, Bool.false_and]

/-- An entry that is written is there, cut to the width. -/
theorem entryAt_withEntry_self {word value : UInt64} {shift bits : Nat} (hs : shift < 64)
    (hb : bits < 64) (hfit : shift + bits ≤ 64) :
    entryAt (withEntry word shift bits value) shift bits = cut value bits := by
  refine UInt64.eq_of_getLsbD fun k _ => ?_
  rw [getLsbD_entryAt hs hb, getLsbD_cut hb]
  by_cases hk : k < bits
  · rw [getLsbD_withEntry hs hb (by omega), if_pos (by omega), Nat.add_sub_cancel_left]
  · simp [hk]

/-- An entry that is written leaves the others of its word alone. -/
theorem entryAt_withEntry_of_disjoint {word value : UInt64} {shift shift' bits : Nat}
    (hs : shift < 64) (hs' : shift' < 64) (hb : bits < 64) (hfit : shift' + bits ≤ 64)
    (h : shift' + bits ≤ shift ∨ shift + bits ≤ shift') :
    entryAt (withEntry word shift bits value) shift' bits = entryAt word shift' bits := by
  refine UInt64.eq_of_getLsbD fun k _ => ?_
  rw [getLsbD_entryAt hs' hb, getLsbD_entryAt hs' hb]
  by_cases hk : k < bits
  · rw [getLsbD_withEntry hs hb (by omega), if_neg (by omega)]
  · simp [hk]

/-! ### Entries of an array -/

namespace PackedArray

/-- An array that has as many words as its entries take. -/
structure WellFormed (a : PackedArray) : Prop where
  pos : 0 < a.bits
  lt : a.bits < 64
  words : a.words.size = wordCount a.bits a.length

theorem perWord_pos {bits : Nat} (hb : bits < 64) (hp : 0 < bits) : 0 < perWord bits :=
  Nat.div_pos (Nat.le_of_lt hb) hp

namespace WellFormed

variable {a : PackedArray}

/-- An entry does not cross the end of its word. -/
theorem shift_add_le (h : a.WellFormed) (i : Nat) : a.shift i + a.bits ≤ 64 := by
  have hper := perWord_pos h.lt h.pos
  have hlt := Nat.mod_lt i hper
  calc a.shift i + a.bits = (i % perWord a.bits + 1) * a.bits := by
        rw [shift, Nat.add_mul, Nat.one_mul]
    _ ≤ perWord a.bits * a.bits := Nat.mul_le_mul_right _ hlt
    _ ≤ 64 := Nat.div_mul_le_self 64 a.bits

theorem shift_lt (h : a.WellFormed) (i : Nat) : a.shift i < 64 := by
  have := h.shift_add_le i
  have := h.pos
  omega

/-- Every entry has a word. -/
theorem wordIndex_lt (h : a.WellFormed) {i : Nat} (hi : i < a.length) :
    a.wordIndex i < a.words.size := by
  have hper := perWord_pos h.lt h.pos
  rw [h.words, wordIndex, wordCount, Nat.div_lt_iff_lt_mul hper]
  have hdiv := Nat.div_add_mod (a.length + perWord a.bits - 1) (perWord a.bits)
  have hmod := Nat.mod_lt (a.length + perWord a.bits - 1) hper
  rw [Nat.mul_comm] at hdiv
  omega

theorem set (h : a.WellFormed) (i : Nat) (v : UInt64) : (a.set i v).WellFormed where
  pos := h.pos
  lt := h.lt
  words := by rw [PackedArray.set, Array.size_modify]; exact h.words

/-- Zeros hold together. -/
theorem zeros {bits : Nat} (hp : 0 < bits) (hb : bits < 64) (length : Nat) :
    (PackedArray.zeros bits length).WellFormed where
  pos := hp
  lt := hb
  words := Array.size_replicate

end WellFormed

/-- Two entries of one word do not overlap. -/
theorem shift_disjoint {a : PackedArray} {i j : Nat} (hij : i ≠ j)
    (hword : a.wordIndex i = a.wordIndex j) :
    a.shift j + a.bits ≤ a.shift i ∨ a.shift i + a.bits ≤ a.shift j := by
  have hi := Nat.div_add_mod i (perWord a.bits)
  have hj := Nat.div_add_mod j (perWord a.bits)
  have hne : i % perWord a.bits ≠ j % perWord a.bits := by
    simp only [wordIndex] at hword
    rw [hword] at hi
    omega
  simp only [shift]
  rcases Nat.lt_or_gt_of_ne hne with hlt | hlt
  · refine .inr ?_
    calc _ = (i % perWord a.bits + 1) * a.bits := by rw [Nat.add_mul, Nat.one_mul]
      _ ≤ _ := Nat.mul_le_mul_right _ hlt
  · refine .inl ?_
    calc _ = (j % perWord a.bits + 1) * a.bits := by rw [Nat.add_mul, Nat.one_mul]
      _ ≤ _ := Nat.mul_le_mul_right _ hlt

theorem get_eq (a : PackedArray) (j : Nat) :
    a.get j = entryAt (a.words[a.wordIndex j]?.getD 0) (a.shift j) a.bits := by
  rw [get, Array.getD_eq_getD_getElem?]

theorem get_set_eq (a : PackedArray) (i : Nat) (v : UInt64) (j : Nat) :
    (a.set i v).get j = entryAt (((a.words.modify (a.wordIndex i) fun w =>
      withEntry w (a.shift i) a.bits v)[a.wordIndex j]?).getD 0) (a.shift j) a.bits :=
  get_eq _ j

/-- **Writing an entry leaves the others alone**, also those that are in its word. -/
theorem get_set_of_ne {a : PackedArray} (h : a.WellFormed) {i j : Nat} (hji : j ≠ i)
    (v : UInt64) : (a.set i v).get j = a.get j := by
  rw [get_set_eq, get_eq, Array.getElem?_modify]
  by_cases hword : a.wordIndex i = a.wordIndex j
  · rw [if_pos hword]
    cases a.words[a.wordIndex j]? with
    | none => rw [Option.map_none]
    | some w =>
      exact entryAt_withEntry_of_disjoint (h.shift_lt i) (h.shift_lt j) h.lt (h.shift_add_le j)
        (shift_disjoint (Ne.symm hji) hword)
  · rw [if_neg hword]

/-- **Writing an entry changes that entry alone.** -/
theorem get_set {a : PackedArray} (h : a.WellFormed) {i : Nat} (hi : i < a.length) (v : UInt64)
    (j : Nat) : (a.set i v).get j = if j = i then cut v a.bits else a.get j := by
  split
  · next hji =>
    subst hji
    rw [get_set_eq, Array.getElem?_modify, if_pos rfl,
      Array.getElem?_eq_getElem (h.wordIndex_lt hi), Option.map_some, Option.getD_some]
    exact entryAt_withEntry_self (h.shift_lt j) h.lt (h.shift_add_le j)
  · next hji => exact get_set_of_ne h hji v

/-- All entries of zeros are zero. -/
theorem get_zeros {bits : Nat} (hp : 0 < bits) (hb : bits < 64) (length i : Nat) :
    (zeros bits length).get i = 0 := by
  have hwf := WellFormed.zeros hp hb length
  have hword : ((zeros bits length).words.getD ((zeros bits length).wordIndex i) 0) = 0 := by
    rw [Array.getD_eq_getD_getElem?, zeros, Array.getElem?_replicate]
    split <;> rfl
  refine UInt64.eq_of_getLsbD fun k _ => ?_
  rw [get, hword, getLsbD_entryAt (hwf.shift_lt i) hwf.lt]
  simp

/-- **A tabulated array has the tabulated entries**, cut to its width. -/
theorem get_tabulate (bits : Nat) (hp : 0 < bits) (hb : bits < 64) (length : Nat)
    (f : Nat → UInt64) :
    (tabulate bits length f).WellFormed ∧ (tabulate bits length f).bits = bits ∧
      (tabulate bits length f).length = length ∧
      ∀ j < length, (tabulate bits length f).get j = cut (f j) bits := by
  -- the first `n` entries are there after `n` steps
  have hsteps : ∀ n ≤ length,
      let a := (List.range n).foldl (fun a i => a.set i (f i)) (zeros bits length)
      a.WellFormed ∧ a.bits = bits ∧ a.length = length ∧ ∀ j < n, a.get j = cut (f j) bits := by
    intro n
    induction n with
    | zero =>
      exact fun _ => ⟨.zeros hp hb length, rfl, rfl, fun j hj => absurd hj (Nat.not_lt_zero j)⟩
    | succ n ih =>
      intro hn
      obtain ⟨hwf, hbits, hlen, hget⟩ := ih (by omega)
      simp only [List.range_succ, List.foldl_append, List.foldl_cons, List.foldl_nil]
      refine ⟨hwf.set n (f n), hbits, hlen, fun j hj => ?_⟩
      rw [get_set hwf (by omega), hbits]
      split
      · next hjn => rw [hjn]
      · next hjn => exact hget j (by omega)
  exact hsteps length (Nat.le_refl _)

/-- An array of another width has the same numbers, cut to it. -/
theorem get_resized (a : PackedArray) (bits : Nat) (hp : 0 < bits) (hb : bits < 64) :
    (a.resized bits).WellFormed ∧ (a.resized bits).bits = bits ∧
      (a.resized bits).length = a.length ∧
      ∀ j < a.length, (a.resized bits).get j = cut (a.get j) bits :=
  get_tabulate bits hp hb a.length a.get

end PackedArray

end Playhead
