import Mathlib.Algebra.Group.Int.Defs
import Mathlib.Algebra.Group.Nat.Defs
import Playhead.Column.Container
import Playhead.Proofs.Column.Packed

/-!
# The forms of a container

A container of any kind is **formed** (`Playhead.Container.Formed`) when what it stores holds
together: there are as many entries as its kind says, and the slots of a palette stay inside it.
Setting an id leaves a formed container formed, whatever the id is and whatever form it takes
(`Playhead.Container.Formed.set`).

What can be lost are high bits, and only in the direct form, whose entries have the width that they
were made or read with. `Playhead.Container.keep` says what a container makes of an id. After an id
has been set, every entry is what the container now keeps of what it was to be
(`Playhead.Container.get_set_eq_keep`): this covers the growth to direct ids, in which all entries
are cut at once. Where ids have room (`Playhead.Container.Roomy`) nothing is cut, and a container is
an array through all its forms (`Playhead.Container.exchange_as_array`).
-/

namespace Playhead

/-! ### Ids as entries -/

/-- Whether an id is a number of so many bits. -/
def FitsIn (bits : Nat) (id : Int32) : Prop := 0 ≤ id.toInt ∧ id.toInt < 2 ^ bits

instance (bits : Nat) (id : Int32) : Decidable (FitsIn bits id) :=
  inferInstanceAs (Decidable (_ ∧ _))

/-- What fits a width fits a greater one. -/
theorem FitsIn.mono {bits bits' : Nat} {id : Int32} (h : FitsIn bits id) (hle : bits ≤ bits') :
    FitsIn bits' id := by
  have hpow : (2 : Int) ^ bits ≤ 2 ^ bits' := by
    exact_mod_cast Nat.pow_le_pow_right (by decide : 0 < 2) hle
  exact ⟨h.1, Int.lt_of_lt_of_le h.2 hpow⟩

/-- An id that is not negative is the number of its entry. -/
theorem toNat_idToEntry {id : Int32} (h : 0 ≤ id.toInt) :
    (idToEntry id).toNat = id.toInt.toNat := by
  have hint : id.toInt64.toInt = id.toInt := Int32.toInt_toInt64 id
  have hnat : (id.toInt64.toUInt64.toNat : Int) = id.toInt := by
    rw [← hint, ← Int64.toInt_toBitVec, BitVec.toInt_eq_toNat_of_lt]
    · rfl
    · have h' := Int64.toInt_toBitVec id.toInt64
      have hlt := Int32.toInt_lt id
      rw [BitVec.toInt_eq_toNat_cond, hint] at h'
      split at h' <;> omega
  rw [idToEntry]
  omega

/-- An id and its entry have the same bits. -/
theorem getLsbD_idToEntry {id : Int32} {k : Nat} (hk : k < 32) :
    (idToEntry id).toBitVec.getLsbD k = id.toBitVec.getLsbD k := by
  have h : (idToEntry id).toBitVec = id.toBitVec.signExtend 64 := rfl
  rw [h, BitVec.getLsbD_signExtend]
  simp [hk, Nat.lt_trans hk (by decide : 32 < 64)]

/-- An entry and its id have the same low bits. -/
theorem getLsbD_entryToId {entry : UInt64} {k : Nat} (hk : k < 32) :
    (entryToId entry).toBitVec.getLsbD k = entry.toBitVec.getLsbD k := by
  have h : (entryToId entry).toBitVec = entry.toBitVec.setWidth 32 := rfl
  rw [h, BitVec.getLsbD_setWidth]
  simp [hk]

theorem Int32.eq_of_getLsbD {v w : Int32}
    (h : ∀ k < 32, v.toBitVec.getLsbD k = w.toBitVec.getLsbD k) : v = w :=
  Int32.toBitVec_inj.1 (BitVec.eq_of_getLsbD_eq fun k hk => h k hk)

/-- An id comes back from its entry. -/
theorem entryToId_idToEntry (id : Int32) : entryToId (idToEntry id) = id :=
  Int32.eq_of_getLsbD fun k hk => by rw [getLsbD_entryToId hk, getLsbD_idToEntry hk]

/-- What is left of an id in an entry of so many bits. -/
def cutId (bits : Nat) (id : Int32) : Int32 := entryToId (cut (idToEntry id) bits)

/-- An id for which there is room is left as it is. -/
theorem cutId_eq_self {bits : Nat} {id : Int32} (h : FitsIn bits id) (hb : bits < 64) :
    cutId bits id = id := by
  have hlt : (idToEntry id).toNat < 2 ^ bits := by
    have hhi : ((id.toInt.toNat : Nat) : Int) < (2 ^ bits : Nat) := by
      rw [Int.toNat_of_nonneg h.1]
      exact_mod_cast h.2
    rw [toNat_idToEntry h.1]
    exact_mod_cast hhi
  rw [cutId, cut_eq_self hb hlt, entryToId_idToEntry]

/-- What has been cut once is not cut any further. -/
theorem cutId_entryToId_cut (entry : UInt64) {bits : Nat} (hb : bits < 64) :
    cutId bits (entryToId (cut entry bits)) = entryToId (cut entry bits) := by
  refine Int32.eq_of_getLsbD fun k hk => ?_
  rw [cutId, getLsbD_entryToId hk, getLsbD_cut hb, getLsbD_idToEntry hk, getLsbD_entryToId hk,
    getLsbD_cut hb, Bool.and_assoc, Bool.and_self]

/-- A number that fits a width is not cut to it. -/
theorem cut_ofNat {n bits : Nat} (h : n < 2 ^ bits) (hb : bits < 64) :
    (cut (UInt64.ofNat n) bits).toNat = n := by
  have hpow : 2 ^ bits < 2 ^ 64 := Nat.pow_lt_pow_right (by decide) hb
  have hn : (UInt64.ofNat n).toNat = n := UInt64.toNat_ofNat_of_lt' (Nat.lt_trans h hpow)
  rw [cut_eq_self hb (by rwa [hn]), hn]

/-- The entries of an array have no bits beyond its width. -/
theorem PackedArray.cut_get (a : PackedArray) (i : Nat) : cut (a.get i) a.bits = a.get i := by
  rw [get, cut, entryAt, UInt64.and_assoc, UInt64.and_self]

/-- A list that is given by a function, with one member replaced. -/
theorem set_map_range {α : Type} (size n : Nat) (f : Nat → α) (v : α) :
    ((List.range size).map f).set n v =
      (List.range size).map fun i => if i = n then v else f i := by
  refine List.ext_getElem? fun k => ?_
  rw [List.getElem?_set, List.getElem?_map, List.getElem?_map, List.length_map, List.length_range]
  by_cases hk : k < size
  · rw [List.getElem?_range hk]
    by_cases hn : n = k
    · subst hn
      simp [hk]
    · simp [hn, Ne.symm hn]
  · rw [List.getElem?_eq_none (by rw [List.length_range]; omega)]
    by_cases hn : n = k
    · subst hn
      simp [hk]
    · simp [hn]

/-! ### Kinds -/

/-- A kind whose forms follow one another: what does not fit a palette any more fits direct ids. -/
structure ContainerKind.Proper (kind : ContainerKind) : Prop where
  min_le : kind.minBits ≤ kind.maxIndirectBits
  max_lt : kind.maxIndirectBits < kind.globalBits
  global_le : kind.globalBits ≤ 32

theorem ContainerKind.proper_blocks : ContainerKind.blocks.Proper :=
  ⟨by decide, by decide, by decide⟩

theorem ContainerKind.proper_biomes : ContainerKind.biomes.Proper :=
  ⟨by decide, by decide, by decide⟩

/-- What a packing makes of an id: direct ids have their width, the other forms keep all of it. -/
def Packing.keep : Packing → Int32 → Int32
  | .direct ids, id => cutId ids.bits id
  | _, id => id

namespace Container

/-- Slots of a palette, all of them inside it. -/
structure SlotsFormed (kind : ContainerKind) (palette : Array Int32) (slots : PackedArray) :
    Prop where
  wellFormed : slots.WellFormed
  length : slots.length = kind.entries
  bits : slots.bits ≤ max 1 kind.maxIndirectBits
  size : palette.size ≤ 2 ^ slots.bits
  lt : ∀ i < kind.entries, (slots.get i).toNat < palette.size

/-- As many direct ids as there are entries. -/
structure DirectFormed (kind : ContainerKind) (ids : PackedArray) : Prop where
  wellFormed : ids.WellFormed
  length : ids.length = kind.entries

/-- Whether a packing holds together, in a container of some kind. -/
def PackingFormed (kind : ContainerKind) : Packing → Prop
  | .single _ => True
  | .indirect palette slots => SlotsFormed kind palette slots
  | .direct ids => DirectFormed kind ids

/-- Whether what a container stores holds together. -/
def Formed (c : Container) : Prop := PackingFormed c.kind c.packing

theorem formed_single (kind : ContainerKind) (id : Int32) : (single kind id).Formed := trivial

/-- What a container makes of an id. -/
def keep (c : Container) (id : Int32) : Int32 := c.packing.keep id

/-! ### Palettes -/

/-- What is found in a palette with one more id. -/
theorem getD_push (palette : Array Int32) (id : Int32) (n : Nat) :
    (palette.push id).getD n 0 = if n = palette.size then id else palette.getD n 0 := by
  rw [Array.getD_eq_getD_getElem?, Array.getElem?_push]
  split
  · rfl
  · rw [Array.getD_eq_getD_getElem?]

/-- An id that has a slot is found there. -/
theorem getD_idxOf? {palette : Array Int32} {id : Int32} {slot : Nat}
    (h : palette.idxOf? id = some slot) : slot < palette.size ∧ palette.getD slot 0 = id := by
  rw [Array.idxOf?_eq_map_finIdxOf?_val, Option.map_eq_some_iff] at h
  obtain ⟨⟨n, hlt⟩, hfound, rfl⟩ := h
  refine ⟨hlt, ?_⟩
  rw [Array.getD_eq_getD_getElem?, Array.getElem?_eq_getElem hlt, Option.getD_some]
  exact (Array.finIdxOf?_eq_some_iff.1 hfound).1

/-- A full palette needs one bit more. -/
theorem bitsFor_full {bits : Nat} (h : 0 < bits) : bitsFor (2 ^ bits + 1) = bits + 1 := by
  have hpos : 2 ^ 1 ≤ 2 ^ bits := Nat.pow_le_pow_right (by decide) h
  rw [bitsFor, if_neg (by omega), Nat.add_sub_cancel, Nat.log2_two_pow]

section Palette

variable {kind : ContainerKind} {palette : Array Int32} {slots : PackedArray} {i : Nat}

/-- A slot that is pointed at a place of the palette shows what is there. -/
theorem SlotsFormed.point (h : SlotsFormed kind palette slots) (hi : i < kind.entries) {n : Nat}
    (hn : n < palette.size) :
    SlotsFormed kind palette (slots.set i (UInt64.ofNat n)) ∧
      ∀ j, palette.getD ((slots.set i (UInt64.ofNat n)).get j).toNat 0 =
        if j = i then palette.getD n 0 else palette.getD (slots.get j).toNat 0 := by
  have hcut : (cut (UInt64.ofNat n) slots.bits).toNat = n :=
    cut_ofNat (Nat.lt_of_lt_of_le hn h.size) h.wellFormed.lt
  have hget := PackedArray.get_set h.wellFormed (i := i) (by rw [h.length]; exact hi)
    (UInt64.ofNat n)
  refine ⟨⟨h.wellFormed.set i _, h.length, h.bits, h.size, fun j hj => ?_⟩, fun j => ?_⟩
  · rw [hget]
    split
    · rwa [hcut]
    · exact h.lt j hj
  · rw [hget]
    by_cases hji : j = i
    · rw [if_pos hji, if_pos hji, hcut]
    · rw [if_neg hji, if_neg hji]

/-- A palette with room takes another id at its end, and shows what it showed. -/
theorem SlotsFormed.push (h : SlotsFormed kind palette slots)
    (hroom : palette.size < 2 ^ slots.bits) (id : Int32) :
    SlotsFormed kind (palette.push id) slots ∧ ∀ j < kind.entries,
      (palette.push id).getD (slots.get j).toNat 0 = palette.getD (slots.get j).toNat 0 := by
  refine ⟨⟨h.wellFormed, h.length, h.bits, ?_, fun j hj => ?_⟩, fun j hj => ?_⟩
  · rw [Array.size_push]
    exact hroom
  · rw [Array.size_push]
    exact Nat.lt_succ_of_lt (h.lt j hj)
  · rw [getD_push, if_neg (Nat.ne_of_lt (h.lt j hj))]

/-- Slots of another width, if it is not less, point where they did. -/
theorem SlotsFormed.widen (h : SlotsFormed kind palette slots) (bits : Nat)
    (hle : slots.bits ≤ bits) (hmax : bits ≤ max 1 kind.maxIndirectBits) (hlt : bits < 64) :
    SlotsFormed kind palette (slots.resized bits) ∧ (slots.resized bits).bits = bits ∧
      ∀ j < kind.entries, (slots.resized bits).get j = slots.get j := by
  have hpow : 2 ^ slots.bits ≤ 2 ^ bits := Nat.pow_le_pow_right (by decide) hle
  obtain ⟨hwf, hb, hlen, hget⟩ :=
    slots.get_resized bits (Nat.lt_of_lt_of_le h.wellFormed.pos hle) hlt
  have hsame : ∀ j < kind.entries, (slots.resized bits).get j = slots.get j := by
    intro j hj
    have hslot := h.lt j hj
    have hsize := h.size
    rw [hget j (by rwa [h.length]), cut_eq_self hlt (by omega)]
  refine ⟨⟨hwf, hlen.trans h.length, by rwa [hb], ?_, fun j hj => ?_⟩, hb, hsame⟩
  · rw [hb]
    exact Nat.le_trans h.size hpow
  · rw [hsame j hj]
    exact h.lt j hj

/-- A direct id that is replaced is cut to the width. -/
theorem DirectFormed.put {ids : PackedArray} (h : DirectFormed kind ids) (hi : i < kind.entries)
    (id : Int32) :
    DirectFormed kind (ids.set i (idToEntry id)) ∧
      ∀ j, entryToId ((ids.set i (idToEntry id)).get j) =
        if j = i then cutId ids.bits id else entryToId (ids.get j) := by
  refine ⟨⟨h.wellFormed.set i _, h.length⟩, fun j => ?_⟩
  rw [PackedArray.get_set h.wellFormed (by rw [h.length]; exact hi)]
  split
  · rfl
  · rfl

end Palette

/-! ### Storing an id -/

/-- What storing an id has to achieve: the new packing holds together, and each of its entries is
what it keeps of what that entry was to be. -/
structure Stores (kind : ContainerKind) (i : Nat) (id : Int32) (old new : Packing) : Prop where
  formed : PackingFormed kind new
  get_eq : ∀ j < kind.entries,
    get ⟨kind, new⟩ j = new.keep (if j = i then id else get ⟨kind, old⟩ j)

section Store

variable {kind : ContainerKind} {i : Nat}

/-- **Storing into a container of one id** makes a palette of two, unless the id is the one. -/
theorem stores_single (hkind : kind.Proper) (hi : i < kind.entries) (current id : Int32) :
    Stores kind i id (.single current) (store kind i id (.single current)) := by
  obtain ⟨hmin, hmax, hglobal⟩ := hkind
  have hpos : 0 < max kind.minBits 1 := by omega
  have hlt : max kind.minBits 1 < 64 := by omega
  have hzero : ∀ j, ((PackedArray.zeros (max kind.minBits 1) kind.entries).get j).toNat = 0 := by
    intro j
    rw [PackedArray.get_zeros hpos hlt]
    rfl
  have htwo : 2 ^ 1 ≤ 2 ^ max kind.minBits 1 := Nat.pow_le_pow_right (by decide) hpos
  have hslots : SlotsFormed kind #[current, id]
      (PackedArray.zeros (max kind.minBits 1) kind.entries) := by
    refine ⟨.zeros hpos hlt _, rfl, ?_, htwo, fun j _ => ?_⟩
    · change max kind.minBits 1 ≤ max 1 kind.maxIndirectBits
      omega
    · rw [hzero]
      exact Nat.succ_pos 1
  obtain ⟨hformed, hget⟩ := hslots.point hi (n := 1) (Nat.lt_succ_self 1)
  refine ⟨hformed, fun j _ => (hget j).trans ?_⟩
  rw [hzero]
  rfl

/-- A palette with room takes the id at its end. -/
theorem stores_push {palette : Array Int32} {slots : PackedArray}
    (h : SlotsFormed kind palette slots) (hroom : palette.size < 2 ^ slots.bits)
    (hi : i < kind.entries) (id : Int32) :
    Stores kind i id (.indirect palette slots)
      (.indirect (palette.push id) (slots.set i (UInt64.ofNat palette.size))) := by
  have hnew : (palette.push id).getD palette.size 0 = id := by rw [getD_push, if_pos rfl]
  have hlast : palette.size < (palette.push id).size := by
    rw [Array.size_push]
    exact Nat.lt_succ_self _
  obtain ⟨hpushed, hold⟩ := h.push hroom id
  obtain ⟨hformed, hget⟩ := hpushed.point hi hlast
  refine ⟨hformed, fun j hj => (hget j).trans ?_⟩
  rw [hnew, hold j hj]
  rfl

/-- A palette has room once its slots are wider. -/
theorem stores_widened {palette : Array Int32} {slots : PackedArray}
    (h : SlotsFormed kind palette slots) {bits : Nat} (hlt : slots.bits < bits)
    (hmax : bits ≤ max 1 kind.maxIndirectBits) (hword : bits < 64) (hi : i < kind.entries)
    (id : Int32) :
    Stores kind i id (.indirect palette slots)
      (.indirect (palette.push id) ((slots.resized bits).set i (UInt64.ofNat palette.size))) := by
  obtain ⟨hwidened, hbits, hsame⟩ := h.widen bits (Nat.le_of_lt hlt) hmax hword
  have hpow : 2 ^ slots.bits < 2 ^ bits := Nat.pow_lt_pow_right (by decide) hlt
  have hroom : palette.size < 2 ^ (slots.resized bits).bits := by
    rw [hbits]
    exact Nat.lt_of_le_of_lt h.size hpow
  obtain ⟨hformed, hget⟩ := stores_push hwidened hroom hi id
  refine ⟨hformed, fun j hj => (hget j hj).trans ?_⟩
  change (if j = i then id else palette.getD ((slots.resized bits).get j).toNat 0) = _
  rw [hsame j hj]
  rfl

/-- Where direct ids take over from a palette, all of them are cut. -/
theorem stores_scattered (hkind : kind.Proper) (palette : Array Int32) (slots : PackedArray)
    (hi : i < kind.entries) (id : Int32) :
    Stores kind i id (.indirect palette slots)
      (.direct ((PackedArray.tabulate kind.globalBits kind.entries fun j =>
        idToEntry (palette.getD (slots.get j).toNat 0)).set i (idToEntry id))) := by
  obtain ⟨-, hmax, hglobal⟩ := hkind
  obtain ⟨hwf, hbits, hlen, htable⟩ := PackedArray.get_tabulate kind.globalBits
    (Nat.lt_of_le_of_lt (Nat.zero_le _) hmax) (by omega) kind.entries
    fun j => idToEntry (palette.getD (slots.get j).toNat 0)
  obtain ⟨hformed, hget⟩ := DirectFormed.put ⟨hwf, hlen⟩ hi id
  refine ⟨hformed, fun j hj => (hget j).trans ?_⟩
  rw [htable j hj]
  change _ = cutId (PackedArray.tabulate kind.globalBits kind.entries _).bits _
  rw [hbits, apply_ite (cutId kind.globalBits)]
  rfl

/-- **Storing into a palette** takes the slot of the id, a new slot, or leaves the palette behind.
-/
theorem stores_indirect (hkind : kind.Proper) {palette : Array Int32} {slots : PackedArray}
    (h : SlotsFormed kind palette slots) (hi : i < kind.entries) (id : Int32) :
    Stores kind i id (.indirect palette slots) (store kind i id (.indirect palette slots)) := by
  simp only [store]
  split
  · -- the id is in the palette
    next slot hslot =>
    obtain ⟨hlt, heq⟩ := getD_idxOf? hslot
    obtain ⟨hformed, hget⟩ := h.point hi hlt
    refine ⟨hformed, fun j _ => (hget j).trans ?_⟩
    rw [heq]
    rfl
  · split
    · next hroom => exact stores_push h hroom hi id
    · -- a full palette is widened by one bit, if the kind has palettes of that width
      next hroom =>
      have hfull : palette.size = 2 ^ slots.bits := Nat.le_antisymm h.size (Nat.le_of_not_lt hroom)
      have hbits : bitsFor (palette.size + 1) = slots.bits + 1 := by
        rw [hfull, bitsFor_full h.wellFormed.pos]
      have hmax := hkind.max_lt
      have hglobal := hkind.global_le
      rw [hbits]
      split
      · exact stores_widened h (by omega) (by omega) (by omega) hi id
      · exact stores_scattered hkind palette slots hi id

/-- **Storing into direct ids** cuts the id to their width. -/
theorem stores_direct {ids : PackedArray} (h : DirectFormed kind ids) (hi : i < kind.entries)
    (id : Int32) : Stores kind i id (.direct ids) (store kind i id (.direct ids)) := by
  obtain ⟨hformed, hget⟩ := h.put hi id
  refine ⟨hformed, fun j _ => (hget j).trans ?_⟩
  change _ = cutId ids.bits _
  rw [apply_ite (cutId ids.bits)]
  congr 1
  -- what is there has been cut already
  change _ = cutId ids.bits (entryToId (ids.get j))
  rw [← ids.cut_get j, cutId_entryToId_cut _ h.wellFormed.lt]

/-- **Storing an id changes that id alone**, up to what the new form keeps. -/
theorem stores_store (hkind : kind.Proper) {packing : Packing} (h : PackingFormed kind packing)
    (hi : i < kind.entries) (id : Int32) :
    Stores kind i id packing (store kind i id packing) := by
  cases packing with
  | single current => exact stores_single hkind hi current id
  | indirect palette slots => exact stores_indirect hkind h hi id
  | direct ids => exact stores_direct h hi id

/-- Direct ids have the width that they had, or that of the kind if they are new. -/
theorem bits_store (hkind : kind.Proper) {packing : Packing} {id : Int32} {ids : PackedArray}
    (h : store kind i id packing = .direct ids) :
    ids.bits = kind.globalBits ∨ ∃ before, packing = .direct before ∧ ids.bits = before.bits := by
  cases packing with
  | single current => exact absurd h (by simp [store])
  | indirect palette slots =>
    obtain ⟨-, hmax, hglobal⟩ := hkind
    simp only [store] at h
    split at h
    · exact absurd h (by simp)
    · split at h
      · exact absurd h (by simp)
      · split at h
        · exact absurd h (by simp)
        · obtain rfl := Packing.direct.inj h
          exact .inl (PackedArray.get_tabulate kind.globalBits
            (Nat.lt_of_le_of_lt (Nat.zero_le _) hmax) (by omega) kind.entries _).2.1
  | direct before =>
    obtain rfl := Packing.direct.inj h
    exact .inr ⟨before, rfl, rfl⟩

end Store

/-! ### Setting an id -/

section Set

variable {c : Container} {i : Nat}

@[simp] theorem kind_set (c : Container) (i : Nat) (id : Int32) : (c.set i id).kind = c.kind := by
  rw [set]
  split <;> rfl

/-- What a formed container has, it keeps. -/
theorem Formed.keep_get (h : c.Formed) (i : Nat) : c.keep (c.get i) = c.get i := by
  obtain ⟨kind, packing⟩ := c
  cases packing with
  | single => rfl
  | indirect => rfl
  | direct ids =>
    change cutId ids.bits (entryToId (ids.get i)) = entryToId (ids.get i)
    rw [← ids.cut_get i, cutId_entryToId_cut _ (DirectFormed.wellFormed h).lt]

/-- **Whatever is set into a formed container, it stays formed.** -/
theorem Formed.set (h : c.Formed) (hkind : c.kind.Proper) (hi : i < c.kind.entries) (id : Int32) :
    (c.set i id).Formed := by
  rw [Container.set]
  split
  · exact h
  · exact (stores_store hkind h hi id).formed

/-- **Setting an id changes that id alone**, up to what the container then keeps. -/
theorem get_set_eq_keep (h : c.Formed) (hkind : c.kind.Proper) (hi : i < c.kind.entries)
    (id : Int32) {j : Nat} (hj : j < c.kind.entries) :
    (c.set i id).get j = (c.set i id).keep (if j = i then id else c.get j) := by
  rw [set]
  split
  · next hsame =>
    have hall : (if j = i then id else c.get j) = c.get j := by
      split
      · next hji => rw [hji, hsame]
      · rfl
    rw [hall, h.keep_get]
  · exact (stores_store hkind h hi id).get_eq j hj

/-! ### Containers with room -/

/-- Whether the width of direct ids, if there are any, is as some property asks. -/
def DirectWidth (p : Nat → Prop) (c : Container) : Prop :=
  ∀ ids, c.packing = .direct ids → p ids.bits

/-- A container of one id has no direct ids, whatever is asked of them. -/
theorem directWidth_single (p : Nat → Prop) (kind : ContainerKind) (id : Int32) :
    (single kind id).DirectWidth p := by
  intro ids hids
  cases hids

/-- The width of direct ids is never changed, and new ones have that of the kind. -/
theorem DirectWidth.set {p : Nat → Prop} (h : c.DirectWidth p) (hkind : c.kind.Proper)
    (hp : p c.kind.globalBits) (i : Nat) (id : Int32) : (c.set i id).DirectWidth p := by
  rw [Container.set]
  split
  · exact h
  · intro ids hids
    rcases bits_store hkind hids with hbits | ⟨before, hbefore, hbits⟩
    · rw [hbits]
      exact hp
    · rw [hbits]
      exact h before hbefore

/-- An id is kept as it is where there is room for it. -/
theorem keep_eq_self {bits : Nat} (h : c.Formed) (hwidth : c.DirectWidth (bits ≤ ·)) {id : Int32}
    (hid : FitsIn bits id) : c.keep id = id := by
  obtain ⟨kind, packing⟩ := c
  cases packing with
  | single => rfl
  | indirect => rfl
  | direct ids =>
    exact cutId_eq_self (hid.mono (hwidth ids rfl)) (DirectFormed.wellFormed h).lt

/-- A formed container all of whose ids fit in so many bits, and whose direct ids have as many. -/
structure Roomy (bits : Nat) (c : Container) : Prop where
  formed : c.Formed
  width : c.DirectWidth (bits ≤ ·)
  fits : ∀ i < c.kind.entries, FitsIn bits (c.get i)

variable {bits : Nat} {id : Int32}

theorem roomy_single (kind : ContainerKind) (hid : FitsIn bits id) : (single kind id).Roomy bits :=
  ⟨formed_single kind id, directWidth_single _ kind id, fun _ _ => hid⟩

/-- **Where there is room, setting an id changes that id alone.** -/
theorem Roomy.get_set (h : c.Roomy bits) (hkind : c.kind.Proper) (hle : bits ≤ c.kind.globalBits)
    (hi : i < c.kind.entries) (hid : FitsIn bits id) {j : Nat} (hj : j < c.kind.entries) :
    (c.set i id).get j = if j = i then id else c.get j := by
  rw [get_set_eq_keep h.formed hkind hi id hj]
  refine keep_eq_self (h.formed.set hkind hi id) (h.width.set hkind hle i id) ?_
  split
  · exact hid
  · exact h.fits j hj

/-- A container with room keeps it when an id that fits is set. -/
theorem Roomy.set (h : c.Roomy bits) (hkind : c.kind.Proper) (hle : bits ≤ c.kind.globalBits)
    (hi : i < c.kind.entries) (hid : FitsIn bits id) : (c.set i id).Roomy bits := by
  refine ⟨h.formed.set hkind hi id, h.width.set hkind hle i id, ?_⟩
  rw [kind_set]
  intro j hj
  rw [h.get_set hkind hle hi hid hj]
  split
  · exact hid
  · exact h.fits j hj

/-- **A container with room is an array**: setting an entry sets it. -/
theorem Roomy.toList_set (h : c.Roomy bits) (hkind : c.kind.Proper)
    (hle : bits ≤ c.kind.globalBits) (hi : i < c.kind.entries) (hid : FitsIn bits id) :
    (c.set i id).toList = c.toList.set i id := by
  rw [toList, toList, set_map_range, kind_set]
  exact List.map_congr_left fun j hj => h.get_set hkind hle hi hid (List.mem_range.1 hj)

end Set

/-! ### Exchanges in a row -/

/-- The container after some exchanges, the first of the list first. -/
def exchangeAll (c : Container) (calls : List (Nat × Int32)) : Container :=
  calls.foldl (fun c call => (c.exchange call.1 call.2).2) c

theorem toList_single (kind : ContainerKind) (id : Int32) :
    (single kind id).toList = List.replicate kind.entries id :=
  (List.map_const ..).trans (congrArg (List.replicate · id) List.length_range)

/-- Where there is room, exchanges do to a container what they do to a list of its ids. -/
theorem Roomy.exchangeAll {c : Container} {bits : Nat} (h : c.Roomy bits) (hkind : c.kind.Proper)
    (hle : bits ≤ c.kind.globalBits) {calls : List (Nat × Int32)}
    (hcalls : ∀ call ∈ calls, call.1 < c.kind.entries ∧ FitsIn bits call.2) :
    (c.exchangeAll calls).kind = c.kind ∧ (c.exchangeAll calls).Roomy bits ∧
      (c.exchangeAll calls).toList =
        calls.foldl (fun ids call => ids.set call.1 call.2) c.toList := by
  induction calls generalizing c with
  | nil => exact ⟨rfl, h, rfl⟩
  | cons call calls ih =>
    obtain ⟨hi, hid⟩ := hcalls call List.mem_cons_self
    have hkept := kind_set c call.1 call.2
    obtain ⟨hsame, hroomy, hlist⟩ := ih (h.set hkind hle hi hid) (by rwa [hkept])
      (by rwa [hkept]) (by
        rw [hkept]
        exact fun call' hcall' => hcalls call' (List.mem_cons_of_mem _ hcall'))
    refine ⟨hsame.trans hkept, hroomy, hlist.trans ?_⟩
    rw [h.toList_set hkind hle hi hid]
    rfl

/-- **A container is an array**, through all forms that it takes on the way: if all ids are numbers
of as many bits as direct ids have, then its ids are those of a list that went through the same
exchanges; and the next exchange gives the id that is there, puts the new one in its place, and
leaves all others. -/
theorem exchange_as_array {kind : ContainerKind} (hkind : kind.Proper) {first : Int32}
    (hfirst : FitsIn kind.globalBits first) {calls : List (Nat × Int32)}
    (hcalls : ∀ call ∈ calls, call.1 < kind.entries ∧ FitsIn kind.globalBits call.2) :
    let c := (single kind first).exchangeAll calls
    c.toList = calls.foldl (fun ids call => ids.set call.1 call.2)
        (List.replicate kind.entries first) ∧
      ∀ i < kind.entries, ∀ id, FitsIn kind.globalBits id →
        (c.exchange i id).1 = c.get i ∧ (c.exchange i id).2.get i = id ∧
          ∀ j < kind.entries, j ≠ i → (c.exchange i id).2.get j = c.get j := by
  intro c
  obtain ⟨hsame, hroomy, hlist⟩ :=
    (roomy_single kind hfirst).exchangeAll hkind (Nat.le_refl _) hcalls
  have hsame : c.kind = kind := hsame
  rw [toList_single] at hlist
  refine ⟨hlist, fun i hi id hid => ?_⟩
  have hbits : kind.globalBits ≤ c.kind.globalBits :=
    Nat.le_of_eq (congrArg ContainerKind.globalBits hsame.symm)
  have hset : ∀ j < kind.entries, (c.set i id).get j = if j = i then id else c.get j :=
    fun j hj => hroomy.get_set (by rwa [hsame]) hbits (by rwa [hsame]) hid (by rwa [hsame])
  refine ⟨rfl, ?_, fun j hj hji => ?_⟩
  · exact (hset i hi).trans (if_pos rfl)
  · exact (hset j hj).trans (if_neg hji)

/-- Nine ids, more than a palette of biomes has room for. -/
def nine : List (Nat × Int32) := (List.range 9).map fun n => (7 * n, Int32.ofNat n + 1)

/-- Biomes on their way from a single id to direct ids. -/
theorem exchange_as_array_nine :
    ContainerKind.biomes.Proper ∧ FitsIn 6 0 ∧ (∀ call ∈ nine, call.1 < 64 ∧ FitsIn 6 call.2) ∧
      let c := (single .biomes 0).exchangeAll nine
      c.toList = nine.foldl (fun ids call => ids.set call.1 call.2) (List.replicate 64 0) ∧
        ∀ i < 64, ∀ id, FitsIn 6 id →
          (c.exchange i id).1 = c.get i ∧ (c.exchange i id).2.get i = id ∧
            ∀ j < 64, j ≠ i → (c.exchange i id).2.get j = c.get j := by
  have hfirst : FitsIn 6 0 := by decide
  have hnine : ∀ call ∈ nine, call.1 < 64 ∧ FitsIn 6 call.2 := by decide
  exact ⟨ContainerKind.proper_biomes, hfirst, hnine,
    exchange_as_array ContainerKind.proper_biomes hfirst hnine⟩

end Container

end Playhead
