import Mathlib.Algebra.Order.Floor.Div
import Playhead.Proofs.Column.Keeping

/-!
# The grammar of a section

The wire form of a section is described here on bytes alone: what a container is spelled by
(`Playhead.Grammar.ContainerText`), and what a section is (`Playhead.Grammar.SectionText`), each
with the ids that it spells. Packed numbers are found in the bytes of the longs that hold them
(`Playhead.Grammar.entry`), so the description has no packed arrays, no palettes and no containers,
and says what every byte is for; only the bits above the last number of a long are for nothing.

**The reader of sections is this grammar** (`Playhead.ChunkSection.decode_iff_grammar`): it accepts
a byte string just when one of its texts is at the front, stops where that text ends, and stores the
ids that the text spells.
-/

namespace Playhead

namespace Grammar

/-! ### Numbers in longs -/

/-- Long number `k` of a byte string, its first byte on top. -/
def long (data : Bytes) (k : Nat) : Nat := Bytes.toNat ((data.drop (8 * k)).take 8)

/-- Entry `i` of numbers of `bits` bits each: `64 / bits` of them are in a long, the first in its
lowest bits. -/
def entry (bits : Nat) (data : Bytes) (i : Nat) : Nat :=
  long data (i / (64 / bits)) / 2 ^ (i % (64 / bits) * bits) % 2 ^ bits

/-- As many bytes as the longs of `entries` numbers have. -/
def Fills (entries bits : Nat) (data : Bytes) : Prop :=
  data.length = 8 * (entries ⌈/⌉ (64 / bits))

/-! ### Texts -/

/-- **A container of `entries` ids**, with palettes of up to `maxBits` bits, and the ids that it
spells, if `number` says what the texts of numbers are: a byte with the width, and then the one id
that there is, or a palette and the slots of the entries in it, or the ids of the entries. -/
inductive ContainerText (number : Bytes → Int32 → Prop) (entries maxBits : Nat) :
    Bytes → List Int32 → Prop
  | single {id : Int32} {text : Bytes} (hid : number text id) :
      ContainerText number entries maxBits (0 :: text) (List.replicate entries id)
  | indirect {width : UInt8} {size : Int32} {front data : Bytes} {texts : List Bytes}
      {palette : List Int32} (hlo : 1 ≤ width.toNat) (hhi : width.toNat ≤ maxBits)
      (hfront : number front size) (hsize : size.toInt = palette.length)
      (hsome : 1 ≤ palette.length) (hfits : palette.length ≤ 2 ^ width.toNat)
      (hids : List.Forall₂ number texts palette) (hdata : Fills entries width.toNat data)
      (hinside : ∀ i < entries, entry width.toNat data i < palette.length) :
      ContainerText number entries maxBits (width :: (front ++ (texts.flatten ++ data)))
        ((List.range entries).map fun i => palette.getD (entry width.toNat data i) 0)
  | direct {width : UInt8} {data : Bytes} (hlo : maxBits < width.toNat) (hhi : width.toNat ≤ 32)
      (hdata : Fills entries width.toNat data) :
      ContainerText number entries maxBits (width :: data)
        ((List.range entries).map fun i => Int32.ofNat (entry width.toNat data i))

/-- **A section**: two bytes with the count, the more significant one first, and the containers of
its blocks and of its biomes. A count that is negative as a signed number is larger than 4096 as
it is read here. -/
inductive SectionText (number : Bytes → Int32 → Prop) : Bytes → Int → List Int32 → List Int32 → Prop
  | mk {high low : UInt8} {front back : Bytes} {blocks biomes : List Int32}
      (hcount : 256 * high.toNat + low.toNat ≤ 4096)
      (hblocks : ContainerText number 4096 8 front blocks)
      (hbiomes : ContainerText number 64 3 back biomes) :
      SectionText number (high :: low :: (front ++ back)) (256 * high.toNat + low.toNat) blocks
        biomes

/-! ### Packed arrays are longs -/

/-- The words of a text are those that were written to it. -/
theorem long_flatMap (words : List UInt64) (k : Nat) :
    long (words.flatMap fun w => Bytes.ofNat 8 w.toNat) k = (words.getD k 0).toNat := by
  induction words generalizing k with
  | nil => rw [long, List.flatMap_nil, List.drop_nil]; rfl
  | cons w words ih =>
    have hlength : (Bytes.ofNat 8 w.toNat).length = 8 := Bytes.length_ofNat 8 _
    rw [long, List.flatMap_cons]
    cases k with
    | zero =>
      -- the first eight bytes are the first word
      rw [Nat.mul_zero, List.drop_zero, List.take_append_of_le_length (Nat.le_of_eq hlength.symm),
        List.take_of_length_le (Nat.le_of_eq hlength),
        Bytes.toNat_ofNat (Nat.lt_of_lt_of_eq w.toNat_lt rfl)]
      rfl
    | succ k =>
      rw [List.drop_append, List.drop_of_length_le (by omega), List.nil_append, hlength,
        show 8 * (k + 1) - 8 = 8 * k by omega]
      exact ih k

/-- Longs are the bytes of words. -/
theorem exists_words {n : Nat} {data : Bytes} (h : data.length = 8 * n) :
    ∃ words : List UInt64, words.length = n ∧
      data = words.flatMap fun w => Bytes.ofNat 8 w.toNat := by
  induction n generalizing data with
  | zero => exact ⟨[], rfl, List.eq_nil_of_length_eq_zero h⟩
  | succ n ih =>
    have hfront : (data.take 8).length = 8 := List.length_take_of_le (by omega)
    obtain ⟨words, hwords, hrest⟩ := ih (show (data.drop 8).length = 8 * n by
      rw [List.length_drop]
      omega)
    refine ⟨UInt64.ofNat (Bytes.toNat (data.take 8)) :: words, congrArg _ hwords, ?_⟩
    rw [List.flatMap_cons, PackedArray.ofNat_word hfront, ← hrest, List.take_append_drop]

end Grammar

open Grammar (Fills entry ContainerText SectionText)

/-- An entry of a word is the number that its bits make. -/
theorem toNat_entryAt {word : UInt64} {shift bits : Nat} (hs : shift < 64) (hb : bits < 64) :
    (entryAt word shift bits).toNat = word.toNat / 2 ^ shift % 2 ^ bits := by
  refine Nat.eq_of_testBit_eq fun k => ?_
  rw [Nat.testBit_mod_two_pow, Nat.testBit_div_two_pow, ← UInt64.toNat_toBitVec,
    BitVec.testBit_toNat, getLsbD_entryAt hs hb, ← UInt64.toNat_toBitVec, BitVec.testBit_toNat,
    Bool.and_comm, Nat.add_comm]

/-- An entry as an id is the number that it is, modulo the width of ids. -/
theorem entryToId_eq (e : UInt64) : entryToId e = Int32.ofNat e.toNat :=
  Int32.toBitVec_inj.1 (BitVec.ofNat_toNat 32 e.toBitVec).symm

namespace PackedArray

variable {a : PackedArray}

/-- As many words as it takes, the last of them perhaps not full. -/
theorem wordCount_eq (bits length : Nat) : wordCount bits length = length ⌈/⌉ (64 / bits) :=
  (Nat.ceilDiv_eq_add_pred_div ..).symm

/-- **An entry of a packed array is found in its bytes.** -/
theorem WellFormed.toNat_get (h : a.WellFormed) (i : Nat) :
    (a.get i).toNat = entry a.bits a.encode i := by
  rw [get, toNat_entryAt (h.shift_lt i) h.lt, entry, encode, Grammar.long_flatMap,
    Array.getD_eq_getD_getElem?, List.getD_eq_getElem?_getD, Array.getElem?_toList]
  rfl

/-- The words of a packed array fill its text. -/
theorem WellFormed.fills (h : a.WellFormed) : Fills a.length a.bits a.encode := by
  rw [Fills, encode, List.length_flatMap, ← wordCount_eq, ← h.words]
  simp [Nat.mul_comm]

/-- **Longs are the bytes of a packed array.** -/
theorem exists_encode_eq {bits length : Nat} (hp : 0 < bits) (hb : bits < 64) {data : Bytes}
    (hdata : Fills length bits data) :
    ∃ a : PackedArray, a.WellFormed ∧ a.bits = bits ∧ a.length = length ∧ a.encode = data := by
  obtain ⟨words, hwords, rfl⟩ := Grammar.exists_words hdata
  exact ⟨⟨bits, length, words.toArray⟩, ⟨hp, hb, (wordCount_eq bits length).symm ▸ hwords⟩,
    rfl, rfl, rfl⟩

end PackedArray

/-! ### Numbers of two bytes -/

/-- Two bytes as a number. -/
theorem Bytes.toNat_pair (high low : UInt8) :
    toNat [high, low] = 256 * high.toNat + low.toNat := by
  change (0 * 256 + high.toNat) * 256 + low.toNat = _
  omega

/-- A number that is not negative is its own two's complement. -/
theorem Int16.toNat_toUInt16 {v : Int16} (h : 0 ≤ v.toInt) :
    (v.toUInt16.toNat : Int) = v.toInt := by
  have hnat : v.toUInt16.toNat = v.toBitVec.toNat := rfl
  have hint := Int16.toInt_toBitVec v
  rw [BitVec.toInt_eq_toNat_cond] at hint
  split at hint <;> omega

/-! ### The readers are the grammar -/

section Texts

variable {number : Bytes → Int32 → Prop}

/-- The entries of a palette container are looked up slot by slot. -/
theorem Container.toList_indirect (kind : ContainerKind) (palette : List Int32)
    {slots : PackedArray} (h : slots.WellFormed) :
    (Container.mk kind (.indirect palette.toArray slots)).toList =
      (List.range kind.entries).map fun i =>
        palette.getD (entry slots.bits slots.encode i) 0 := by
  refine List.map_congr_left fun i _ => ?_
  simp [Container.get, ← h.toNat_get, Array.getD_eq_getD_getElem?]

/-- The entries of a direct container are its numbers. -/
theorem Container.toList_direct (kind : ContainerKind) {ids : PackedArray} (h : ids.WellFormed) :
    (Container.mk kind (.direct ids)).toList =
      (List.range kind.entries).map fun i => Int32.ofNat (entry ids.bits ids.encode i) := by
  refine List.map_congr_left fun i _ => ?_
  rw [← h.toNat_get]
  exact entryToId_eq _

/-- What is packed has a text of the grammar, which spells its ids. -/
theorem containerText_of_hasText {kind : ContainerKind} {packing : Packing} {text : Bytes}
    (h : packing.HasText number kind text) :
    ContainerText number kind.entries kind.maxIndirectBits text
      (Container.mk kind packing).toList := by
  cases h with
  | single hid =>
    rw [show Container.mk kind (.single _) = .single kind _ from rfl, Container.toList_single]
    exact .single hid
  | @indirect palette slots text h =>
    obtain ⟨hslots, hsome, hbits, hsize, hfront, hids⟩ := h
    have hwf := hslots.wellFormed
    have hwidth := hwf.toNat_width
    generalize UInt8.ofNat slots.bits = width at hwidth ⊢
    rw [Container.toList_indirect kind palette hwf, ← hwidth]
    refine .indirect ?_ ?_ hfront hsize (List.length_pos_iff.2 hsome) ?_ hids ?_ fun i hi => ?_
    -- the byte of the width has the width as its number
    all_goals rw [hwidth]
    · exact hwf.pos
    · exact hbits
    · exact hslots.size
    · exact hslots.length ▸ hwf.fills
    · rw [← hwf.toNat_get]
      exact hslots.lt i hi
  | @direct ids h hlo hhi =>
    have hwf := h.wellFormed
    have hwidth := hwf.toNat_width
    generalize UInt8.ofNat ids.bits = width at hwidth ⊢
    rw [Container.toList_direct kind hwf, ← hwidth]
    refine .direct ?_ ?_ ?_
    all_goals rw [hwidth]
    · exact hlo
    · exact hhi
    · exact h.length ▸ hwf.fills

/-- **The texts of a container are those of its packings.** -/
theorem containerText_iff {kind : ContainerKind} (hmax : kind.maxIndirectBits < 64) {text : Bytes}
    {ids : List Int32} : ContainerText number kind.entries kind.maxIndirectBits text ids ↔
      ∃ packing, packing.HasText number kind text ∧
        (Container.mk kind packing).toList = ids := by
  constructor
  · intro h
    cases h with
    | single hid => exact ⟨_, .single hid, Container.toList_single kind _⟩
    | @indirect width size front data texts palette hlo hhi hfront hsize hsome hfits hids hdata
        hinside =>
      -- the longs after the palette are those of an array of slots
      obtain ⟨slots, hwf, hbits, hlength, rfl⟩ :=
        PackedArray.exists_encode_eq hlo (Nat.lt_of_le_of_lt hhi hmax) hdata
      have hslots : Container.SlotsFormed kind palette.toArray slots := by
        refine ⟨hwf, hlength, ?_, ?_, fun i hi => ?_⟩
        · exact hbits ▸ Nat.le_trans hhi (Nat.le_max_right _ _)
        · rwa [List.size_toArray, hbits]
        · rw [hwf.toNat_get, hbits, List.size_toArray]
          exact hinside i hi
      have htext := Packing.PaletteText.mk hslots (List.ne_nil_of_length_pos hsome) (hbits ▸ hhi)
        hsize hfront hids
      refine ⟨.indirect palette.toArray slots, ?_,
        hbits ▸ Container.toList_indirect kind palette hwf⟩
      rw [show width = UInt8.ofNat slots.bits by rw [hbits, UInt8.ofNat_toNat]]
      exact .indirect htext
    | @direct width data hlo hhi hdata =>
      obtain ⟨ids, hwf, hbits, hlength, rfl⟩ :=
        PackedArray.exists_encode_eq (Nat.lt_of_le_of_lt (Nat.zero_le _) hlo)
          (Nat.lt_of_le_of_lt hhi (by decide)) hdata
      refine ⟨.direct ids, ?_, hbits ▸ Container.toList_direct kind hwf⟩
      rw [show width = UInt8.ofNat ids.bits by rw [hbits, UInt8.ofNat_toNat]]
      exact .direct ⟨hwf, hlength⟩ (hbits ▸ hlo) (hbits ▸ hhi)
  · rintro ⟨packing, htext, rfl⟩
    exact containerText_of_hasText htext

namespace ChunkSection

/-- **The texts of a section are those of the grammar.** -/
theorem sectionText_iff {text : Bytes} {count : Int} {blocks biomes : List Int32} :
    SectionText number text count blocks biomes ↔ ∃ s : ChunkSection, s.HasText number text ∧
      s.blockCount.toInt = count ∧ s.blocks.toList = blocks ∧ s.biomes.toList = biomes := by
  have hblocks {text ids} : ContainerText number 4096 8 text ids ↔ ∃ packing : Packing,
      packing.HasText number .blocks text ∧ (Container.mk .blocks packing).toList = ids :=
    containerText_iff (show ContainerKind.blocks.maxIndirectBits < 64 by decide)
  have hbiomes {text ids} : ContainerText number 64 3 text ids ↔ ∃ packing : Packing,
      packing.HasText number .biomes text ∧ (Container.mk .biomes packing).toList = ids :=
    containerText_iff (show ContainerKind.biomes.maxIndirectBits < 64 by decide)
  constructor
  · intro h
    cases h with
    | @mk high low front back _ _ hcount hfront hback =>
      obtain ⟨blocks, hfirst, rfl⟩ := hblocks.1 hfront
      obtain ⟨biomes, hsecond, rfl⟩ := hbiomes.1 hback
      -- the count is not negative, so two bytes say it as a number
      have hint : (Int16.ofNat (256 * high.toNat + low.toNat)).toInt =
          (256 * high.toNat + low.toNat : Nat) := Int16.toInt_ofNat_of_lt (by omega)
      generalize Int16.ofNat (256 * high.toNat + low.toNat) = count at hint
      have hnat : count.toUInt16.toNat = Bytes.toNat [high, low] := by
        have := Int16.toNat_toUInt16 (v := count) (by omega)
        rw [Bytes.toNat_pair]
        omega
      have htext : HasText number ⟨count, _, _⟩ _ := .mk (by omega) (by omega) hfirst hsecond
      rw [hnat, show 2 = [high, low].length from rfl, Bytes.ofNat_toNat] at htext
      exact ⟨_, htext, hint, rfl, rfl⟩
  · rintro ⟨s, htext, rfl, rfl, rfl⟩
    cases htext with
    | @mk count blocks biomes front back hlo hhi hfront hback =>
      have hnat := Int16.toNat_toUInt16 hlo
      have hpair : Bytes.toNat (Bytes.ofNat 2 count.toUInt16.toNat) = count.toUInt16.toNat :=
        Bytes.toNat_ofNat (Nat.lt_of_lt_of_eq count.toUInt16.toNat_lt rfl)
      obtain ⟨high, low, hbytes⟩ : ∃ high low, Bytes.ofNat 2 count.toUInt16.toNat = [high, low] :=
        ⟨_, _, rfl⟩
      rw [hbytes, Bytes.toNat_pair] at hpair
      rw [hbytes, show count.toInt = (256 * high.toNat + low.toNat : Int) by omega]
      change SectionText number (high :: low :: (front ++ back)) _ _ _
      exact .mk (by omega) (hblocks.2 ⟨blocks, hfront, rfl⟩) (hbiomes.2 ⟨biomes, hback, rfl⟩)

end ChunkSection

end Texts

namespace ChunkSection

/-- In the numbers of the blocks of a section, `x` changes fastest and `y` slowest, wherever in a
column the section is. -/
theorem Formed.block?_of_mem {s : ChunkSection} (h : s.Formed) {c : Column} {level : Nat}
    (hs : c.sections[level]? = some s) {minY : Int32} {p : Position} {x y z : Fin 16}
    (hx : p.x.toInt % 16 = x) (hz : p.z.toInt % 16 = z)
    (hy : p.y.toInt = minY.toInt + 16 * level + y) :
    c.block? minY p = s.blocks.toList[x.val + 16 * z.val + 256 * y.val]? := by
  have hlt : x.val + 16 * z.val + 256 * y.val < 4096 := by omega
  have hlevel : level < c.content.length := by
    rw [Column.length_content]
    exact (Array.getElem?_eq_some_iff.1 hs).1
  have hlocate : c.locate minY p = some (level, x.val + 16 * z.val + 256 * y.val) := by
    rw [Column.locate_eq, Content.locate_eq_some_iff]
    omega
  have hentries : x.val + 16 * z.val + 256 * y.val < s.blocks.kind.entries := by
    rw [h.entries]
    exact hlt
  rw [Column.block?_of_locate hlocate hs, Container.toList, List.getElem?_map,
    List.getElem?_range hentries]
  rfl

/-- **Reading a section is its grammar.** A section is read from a byte string, and the rest of it
is left, just when the string is a text of the grammar and that rest; its count, its blocks and its
biomes are those of the text. In any column that the section is in, block `(x, y, z)` of it is
number `x + 16 z + 256 y` of its blocks. -/
theorem decode_iff_grammar (bytes rest : Bytes) :
    (∀ (count : Int) (blocks biomes : List Int32),
      (∃ s, decode bytes = .ok (s, rest) ∧ s.blockCount.toInt = count ∧
        s.blocks.toList = blocks ∧ s.biomes.toList = biomes) ↔
      ∃ text, bytes = text ++ rest ∧ SectionText Wire.Spells text count blocks biomes) ∧
    ∀ s, decode bytes = .ok (s, rest) → ∀ (c : Column) (level : Nat),
      c.sections[level]? = some s → ∀ (minY : Int32) (p : Position) (x y z : Fin 16),
        p.x.toInt % 16 = x → p.z.toInt % 16 = z → p.y.toInt = minY.toInt + 16 * level + y →
          c.block? minY p = s.blocks.toList[x.val + 16 * z.val + 256 * y.val]? := by
  constructor
  · intro count blocks biomes
    constructor
    · rintro ⟨s, hread, hshown⟩
      obtain ⟨text, rfl, htext⟩ := decode_eq_ok_iff.1 hread
      exact ⟨text, rfl, sectionText_iff.2 ⟨s, htext, hshown⟩⟩
    · rintro ⟨text, rfl, htext⟩
      obtain ⟨s, htext, hshown⟩ := sectionText_iff.1 htext
      exact ⟨s, decode_eq_ok_iff.2 ⟨text, rfl, htext⟩, hshown⟩
  · intro s hread c level hs minY p x y z hx hz hy
    exact (formed_of_decode hread).block?_of_mem hs hx hz hy

/-- A section of stone as a text, and one of its blocks. -/
theorem decode_iff_grammar_stone :
    SectionText Wire.Spells stone 4096 (List.replicate 4096 1) (List.replicate 64 3) ∧
      ∃ s, decode stone = .ok (s, []) ∧ (Column.mk #[s]).block? 0 ⟨5, 2, 3⟩ = some 1 := by
  have hread : decode stone =
      .ok (⟨4096, .single .blocks 1, .single .biomes 3⟩, []) := rfl
  obtain ⟨hgrammar, hblock⟩ := decode_iff_grammar stone []
  obtain ⟨text, htext, hspelled⟩ := (hgrammar 4096 (List.replicate 4096 1) (List.replicate 64 3)).1
    ⟨_, hread, rfl, Container.toList_single .blocks 1, Container.toList_single .biomes 3⟩
  rw [List.append_nil] at htext
  refine ⟨htext ▸ hspelled, _, hread, ?_⟩
  rw [hblock _ hread _ 0 rfl 0 ⟨5, 2, 3⟩ 5 2 3 rfl rfl rfl, Container.toList_single]
  exact List.getElem?_replicate_of_lt (by decide)

end ChunkSection

end Playhead
