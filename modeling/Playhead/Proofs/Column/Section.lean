import Playhead.Proofs.Column.Content

/-!
# Sections, their count and their bytes

The texts of a section are its count and the texts of its containers
(`Playhead.ChunkSection.HasText`), and they are what the reader accepts
(`Playhead.ChunkSection.decode_eq_ok_iff`).

A section starts out empty or is read, and then blocks are set in it
(`Playhead.ChunkSection.Obtained`). All sections that come about in this way are formed
(`Playhead.ChunkSection.Obtained.formed`), whatever the bytes and the states were.

The count of the blocks that are not air is not made by counting: every block that is set moves it
by what that block contributes. If it was right and nothing is lost when a block is set, it stays
right (`Playhead.ChunkSection.Counted.setBlock`). A right count is one that the reader accepts, so
such a section is read back from its bytes, in the very form that it has
(`Playhead.ChunkSection.counted_after_calls`).
-/

namespace Playhead

open Wire (Codec)

namespace ChunkSection

variable {s : ChunkSection} {bytes rest : Bytes} {i : Nat} {state : BlockState}

/-! ### The bytes of a section -/

/-- A section of a container of blocks and one of biomes, both of which hold together and show
their form. -/
structure Formed (s : ChunkSection) : Prop where
  blocksKind : s.blocks.kind = .blocks
  biomesKind : s.biomes.kind = .biomes
  blocks : s.blocks.Formed ∧ s.blocks.Shown
  biomes : s.biomes.Formed ∧ s.biomes.Shown

/-- **The texts of a section**: its count, if that is within bounds, and the texts of its blocks and
of its biomes. -/
inductive HasText (number : Bytes → Int32 → Prop) : ChunkSection → Bytes → Prop
  | mk {count : Int16} {blocks biomes : Packing} {front back : Bytes} (hlo : 0 ≤ count.toInt)
      (hhi : count.toInt ≤ 4096) (hblocks : blocks.HasText number .blocks front)
      (hbiomes : biomes.HasText number .biomes back) :
      HasText number ⟨count, ⟨.blocks, blocks⟩, ⟨.biomes, biomes⟩⟩
        (Bytes.ofNat 2 count.toUInt16.toNat ++ (front ++ back))

/-- A section that has a text holds together. -/
theorem HasText.formed {number : Bytes → Int32 → Prop} {text : Bytes} (h : s.HasText number text) :
    s.Formed := by
  obtain ⟨-, -, hblocks, hbiomes⟩ := h
  exact ⟨rfl, rfl, ⟨hblocks.formed, fun _ => hblocks.shown⟩, hbiomes.formed,
    fun _ => hbiomes.shown⟩

/-- A section that has a text has a count within bounds. -/
theorem HasText.count {number : Bytes → Int32 → Prop} {text : Bytes} (h : s.HasText number text) :
    0 ≤ s.blockCount.toInt ∧ s.blockCount.toInt ≤ 4096 := by
  obtain ⟨hlo, hhi, -⟩ := h
  exact ⟨hlo, hhi⟩

/-- With more texts of numbers there are more texts of sections. -/
theorem HasText.mono {number number' : Bytes → Int32 → Prop} {text : Bytes}
    (hle : ∀ text v, number text v → number' text v) (h : s.HasText number text) :
    s.HasText number' text := by
  obtain ⟨hlo, hhi, hblocks, hbiomes⟩ := h
  exact .mk hlo hhi (hblocks.mono hle) (hbiomes.mono hle)

/-- The count comes first, and is refused outside its bounds. -/
theorem decode_count (count : Int16) (bytes : Bytes) :
    decode (Bytes.ofNat 2 count.toUInt16.toNat ++ bytes) =
      if 0 ≤ count.toInt ∧ count.toInt ≤ 4096 then do
        let (blocks, rest) ← Container.decode .blocks bytes
        let (biomes, rest) ← Container.decode .biomes rest
        return (⟨count, blocks, biomes⟩, rest)
      else .error (.malformedColumn .blockCount) := by
  have hsplit := Bytes.split?_append (Bytes.ofNat 2 count.toUInt16.toNat) bytes
  rw [Bytes.length_ofNat] at hsplit
  have hcount : (UInt16.ofNat (Bytes.toNat (Bytes.ofNat 2 count.toUInt16.toNat))).toInt16 =
      count := by
    rw [Bytes.toNat_ofNat (Nat.lt_of_lt_of_eq count.toUInt16.toNat_lt rfl), UInt16.ofNat_toNat]
    rfl
  have hbounds : (count < 0 ∨ (sectionVolume : Int) < count.toInt) ↔
      ¬ (0 ≤ count.toInt ∧ count.toInt ≤ 4096) := by
    rw [Int16.lt_iff_toInt_lt, Decidable.not_and_iff_not_or_not, Int.not_le, Int.not_le]
    rfl
  simp only [decode, hsplit, hcount, hbounds, ite_not]

/-- **The reader of sections accepts their texts and nothing else.** -/
theorem decode_eq_ok_iff : decode bytes = .ok (s, rest) ↔
    ∃ text, bytes = text ++ rest ∧ s.HasText Wire.Spells text := by
  constructor
  · intro hread
    -- the first two bytes are those of the count
    obtain ⟨count, bytes, rfl⟩ : ∃ count : Int16, ∃ rest',
        bytes = Bytes.ofNat 2 count.toUInt16.toNat ++ rest' := by
      simp only [decode] at hread
      split at hread
      · exact absurd hread (by simp)
      · next front rest' hsplit =>
        obtain ⟨rfl, hfront⟩ := Bytes.split?_eq_some_iff.1 hsplit
        refine ⟨(UInt16.ofNat (Bytes.toNat front)).toInt16, rest', ?_⟩
        have hlt : Bytes.toNat front < 2 ^ 16 := by
          have := Bytes.toNat_lt front
          rwa [hfront] at this
        rw [UInt16.toUInt16_toInt16, UInt16.toNat_ofNat_of_lt' hlt, ← hfront, Bytes.ofNat_toNat]
    rw [decode_count] at hread
    split at hread
    · next hbounds =>
      obtain ⟨⟨⟨_, blocks⟩, rest₁⟩, hblocks, hread⟩ := Codec.ok_of_bind hread
      obtain ⟨⟨⟨_, biomes⟩, rest₂⟩, hbiomes, hread⟩ := Codec.ok_of_bind hread
      simp only [pure, Except.pure, Except.ok.injEq, Prod.mk.injEq] at hread
      obtain ⟨rfl, rfl⟩ := hread
      obtain ⟨rfl, front, rfl, hfront⟩ :=
        (Container.decode_eq_ok_iff ContainerKind.proper_blocks).1 hblocks
      obtain ⟨rfl, back, rfl, hback⟩ :=
        (Container.decode_eq_ok_iff ContainerKind.proper_biomes).1 hbiomes
      exact ⟨_, by simp only [List.append_assoc], .mk hbounds.1 hbounds.2 hfront hback⟩
    · exact absurd hread (by simp)
  · rintro ⟨text, rfl, hlo, hhi, hblocks, hbiomes⟩
    have hfront := Container.decode_append ContainerKind.proper_blocks hblocks
    have hback := Container.decode_append ContainerKind.proper_biomes hbiomes
    simp only [List.append_assoc, decode_count, if_pos (And.intro hlo hhi), hfront, hback, bind,
      Except.bind]
    rfl

/-! ### The sections that there are -/

theorem formed_empty (biome : Int32) : (empty biome).Formed :=
  ⟨rfl, rfl, ⟨Container.formed_single _ _, Container.shown_single _ _⟩,
    Container.formed_single _ _, Container.shown_single _ _⟩

/-- **A section that is read holds together**, whatever the bytes are. -/
theorem formed_of_decode (h : decode bytes = .ok (s, rest)) : s.Formed := by
  obtain ⟨text, -, htext⟩ := decode_eq_ok_iff.1 h
  exact htext.formed

theorem Formed.proper (h : s.Formed) : s.blocks.kind.Proper :=
  h.blocksKind ▸ ContainerKind.proper_blocks

theorem Formed.entries (h : s.Formed) : s.blocks.kind.entries = sectionVolume := by
  rw [h.blocksKind]
  rfl

/-- It still does when a block is set. -/
theorem Formed.setBlock (h : s.Formed) (hi : i < sectionVolume) (state : BlockState) :
    (s.setBlock i state).Formed :=
  ⟨(Container.kind_set s.blocks i state).trans h.blocksKind, h.biomesKind,
    ⟨h.blocks.1.set h.proper (h.entries.symm ▸ hi) state, h.blocks.2.set h.proper i state⟩,
    h.biomes⟩

/-- **Setting a block changes that block alone**, up to what the section then keeps. -/
theorem Formed.block_setBlock (h : s.Formed) (hi : i < sectionVolume) (state : BlockState)
    {j : Nat} (hj : j < sectionVolume) : (s.setBlock i state).block j =
      (s.setBlock i state).blocks.keep (if j = i then state else s.block j) :=
  Container.get_set_eq_keep h.blocks.1 h.proper (h.entries.symm ▸ hi) state (h.entries.symm ▸ hj)

/-- The sections that there are: the empty ones, those that are read, and what becomes of them as
blocks are set. -/
inductive Obtained : ChunkSection → Prop
  | empty (biome : Int32) : Obtained (.empty biome)
  | read {bytes rest : Bytes} {s : ChunkSection} (h : decode bytes = .ok (s, rest)) : Obtained s
  | setBlock {s : ChunkSection} (h : Obtained s) {i : Nat} (hi : i < sectionVolume)
      (state : BlockState) : Obtained (s.setBlock i state)

/-- **Every section that there is, is formed.** -/
theorem Obtained.formed (h : s.Obtained) : s.Formed := by
  induction h with
  | empty biome => exact formed_empty biome
  | read hdecode => exact formed_of_decode hdecode
  | setBlock _ hi state ih => exact ih.setBlock hi state

/-- A section is sound if its blocks are in range and have room. -/
theorem Formed.sound (h : s.Formed) (hwide : s.blocks.WideEnough)
    (hrange : ∀ i < sectionVolume, IdInRange (s.block i)) : s.Sound := by
  refine ⟨Container.sound_iff.2 ⟨h.blocksKind, h.blocks.1, Container.wideEnough_iff.1 hwide, ?_⟩,
    h.biomesKind⟩
  rw [h.blocksKind]
  exact hrange

/-! ### The count -/

/-- How many blocks of a section are not air. -/
def solid (s : ChunkSection) : Nat :=
  (List.range sectionVolume).countP fun i => s.block i != BlockState.air

/-- Whether the count of a section is right. -/
def Counted (s : ChunkSection) : Prop := s.blockCount.toInt = s.solid

theorem solid_le (s : ChunkSection) : s.solid ≤ sectionVolume :=
  Nat.le_trans List.countP_le_length (Nat.le_of_eq List.length_range)

/-- The count changes by what becomes of one block. -/
theorem toInt_countChange (before after : BlockState) :
    (countChange before after).toInt =
      (if after != BlockState.air then 1 else 0) - (if before != BlockState.air then 1 else 0) := by
  by_cases hbefore : before = BlockState.air <;> by_cases hafter : after = BlockState.air <;>
    simp [countChange, hbefore, hafter]

/-- How many of the blocks that a function gives are not air. -/
def solidAmong (block : Nat → BlockState) : Nat :=
  (List.range sectionVolume).countP fun i => block i != BlockState.air

theorem solidAmong_congr {f g : Nat → BlockState} (h : ∀ j < sectionVolume, f j = g j) :
    solidAmong f = solidAmong g :=
  List.countP_congr fun j hj => by rw [h j (List.mem_range.1 hj)]

/-- A block that is replaced moves the number of those that are not air by what it contributes
itself. -/
theorem solidAmong_replace (f : Nat → BlockState) (hi : i < sectionVolume) (state : BlockState) :
    (solidAmong (fun j => if j = i then state else f j) : Int) =
      solidAmong f + (countChange (f i) state).toInt := by
  have hlist (g : Nat → BlockState) : solidAmong g =
      ((List.range sectionVolume).map g).countP (· != BlockState.air) := by
    rw [List.countP_map]
    rfl
  have hi' : i < ((List.range sectionVolume).map f).length := by
    rw [List.length_map, List.length_range]
    exact hi
  have hblock : ((List.range sectionVolume).map f)[i] = f i := by
    rw [List.getElem_map, List.getElem_range]
  -- a block that is not air is one of those counted
  have hone : (f i != BlockState.air) = true → 0 < solidAmong f := fun hsolid =>
    List.countP_pos_iff.2 ⟨i, List.mem_range.2 hi, hsolid⟩
  have hset : solidAmong (fun j => if j = i then state else f j) =
      solidAmong f - (if f i != BlockState.air then 1 else 0) +
        if state != BlockState.air then 1 else 0 := by
    rw [hlist, ← set_map_range, List.countP_set hi', hblock, ← hlist]
  rw [hset, toInt_countChange]
  split
  · next hsolid =>
    have := hone hsolid
    split <;> omega
  · split <;> omega

/-- Where there is room, a block that is set moves the number of solid blocks by what it contributes
itself. -/
theorem Sound.solid_setBlock (hs : s.Sound) (hi : i < sectionVolume) (hstate : IdInRange state) :
    ((s.setBlock i state).solid : Int) = s.solid + (countChange (s.block i) state).toInt := by
  refine Eq.trans (congrArg _ (solidAmong_congr fun j hj => ?_))
    (solidAmong_replace s.block hi state)
  exact hs.blocks.roomy.get_set hs.blocks.proper hs.blocks.le_globalBits
    (hs.blocks.entries.symm ▸ hi) hstate (hs.blocks.entries.symm ▸ hj)

/-- **A right count stays right.** -/
theorem Counted.setBlock (h : s.Counted) (hs : s.Sound) (hi : i < sectionVolume)
    (hstate : IdInRange state) : (s.setBlock i state).Counted := by
  have hsolid := hs.solid_setBlock hi hstate
  have hle : (s.setBlock i state).solid ≤ 4096 := solid_le _
  have hsum : (s.setBlock i state).blockCount.toInt =
      (s.blockCount.toInt + (countChange (s.block i) state).toInt).bmod (2 ^ 16) :=
    Int16.toInt_add ..
  rw [Counted, hsum, h, ← hsolid]
  exact Int.bmod_eq_of_le (by omega) (by omega)

/-! ### Reading back -/

/-- **A formed section can be written, and what is written is read back** as the very same section,
whatever follows, if its count is within bounds. If it is not, that is what the bytes are refused
for. -/
theorem Formed.exists_encode_eq (h : s.Formed) : ∃ written, s.encode = .ok written ∧
    ∀ rest, decode (written ++ rest) =
      if 0 ≤ s.blockCount.toInt ∧ s.blockCount.toInt ≤ 4096 then .ok (s, rest)
      else .error (.malformedColumn .blockCount) := by
  obtain ⟨hblocksKind, hbiomesKind, ⟨hblocks, hblocksShown⟩, hbiomes, hbiomesShown⟩ := h
  obtain ⟨front, hfront, hreadBlocks⟩ := Container.exists_encode
    (by rw [hblocksKind]; exact ContainerKind.proper_blocks)
    (by rw [hblocksKind]; exact ContainerKind.readable_blocks) hblocks hblocksShown
  obtain ⟨back, hback, hreadBiomes⟩ := Container.exists_encode
    (by rw [hbiomesKind]; exact ContainerKind.proper_biomes)
    (by rw [hbiomesKind]; exact ContainerKind.readable_biomes) hbiomes hbiomesShown
  rw [hblocksKind] at hreadBlocks
  rw [hbiomesKind] at hreadBiomes
  refine ⟨Bytes.ofNat 2 s.blockCount.toUInt16.toNat ++ front ++ back, ?_, fun rest => ?_⟩
  · simp only [encode, hfront, hback, bind, Except.bind]
    rfl
  · simp only [List.append_assoc, decode_count, hreadBlocks, hreadBiomes, bind, Except.bind]
    rfl

/-- **A formed section whose count is within bounds is read back**, whatever follows. -/
theorem Formed.exists_encode (h : s.Formed) (hlo : 0 ≤ s.blockCount.toInt)
    (hhi : s.blockCount.toInt ≤ 4096) :
    ∃ bytes, s.encode = .ok bytes ∧ ∀ rest, decode (bytes ++ rest) = .ok (s, rest) := by
  obtain ⟨written, hwritten, hread⟩ := h.exists_encode_eq
  exact ⟨written, hwritten, fun rest => (hread rest).trans (if_pos ⟨hlo, hhi⟩)⟩

/-- The section after some blocks have been set, the first of the list first. -/
def setBlocks (s : ChunkSection) (calls : List (Nat × BlockState)) : ChunkSection :=
  calls.foldl (fun s call => s.setBlock call.1 call.2) s

/-- A section that is empty, or read from bytes that count its blocks right and give them room. -/
inductive Honest : ChunkSection → Prop
  | empty (biome : Int32) : Honest (.empty biome)
  | read {bytes rest : Bytes} {s : ChunkSection} (h : decode bytes = .ok (s, rest))
      (hcount : s.Counted) (hwide : s.blocks.WideEnough)
      (hrange : ∀ i < sectionVolume, IdInRange (s.block i)) : Honest s

/-- An honest section holds together. -/
theorem Honest.formed (h : s.Honest) : s.Formed := by
  cases h with
  | empty biome => exact formed_empty biome
  | read hdecode => exact formed_of_decode hdecode

/-- An honest section is sound. -/
theorem Honest.sound (h : s.Honest) : s.Sound := by
  cases h with
  | empty biome =>
    have hair : IdInRange 0 := by decide
    exact (formed_empty biome).sound trivial fun _ _ => hair
  | read hdecode _ hwide hrange => exact (formed_of_decode hdecode).sound hwide hrange

/-- An honest section counts its blocks. -/
theorem Honest.counted (h : s.Honest) : s.Counted := by
  cases h with
  | empty biome =>
    have hnone : (ChunkSection.empty biome).solid = 0 := List.countP_eq_zero.2 fun i _ => by
      change ¬ (BlockState.air != BlockState.air) = true
      decide
    rw [Counted, hnone]
    rfl
  | read _ hcount => exact hcount

/-- What holds of a section with a right count holds after any blocks have been set. -/
theorem Counted.setBlocks (h : s.Counted) (hformed : s.Formed) (hs : s.Sound)
    {calls : List (Nat × BlockState)}
    (hcalls : ∀ call ∈ calls, call.1 < sectionVolume ∧ IdInRange call.2) :
    (s.setBlocks calls).Counted ∧ (s.setBlocks calls).Formed := by
  induction calls generalizing s with
  | nil => exact ⟨h, hformed⟩
  | cons call calls ih =>
    obtain ⟨hi, hstate⟩ := hcalls call List.mem_cons_self
    exact ih (h.setBlock hs hi hstate) (hformed.setBlock hi call.2) (hs.setBlock hi hstate)
      fun call' hcall' => hcalls call' (List.mem_cons_of_mem _ hcall')

/-- **The count is exact, and a section is read back.** However many blocks have been set in a
section that started with a right count, the count is the number of blocks that are not air; and
the section can be written, and what is written is read as the very same section, whatever
follows. -/
theorem counted_after_calls (h : s.Honest) {calls : List (Nat × BlockState)}
    (hcalls : ∀ call ∈ calls, call.1 < sectionVolume ∧ IdInRange call.2) :
    (s.setBlocks calls).blockCount.toInt =
        (List.range 4096).countP (fun i => (s.setBlocks calls).block i != BlockState.air) ∧
      ∃ bytes, (s.setBlocks calls).encode = .ok bytes ∧
        ∀ rest, decode (bytes ++ rest) = .ok (s.setBlocks calls, rest) := by
  obtain ⟨hcounted, hformed⟩ := h.counted.setBlocks h.formed h.sound hcalls
  have hle : (s.setBlocks calls).solid ≤ 4096 := solid_le _
  rw [Counted] at hcounted
  exact ⟨hcounted, hformed.exists_encode (by omega) (by omega)⟩

/-- The bytes of a section full of stone. -/
def stone : Bytes := [16, 0, 0, 1, 0, 3]

/-- One block of stone is taken away, and another becomes ore. -/
theorem counted_after_calls_stone : ∃ s, decode stone = .ok (s, []) ∧ s.Honest ∧
    (∀ call ∈ [(5, 0), (6, 9)], call.1 < sectionVolume ∧ IdInRange call.2) ∧
    (s.setBlocks [(5, 0), (6, 9)]).blockCount.toInt = (List.range 4096).countP
      (fun i => (s.setBlocks [(5, 0), (6, 9)]).block i != BlockState.air) ∧
    ∃ bytes, (s.setBlocks [(5, 0), (6, 9)]).encode = .ok bytes ∧
      ∀ rest, decode (bytes ++ rest) = .ok (s.setBlocks [(5, 0), (6, 9)], rest) := by
  have hdecode : decode stone =
      .ok (⟨4096, ⟨.blocks, .single 1⟩, ⟨.biomes, .single 3⟩⟩, []) := rfl
  have hstone : IdInRange 1 := by decide
  have hfull : Counted ⟨4096, ⟨.blocks, .single 1⟩, ⟨.biomes, .single 3⟩⟩ := by
    have hall : solid ⟨4096, ⟨.blocks, .single 1⟩, ⟨.biomes, .single 3⟩⟩ =
        (List.range sectionVolume).length := List.countP_eq_length.2 fun i _ => by
      change ((1 : BlockState) != BlockState.air) = true
      decide
    rw [Counted, hall, List.length_range]
    rfl
  have hcalls : ∀ call ∈ [(5, (0 : BlockState)), (6, 9)],
      call.1 < sectionVolume ∧ IdInRange call.2 := by decide
  have hhonest : Honest _ := .read hdecode hfull trivial fun _ _ => hstone
  exact ⟨_, hdecode, hhonest, hcalls, counted_after_calls hhonest hcalls⟩

end ChunkSection

end Playhead
