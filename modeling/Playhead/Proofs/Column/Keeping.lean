import Playhead.Proofs.Column.Diff

/-!
# What a column keeps of a block that is set

A column that is read can have sections in forms that nothing here would choose: palettes with ids
out of range, and direct ids of any width up to that of an id. A block that is set into direct ids
is cut to their width, as are all blocks of a section whose palette gives way to direct ids. So what
is found afterwards, at every position, is what its section keeps of the block that was to be there
(`Playhead.Column.Obtained.block?_setBlock`); direct ids too narrow for a block forget it
(`Playhead.Column.narrow_forgets`).

Where the blocks that were read are in range and direct ids have room, every block is kept, however
many have been set before (`Playhead.Column.kept_after_calls`).
-/

namespace Playhead

/-- Which block of a chunk a position is, whichever chunk that is. -/
def Position.cell (p : Position) : Int × Int16 × Int := (p.x.toInt % 16, p.y, p.z.toInt % 16)

/-- Positions are found at the same index just when they are the same block of a chunk. -/
theorem Content.locate_eq_iff {size level i : Nat} {minY : Int32} {p q : Position}
    (hp : locate size minY p = some (level, i)) :
    locate size minY q = some (level, i) ↔ q.cell = p.cell := by
  obtain ⟨hlt, hy, hz, hx⟩ := locate_eq_some_iff.1 hp
  simp only [locate_eq_some_iff, Position.cell, Prod.mk.injEq]
  constructor
  · rintro ⟨-, hy', hz', hx'⟩
    exact ⟨hx'.trans hx.symm, Int16.toInt_inj.1 (hy'.trans hy.symm), hz'.trans hz.symm⟩
  · rintro ⟨hx', hy', hz'⟩
    exact ⟨hlt, hy'.symm ▸ hy, hz'.trans hz, hx'.trans hx⟩

namespace Column

variable {c : Column} {minY : Int32} {p q : Position} {state : BlockState}

@[simp] theorem size_setBlock (c : Column) (minY : Int32) (p : Position) (state : BlockState) :
    (c.setBlock minY p state).sections.size = c.sections.size := by
  rw [setBlock]
  split
  · exact Array.size_modify
  · rfl

@[simp] theorem locate_setBlock (c : Column) (minY : Int32) (p q : Position) (state : BlockState) :
    (c.setBlock minY p state).locate minY q = c.locate minY q := by
  rw [locate, locate, size_setBlock]

@[simp] theorem locate_run (c : Column) (minY : Int32) (changes : List BlockChange)
    (p : Position) : (c.run minY changes).locate minY p = c.locate minY p := by
  induction changes generalizing c with
  | nil => rfl
  | cons ch changes ih => exact (ih _).trans (locate_setBlock ..)

/-- What the section of a position keeps of a state. -/
def keepAt (c : Column) (minY : Int32) (p : Position) (state : BlockState) : BlockState :=
  ((c.locate minY p).bind fun (level, _) => c.sections[level]?).elim state
    fun s => s.blocks.keep state

section Located

variable {level i : Nat} {s : ChunkSection}

/-- A block of a column is one of the section that it lies in. -/
theorem block?_of_locate (hq : c.locate minY q = some (level, i))
    (hs : c.sections[level]? = some s) : c.block? minY q = some (s.block i) := by
  rw [block?, hq]
  simp only [bind, Option.bind, hs]
  rfl

/-- What a column keeps of a block is what the section does. -/
theorem keepAt_of_locate (hq : c.locate minY q = some (level, i))
    (hs : c.sections[level]? = some s) (state : BlockState) :
    c.keepAt minY q state = s.blocks.keep state := by
  simp only [keepAt, hq, Option.bind_some, hs, Option.elim_some]

/-- Setting a block reaches one section. -/
theorem getElem?_setBlock (hp : c.locate minY p = some (level, i)) (state : BlockState)
    (k : Nat) : (c.setBlock minY p state).sections[k]? =
      if level = k then c.sections[k]?.map fun s => s.setBlock i state else c.sections[k]? := by
  rw [Column.setBlock, hp]
  exact Array.getElem?_modify

/-- A position that is found is in a section. -/
theorem Obtained.exists_of_locate (h : c.Obtained) (hp : c.locate minY p = some (level, i)) :
    i < sectionVolume ∧ ∃ s, c.sections[level]? = some s ∧ s.Formed := by
  obtain ⟨hlevel, hi⟩ := Content.locate_lt ((locate_eq c minY p).symm.trans hp)
  rw [length_content] at hlevel
  have hs := Array.getElem?_eq_getElem hlevel
  exact ⟨hi, _, hs, (h _ (Array.mem_toList_iff.2 (Array.mem_of_getElem? hs))).formed⟩

/-- **Setting a block changes that block alone**, up to what the sections then keep. -/
theorem Obtained.block?_setBlock (h : c.Obtained) (hp : c.locate minY p = some (level, i))
    (state : BlockState) (q : Position) :
    (c.setBlock minY p state).block? minY q =
      (if q.cell = p.cell then some state else c.block? minY q).map
        ((c.setBlock minY p state).keepAt minY q) := by
  obtain ⟨hi, -⟩ := h.exists_of_locate hp
  have hcell : c.locate minY q = some (level, i) ↔ q.cell = p.cell := Content.locate_eq_iff hp
  have hlocate := locate_setBlock c minY p q state
  cases hq : c.locate minY q with
  | none =>
    -- a position without a place in the column is not that of the block
    have hne : q.cell ≠ p.cell := fun heq => by
      rw [hcell.2 heq] at hq
      exact absurd hq (by simp)
    rw [if_neg hne, block?, block?, hlocate, hq]
    rfl
  | some found =>
    obtain ⟨level', j⟩ := found
    obtain ⟨hj, s, hs, hformed⟩ := h.exists_of_locate hq
    rw [hq, Option.some.injEq, Prod.mk.injEq] at hcell
    rw [hq] at hlocate
    have hafter := getElem?_setBlock hp state level'
    rw [hs, Option.map_some] at hafter
    rw [block?_of_locate hq hs]
    by_cases hlevel : level = level'
    · -- in the section where the block is set
      subst hlevel
      rw [if_pos rfl] at hafter
      rw [block?_of_locate hlocate hafter, hformed.block_setBlock hi state hj, ← apply_ite some,
        Option.map_some, keepAt_of_locate hlocate hafter]
      congr 3
      exact propext ⟨fun hji => hcell.1 ⟨rfl, hji⟩, fun heq => (hcell.2 heq).2⟩
    · -- and in any other
      rw [if_neg hlevel] at hafter
      have hne : q.cell ≠ p.cell := fun heq => hlevel (hcell.2 heq).1.symm
      rw [if_neg hne, block?_of_locate hlocate hafter, Option.map_some,
        keepAt_of_locate hlocate hafter, ChunkSection.block, hformed.blocks.1.keep_get]

end Located

/-- Where there is room, every state in range is kept. -/
theorem Sound.keepAt_eq_self (h : c.Sound) (minY : Int32) (p : Position)
    (hstate : IdInRange state) : c.keepAt minY p state = state := by
  rw [keepAt]
  cases hs : (c.locate minY p).bind fun (level, _) => c.sections[level]? with
  | none => rfl
  | some s =>
    obtain ⟨⟨level, i⟩, -, hs⟩ := Option.bind_eq_some_iff.1 hs
    have hs := (h s (Array.mem_toList_iff.2 (Array.mem_of_getElem? hs))).blocks
    exact Container.keep_eq_self hs.roomy.formed hs.roomy.width hstate

/-- **Where there is room, setting a block changes that block alone.** -/
theorem Sound.block?_setBlock (h : c.Sound) (hobtained : c.Obtained) {level i : Nat}
    (hp : c.locate minY p = some (level, i)) (hstate : IdInRange state) (q : Position) :
    (c.setBlock minY p state).block? minY q =
      if q.cell = p.cell then some state else c.block? minY q := by
  have hafter := h.setBlock minY p hstate
  rw [hobtained.block?_setBlock hp]
  split
  · rw [Option.map_some, hafter.keepAt_eq_self minY q hstate]
  · cases hblock : c.block? minY q with
    | none => rfl
    | some before =>
      rw [Option.map_some, hafter.keepAt_eq_self minY q (h.inRange_of_block? hblock)]

/-- **A column that is read stores what its sections keep.** After any blocks have been set in it,
setting one more inside its height puts at every position what the section there then keeps: of the
new state, at that block of the chunk, and of the state that was there, everywhere else. If the
blocks that were read and those that are set are in range and direct ids have room, all of it is
kept. -/
theorem kept_after_calls {data : Bytes} (hdecode : decode data = .ok c) (minY : Int32)
    (calls : List BlockChange) (hp : (c.locate minY p).isSome = true) (state : BlockState) :
    let before := c.run minY calls
    let after := before.setBlock minY p state
    (∀ q, after.block? minY q =
      (if q.cell = p.cell then some state else before.block? minY q).map (after.keepAt minY q)) ∧
    (c.InRange → (∀ call ∈ calls, IdInRange call.after) → IdInRange state →
      ∀ q, after.block? minY q = if q.cell = p.cell then some state else before.block? minY q) := by
  intro before after
  obtain ⟨⟨level, i⟩, hlocate⟩ := Option.isSome_iff_exists.1 hp
  rw [← locate_run c minY calls p] at hlocate
  have hobtained : before.Obtained := (obtained_of_decode hdecode).run minY calls
  constructor
  · exact hobtained.block?_setBlock hlocate state
  · intro hrange hcalls hstate
    obtain ⟨hsound, -⟩ := (sound_of_decode hdecode hrange).run minY hcalls
    exact hsound.block?_setBlock hobtained hlocate hstate

/-- A column of stone that is dug at one place after ore has been put at another. -/
theorem kept_after_calls_stone : ∃ c, decode ChunkSection.stone = .ok c ∧
    (c.locate 0 ⟨5, 0, 0⟩).isSome = true ∧ c.InRange ∧ IdInRange 9 ∧ IdInRange 0 ∧
      let before := c.run 0 [⟨⟨6, 0, 0⟩, 1, 9⟩]
      let after := before.setBlock 0 ⟨5, 0, 0⟩ 0
      (∀ q, after.block? 0 q =
        (if q.cell = (5, 0, 0) then some 0 else before.block? 0 q).map (after.keepAt 0 q)) ∧
      ∀ q, after.block? 0 q = if q.cell = (5, 0, 0) then some 0 else before.block? 0 q := by
  have hstone : decode ChunkSection.stone =
      .ok ⟨#[⟨4096, ⟨.blocks, .single 1⟩, ⟨.biomes, .single 3⟩⟩]⟩ :=
    decode_of_section (by decide) rfl
  have hone : IdInRange 1 := by decide
  have hrange : InRange ⟨#[⟨4096, ⟨.blocks, .single 1⟩, ⟨.biomes, .single 3⟩⟩]⟩ := by
    intro s hs
    obtain rfl := List.mem_singleton.1 hs
    exact ⟨trivial, fun _ _ => hone⟩
  have hcalls : ∀ call ∈ [(⟨⟨6, 0, 0⟩, 1, 9⟩ : BlockChange)], IdInRange call.after := by decide
  obtain ⟨hkept, hall⟩ := kept_after_calls hstone 0 [⟨⟨6, 0, 0⟩, 1, 9⟩] (p := ⟨5, 0, 0⟩)
    rfl 0
  exact ⟨_, hstone, rfl, hrange, by decide, by decide, hkept, hall hrange hcalls (by decide)⟩

/-! ### Direct ids without room -/

/-- A section of air with direct ids of nine bits. -/
def narrow : ChunkSection := ⟨0, ⟨.blocks, .direct (.zeros 9 4096)⟩, ⟨.biomes, .single 0⟩⟩

/-- The bytes of that section. -/
def narrowBytes : Bytes := [0, 0, 9] ++ List.replicate 4688 0 ++ [0, 0]

/-- The narrow section holds together. -/
theorem formed_narrow : narrow.Formed := by
  refine ⟨rfl, rfl, ⟨⟨.zeros (by decide) (by decide) 4096, rfl⟩, ?_⟩,
    Container.formed_single _ _, Container.shown_single _ _⟩
  rintro ids hids
  obtain rfl := Packing.direct.inj hids
  decide

/-- The narrow section is written as it was read. -/
theorem encode_narrow : narrow.encode = .ok narrowBytes := by
  have hids : (PackedArray.zeros 9 4096).encode = List.replicate 4688 0 := by
    have hzero : Bytes.ofNat 8 (UInt64.toNat 0) = List.replicate 8 0 := rfl
    rw [PackedArray.encode, PackedArray.zeros, Array.toList_replicate, List.flatMap_replicate,
      hzero, List.flatten_replicate_replicate]
    rfl
  have hblocks : narrow.blocks.encode = .ok (9 :: List.replicate 4688 0) := by
    rw [← hids]
    rfl
  have hbiomes : (Container.single .biomes 0).encode = .ok [0, 0] := by cbv
  have hsingle : narrow.biomes.encode = .ok [0, 0] := hbiomes
  rw [ChunkSection.encode, narrowBytes, hblocks, hsingle]
  generalize List.replicate 4688 (0 : UInt8) = ids
  rfl

/-- The section is read. -/
theorem decode_narrow_section : ChunkSection.decode narrowBytes = .ok (narrow, []) := by
  obtain ⟨bytes, hbytes, hread⟩ := formed_narrow.exists_encode (by decide) (by decide)
  obtain rfl := Except.ok.inj (encode_narrow.symm.trans hbytes)
  have hsection := hread []
  rwa [List.append_nil] at hsection

/-- The column is read. -/
theorem decode_narrow : decode narrowBytes = .ok ⟨#[narrow]⟩ :=
  decode_of_section (List.cons_ne_nil _ _) decode_narrow_section

/-- **Direct ids without room forget a block**: a state of ten bits that is set in nine is air. -/
theorem narrow_forgets : ∃ c, decode narrowBytes = .ok c ∧
    (c.locate 0 ⟨0, 0, 0⟩).isSome = true ∧ IdInRange 512 ∧
      (c.setBlock 0 ⟨0, 0, 0⟩ 512).block? 0 ⟨0, 0, 0⟩ = some 0 := by
  have hlocate : (Column.mk #[narrow]).locate 0 ⟨0, 0, 0⟩ = some (0, 0) := rfl
  have hsection : ((Column.mk #[narrow]).setBlock 0 ⟨0, 0, 0⟩ 512).sections[0]? =
      some (narrow.setBlock 0 512) := (getElem?_setBlock hlocate 512 0).trans (if_pos rfl)
  have hair : narrow.blocks.get 0 ≠ 512 := by
    change entryToId ((PackedArray.zeros 9 4096).get 0) ≠ 512
    rw [PackedArray.get_zeros (by decide) (by decide)]
    decide
  have hkept : (narrow.setBlock 0 512).blocks.keep 512 = 0 := by
    rw [ChunkSection.setBlock, Container.set, if_neg hair]
    decide
  refine ⟨_, decode_narrow, rfl, by decide, ?_⟩
  rw [(obtained_of_decode decode_narrow).block?_setBlock hlocate, if_pos rfl, Option.map_some,
    keepAt_of_locate ((locate_setBlock ..).trans hlocate) hsection, hkept]

end Column

end Playhead
