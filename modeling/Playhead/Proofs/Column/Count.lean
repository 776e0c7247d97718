import Playhead.Proofs.Column.Keeping

/-!
# How far the count of a section can be off

The count of a section is what the wire says, moved by every block that is set. So it goes on being
off by as much as it was off when it was read. It moves by what a block was to be, not by what it
has become: a state that is cut to air in direct ids counts as a block although it is lost
(`Playhead.ChunkSection.lost`), and so the count drifts away
(`Playhead.ChunkSection.Formed.blockCount_setBlocks`).

Where nothing is lost, the count stays within its bounds, whatever is set, just when it was right at
first (`Playhead.ChunkSection.Sound.within_iff`). Otherwise it can leave them; then the section is
still written, and what is written is refused for its count (`Playhead.ChunkSection.count_drifts`).
Both ways out are open to what a reader accepts (`Playhead.ChunkSection.count_leaves_bounds`).
-/

namespace Playhead

/-! ### What is lost -/

/-- Air stays air, however few bits there are. -/
theorem Container.keep_air (c : Container) : c.keep BlockState.air = BlockState.air := by
  obtain ⟨kind, packing⟩ := c
  cases packing with
  | single => rfl
  | indirect => rfl
  | direct ids =>
    change entryToId (idToEntry 0 &&& lowOnes ids.bits) = 0
    rw [show idToEntry 0 = 0 from rfl, UInt64.zero_and]
    rfl

namespace ChunkSection

variable {s : ChunkSection} {i : Nat} {state : BlockState} {calls : List (Nat × BlockState)}
  {bytes rest : Bytes}

/-- How many blocks that were to be something turn into air, as one is set. -/
def lostBy (s : ChunkSection) (i : Nat) (state : BlockState) : Nat :=
  (List.range sectionVolume).countP fun j =>
    (if j = i then state else s.block j) != BlockState.air &&
      (s.setBlock i state).block j == BlockState.air

/-- How many blocks are lost on the way, as some are set one after another. -/
def lost (s : ChunkSection) : List (Nat × BlockState) → Nat
  | [] => 0
  | call :: calls => s.lostBy call.1 call.2 + (s.setBlock call.1 call.2).lost calls

/-- **What a block that is set contributes is there afterwards, or it is lost.** -/
theorem Formed.solid_add_lostBy (h : s.Formed) (hi : i < sectionVolume) (state : BlockState) :
    ((s.setBlock i state).solid : Int) + s.lostBy i state =
      s.solid + (countChange (s.block i) state).toInt := by
  have hsplit := List.countP_eq_countP_filter_add (List.range sectionVolume)
    (fun j => (if j = i then state else s.block j) != BlockState.air)
    (fun j => (s.setBlock i state).block j != BlockState.air)
  rw [List.countP_filter, List.countP_filter] at hsplit
  -- a block that is there was to be there
  have hthere : (List.range sectionVolume).countP (fun j =>
      (if j = i then state else s.block j) != BlockState.air &&
        (s.setBlock i state).block j != BlockState.air) = (s.setBlock i state).solid := by
    refine List.countP_congr fun j hj => ?_
    rw [h.block_setBlock hi state (List.mem_range.1 hj), Bool.and_eq_true, bne_iff_ne, bne_iff_ne]
    refine ⟨fun hboth => hboth.2, fun hkept => ⟨fun hair => hkept ?_, hkept⟩⟩
    rw [hair, Container.keep_air]
  have hlost : (List.range sectionVolume).countP (fun j =>
      (if j = i then state else s.block j) != BlockState.air &&
        !((s.setBlock i state).block j != BlockState.air)) = s.lostBy i state := by
    simp only [lostBy, bne, Bool.not_not]
  rw [hthere, hlost] at hsplit
  have hreplaced := solidAmong_replace s.block hi state
  rw [solidAmong, hsplit] at hreplaced
  exact_mod_cast hreplaced

/-- Where there is room, nothing is lost. -/
theorem Sound.lostBy_eq_zero (h : s.Sound) (hi : i < sectionVolume) (hstate : IdInRange state) :
    s.lostBy i state = 0 := by
  refine List.countP_eq_zero.2 fun j hj => ?_
  have hset : (s.setBlock i state).block j = if j = i then state else s.block j :=
    h.blocks.roomy.get_set h.blocks.proper h.blocks.le_globalBits (h.blocks.entries.symm ▸ hi)
      hstate (h.blocks.entries.symm ▸ List.mem_range.1 hj)
  rw [hset, Bool.and_eq_true, bne_iff_ne, beq_iff_eq]
  exact fun hboth => hboth.1 hboth.2

/-- Nothing is lost by calls on a sound section with blocks in range. -/
theorem Sound.lost_eq_zero (h : s.Sound)
    (hcalls : ∀ call ∈ calls, call.1 < sectionVolume ∧ IdInRange call.2) : s.lost calls = 0 := by
  induction calls generalizing s with
  | nil => rfl
  | cons call calls ih =>
    obtain ⟨hi, hstate⟩ := hcalls call List.mem_cons_self
    rw [lost, h.lostBy_eq_zero hi hstate, ih (h.setBlock hi hstate) fun call' hcall' =>
      hcalls call' (List.mem_cons_of_mem _ hcall')]

/-! ### The count on the way -/

/-- A section that holds together still does after any calls. -/
theorem Formed.setBlocks (h : s.Formed) (hcalls : ∀ call ∈ calls, call.1 < sectionVolume) :
    (s.setBlocks calls).Formed := by
  induction calls generalizing s with
  | nil => exact h
  | cons call calls ih =>
    exact ih (h.setBlock (hcalls call List.mem_cons_self) call.2) fun call' hcall' =>
      hcalls call' (List.mem_cons_of_mem _ hcall')

/-- **The count goes on being off by as much as it was, and by what is lost on the way**, modulo
its width. -/
theorem Formed.blockCount_setBlocks (h : s.Formed)
    (hcalls : ∀ call ∈ calls, call.1 < sectionVolume) :
    (s.setBlocks calls).blockCount.toInt =
      (s.blockCount.toInt - s.solid + (s.setBlocks calls).solid + s.lost calls).bmod (2 ^ 16) := by
  induction calls generalizing s with
  | nil =>
    change s.blockCount.toInt = (s.blockCount.toInt - s.solid + s.solid + (0 : Nat)).bmod (2 ^ 16)
    rw [Int.sub_add_cancel, Int.natCast_zero, Int.add_zero]
    exact (Int16.toInt_bmod_size _).symm
  | cons call calls ih =>
    have hi := hcalls call List.mem_cons_self
    have hstep := h.solid_add_lostBy hi call.2
    have hcount : (s.setBlock call.1 call.2).blockCount.toInt =
        (s.blockCount.toInt + (countChange (s.block call.1) call.2).toInt).bmod (2 ^ 16) :=
      Int16.toInt_add ..
    change ((s.setBlock call.1 call.2).setBlocks calls).blockCount.toInt =
      (_ + (((s.setBlock call.1 call.2).setBlocks calls).solid : Int) +
        ((s.lostBy call.1 call.2 + (s.setBlock call.1 call.2).lost calls : Nat) : Int)).bmod
          (2 ^ 16)
    -- to wrap around on the way comes to wrapping around at the end
    rw [ih (h.setBlock hi call.2) fun call' hcall' => hcalls call' (List.mem_cons_of_mem _ hcall'),
      hcount, Int.sub_eq_add_neg, Int.add_assoc, Int.add_assoc, Int.bmod_add_bmod]
    congr 1
    omega

/-- Where nothing is lost, the count never wraps around. -/
theorem Formed.blockCount_of_lost_eq_zero (h : s.Formed) (hlo : 0 ≤ s.blockCount.toInt)
    (hhi : s.blockCount.toInt ≤ 4096) (hcalls : ∀ call ∈ calls, call.1 < sectionVolume)
    (hlost : s.lost calls = 0) :
    (s.setBlocks calls).blockCount.toInt =
      s.blockCount.toInt - s.solid + (s.setBlocks calls).solid := by
  have hbefore : s.solid ≤ 4096 := solid_le _
  have hafter : (s.setBlocks calls).solid ≤ 4096 := solid_le _
  rw [h.blockCount_setBlocks hcalls, hlost, Int.natCast_zero, Int.add_zero, Int.bmod_eq_of_le] <;>
    omega

/-! ### Within bounds -/

/-- Calls that set the first blocks of a section to one state. -/
def fill (state : BlockState) (n : Nat) : List (Nat × BlockState) :=
  (List.range n).map fun i => (i, state)

/-- Each of the calls that fill a section is in bounds and in range. -/
theorem forall_mem_fill {n : Nat} (hn : n ≤ sectionVolume) (hstate : IdInRange state) :
    ∀ call ∈ fill state n, call.1 < sectionVolume ∧ IdInRange call.2 := by
  intro call hcall
  obtain ⟨i, hi, rfl⟩ := List.mem_map.1 hcall
  exact ⟨Nat.lt_of_lt_of_le (List.mem_range.1 hi) hn, hstate⟩

/-- Where there is room, blocks that are filled are there. -/
theorem Sound.fill (h : s.Sound) (hstate : IdInRange state) {n : Nat} (hn : n ≤ sectionVolume) :
    (s.setBlocks (fill state n)).Sound ∧ ∀ j < sectionVolume,
      (s.setBlocks (ChunkSection.fill state n)).block j = if j < n then state else s.block j := by
  induction n with
  | zero => exact ⟨h, fun j _ => rfl⟩
  | succ n ih =>
    obtain ⟨hsound, hblocks⟩ := ih (Nat.le_of_succ_le hn)
    have hlast : s.setBlocks (ChunkSection.fill state (n + 1)) =
        (s.setBlocks (ChunkSection.fill state n)).setBlock n state := by
      rw [ChunkSection.fill, List.range_succ, List.map_append, ChunkSection.setBlocks,
        List.foldl_append]
      rfl
    rw [hlast]
    refine ⟨hsound.setBlock hn hstate, fun j hj => ?_⟩
    have hset : ((s.setBlocks (ChunkSection.fill state n)).setBlock n state).block j =
        if j = n then state else (s.setBlocks (ChunkSection.fill state n)).block j :=
      hsound.blocks.roomy.get_set hsound.blocks.proper hsound.blocks.le_globalBits
        (hsound.blocks.entries.symm ▸ hn) hstate (hsound.blocks.entries.symm ▸ hj)
    rw [hset, hblocks j hj, ← ite_or]
    exact if_congr (by omega) rfl rfl

/-- A section that has been filled has no solid blocks, or nothing else. -/
theorem Sound.solid_fill (h : s.Sound) (hstate : IdInRange state) :
    (s.setBlocks (ChunkSection.fill state sectionVolume)).solid =
      if state = BlockState.air then 0 else 4096 := by
  have hall : (s.setBlocks (ChunkSection.fill state sectionVolume)).solid =
      solidAmong fun _ => state :=
    solidAmong_congr fun j hj => ((h.fill hstate (Nat.le_refl _)).2 j hj).trans (if_pos hj)
  rw [hall, solidAmong]
  split
  · next hair => exact List.countP_eq_zero.2 fun j _ => by rw [hair, bne_self_eq_false]; decide
  · next hair =>
    rw [List.countP_eq_length.2 fun j _ => bne_iff_ne.2 hair, List.length_range]
    rfl

/-- **Where there is room, the count stays within its bounds just when it was right.** -/
theorem Sound.within_iff (h : s.Sound) (hformed : s.Formed) (hlo : 0 ≤ s.blockCount.toInt)
    (hhi : s.blockCount.toInt ≤ 4096) :
    (∀ calls, (∀ call ∈ calls, call.1 < sectionVolume ∧ IdInRange call.2) →
      0 ≤ (s.setBlocks calls).blockCount.toInt ∧ (s.setBlocks calls).blockCount.toInt ≤ 4096) ↔
      s.Counted := by
  have hcount : ∀ calls, (∀ call ∈ calls, call.1 < sectionVolume ∧ IdInRange call.2) →
      (s.setBlocks calls).blockCount.toInt =
        s.blockCount.toInt - s.solid + (s.setBlocks calls).solid := fun calls hcalls =>
    hformed.blockCount_of_lost_eq_zero hlo hhi (fun call hcall => (hcalls call hcall).1)
      (h.lost_eq_zero hcalls)
  constructor
  · intro hwithin
    -- a section that is cleared shows a count that was too small, one that is filled one too large
    have hair : IdInRange BlockState.air := by decide
    have hstone : IdInRange 1 := by decide
    have hclear := forall_mem_fill (Nat.le_refl _) hair
    have hfull := forall_mem_fill (Nat.le_refl _) hstone
    have hsmall := (hwithin _ hclear).1
    have hlarge := (hwithin _ hfull).2
    rw [hcount _ hclear, h.solid_fill hair, if_pos rfl] at hsmall
    rw [hcount _ hfull, h.solid_fill hstone, if_neg (by decide)] at hlarge
    rw [Counted]
    omega
  · intro hcounted calls hcalls
    have hle : (s.setBlocks calls).solid ≤ 4096 := solid_le _
    rw [Counted] at hcounted
    rw [hcount calls hcalls]
    omega

/-- **What the count of a section that is read comes to.** After any blocks have been set, it is off
by as much as it was at first and by what has been lost on the way, modulo its width; if nothing has
been lost, it does not wrap around. The section can be written, and what is written is read back
just when the count is within its bounds, and otherwise refused for the count. If the blocks that
were read are in range and direct ids have room, then nothing is lost as such blocks are set, and
the count stays within its bounds, whatever they are, just when it was right at first. -/
theorem count_drifts (hdecode : decode bytes = .ok (s, rest)) :
    (∀ calls, (∀ call ∈ calls, call.1 < sectionVolume) →
      let t := s.setBlocks calls
      t.blockCount.toInt =
          (s.blockCount.toInt - s.solid + t.solid + s.lost calls).bmod (2 ^ 16) ∧
        (s.lost calls = 0 → t.blockCount.toInt = s.blockCount.toInt - s.solid + t.solid) ∧
        ∃ written, t.encode = .ok written ∧ ∀ rest', decode (written ++ rest') =
          if 0 ≤ t.blockCount.toInt ∧ t.blockCount.toInt ≤ 4096 then .ok (t, rest')
          else .error (.malformedColumn .blockCount)) ∧
    (s.blocks.WideEnough → (∀ i < sectionVolume, IdInRange (s.block i)) →
      (∀ calls, (∀ call ∈ calls, call.1 < sectionVolume ∧ IdInRange call.2) →
        s.lost calls = 0) ∧
      ((∀ calls, (∀ call ∈ calls, call.1 < sectionVolume ∧ IdInRange call.2) →
        0 ≤ (s.setBlocks calls).blockCount.toInt ∧ (s.setBlocks calls).blockCount.toInt ≤ 4096) ↔
        s.Counted)) := by
  obtain ⟨text, -, htext⟩ := decode_eq_ok_iff.1 hdecode
  obtain ⟨hlo, hhi⟩ := htext.count
  have hformed := htext.formed
  refine ⟨fun calls hcalls => ?_, fun hwide hrange => ?_⟩
  · exact ⟨hformed.blockCount_setBlocks hcalls,
      hformed.blockCount_of_lost_eq_zero hlo hhi hcalls,
      (hformed.setBlocks hcalls).exists_encode_eq⟩
  · have hsound := hformed.sound hwide hrange
    exact ⟨fun calls hcalls => hsound.lost_eq_zero hcalls, hsound.within_iff hformed hlo hhi⟩

/-- The bytes of a section of stone that is said to be all air. -/
def miscounted : Bytes := [0, 0, 0, 1, 0, 0]

/-- What is read from them. -/
def allStone : ChunkSection := ⟨0, ⟨.blocks, .single 1⟩, ⟨.biomes, .single 0⟩⟩

/-- The section is read, whatever it says of itself. -/
theorem decode_miscounted : decode miscounted = .ok (allStone, []) := rfl

/-- A block of stone is taken away where there should be none. -/
theorem count_drifts_miscounted : decode miscounted = .ok (allStone, []) ∧
    (∀ call ∈ [(5, (0 : BlockState))], call.1 < sectionVolume ∧ IdInRange call.2) ∧
    allStone.blocks.WideEnough ∧ (∀ i < sectionVolume, IdInRange (allStone.block i)) ∧
    allStone.lost [(5, 0)] = 0 ∧
    ((allStone.setBlocks [(5, 0)]).blockCount.toInt =
        0 - (allStone.solid : Int) + (allStone.setBlocks [(5, 0)]).solid ∧
      ∃ written, (allStone.setBlocks [(5, 0)]).encode = .ok written ∧
        ∀ rest', decode (written ++ rest') =
          if 0 ≤ (allStone.setBlocks [(5, 0)]).blockCount.toInt ∧
              (allStone.setBlocks [(5, 0)]).blockCount.toInt ≤ 4096 then
            .ok (allStone.setBlocks [(5, 0)], rest')
          else .error (.malformedColumn .blockCount)) ∧
    ((∀ calls, (∀ call ∈ calls, call.1 < sectionVolume ∧ IdInRange call.2) →
      0 ≤ (allStone.setBlocks calls).blockCount.toInt ∧
        (allStone.setBlocks calls).blockCount.toInt ≤ 4096) ↔ allStone.Counted) := by
  have hcalls : ∀ call ∈ [(5, (0 : BlockState))], call.1 < sectionVolume ∧ IdInRange call.2 := by
    decide
  have hone : IdInRange 1 := by decide
  obtain ⟨hall, hroom⟩ := count_drifts decode_miscounted
  obtain ⟨hlost, hwithin⟩ := hroom trivial fun _ _ => hone
  obtain ⟨-, hcount, hwritten⟩ := hall _ fun call hcall => (hcalls call hcall).1
  exact ⟨decode_miscounted, hcalls, trivial, fun _ _ => hone, hlost _ hcalls,
    ⟨hcount (hlost _ hcalls), hwritten⟩, hwithin⟩

/-! ### Out of bounds -/

/-- Direct ids of nine bits with nothing at the first index. -/
structure Forgetful (s : ChunkSection) : Prop where
  formed : s.Formed
  width : ∃ ids, s.blocks.packing = .direct ids ∧ ids.bits = 9
  first : s.block 0 = BlockState.air

/-- A state of ten bits that is set there counts, and is not there. -/
theorem Forgetful.setBlock (h : s.Forgetful) : (s.setBlock 0 512).Forgetful ∧
    (s.setBlock 0 512).blockCount = s.blockCount + 1 := by
  obtain ⟨hformed, ⟨ids, hpacking, hbits⟩, hair⟩ := h
  have hget : s.blocks.get 0 ≠ 512 := fun heq => by
    rw [show s.blocks.get 0 = BlockState.air from hair] at heq
    exact absurd heq (by decide)
  have hset : (s.setBlock 0 512).blocks.packing = .direct (ids.set 0 (idToEntry 512)) := by
    rw [ChunkSection.setBlock, Container.set, if_neg hget, hpacking]
    rfl
  refine ⟨⟨hformed.setBlock (by decide) 512, ⟨_, hset, hbits⟩, ?_⟩, ?_⟩
  · rw [hformed.block_setBlock (by decide) 512 (by decide), if_pos rfl, Container.keep, hset,
      Packing.keep, show (ids.set 0 (idToEntry 512)).bits = 9 from hbits]
    decide
  · rw [ChunkSection.setBlock, hair]
    rfl

/-- It can be done over and over. -/
theorem Forgetful.blockCount_setBlocks (h : s.Forgetful) (n : Nat) :
    (s.setBlocks (List.replicate n (0, 512))).blockCount.toInt =
      (s.blockCount.toInt + n).bmod (2 ^ 16) := by
  induction n generalizing s with
  | zero =>
    rw [Int.natCast_zero, Int.add_zero]
    exact (Int16.toInt_bmod_size _).symm
  | succ n ih =>
    obtain ⟨hagain, hcount⟩ := h.setBlock
    have hstep : (s.blockCount + 1).toInt = (s.blockCount.toInt + 1).bmod (2 ^ 16) :=
      Int16.toInt_add ..
    change ((s.setBlock 0 512).setBlocks (List.replicate n (0, 512))).blockCount.toInt = _
    rw [ih hagain, hcount, hstep, Int.bmod_add_bmod, Int.add_assoc, Int.natCast_succ,
      Int.add_comm 1]

/-- **The count can be driven out of its bounds, and anywhere.** A section of stone that is said to
be air, which the reader accepts, has a count of minus one after one block has been taken away, and
is then written as bytes that the reader refuses. And where direct ids have nine bits, a right count
grows with every state of ten bits that is set and lost, until it wraps around. -/
theorem count_leaves_bounds :
    (∃ s, decode miscounted = .ok (s, []) ∧ (s.setBlocks [(0, 0)]).blockCount.toInt = -1 ∧
      ∃ written, (s.setBlocks [(0, 0)]).encode = .ok written ∧
        decode written = .error (.malformedColumn .blockCount)) ∧
    ∃ s, decode Column.narrowBytes = .ok (s, []) ∧ s.Counted ∧
      ∀ n : Nat, (s.setBlocks (List.replicate n (0, 512))).blockCount.toInt =
        (n : Int).bmod (2 ^ 16) := by
  constructor
  · -- the section says that it has no blocks, so it has one less than none
    have hformed : allStone.Formed := formed_of_decode decode_miscounted
    have hagain : (allStone.setBlocks [(0, 0)]).Formed := hformed.setBlocks (by decide)
    obtain ⟨written, hwritten, hread⟩ := hagain.exists_encode_eq
    refine ⟨allStone, decode_miscounted, rfl, written, hwritten, ?_⟩
    rw [← List.append_nil written, hread, if_neg]
    exact fun hbounds => absurd hbounds.1 (by decide)
  · have hair : ∀ i, Column.narrow.block i = BlockState.air := fun i => by
      change entryToId ((PackedArray.zeros 9 4096).get i) = 0
      rw [PackedArray.get_zeros (by decide) (by decide)]
      rfl
    have hcounted : Column.narrow.Counted := by
      have hnone : Column.narrow.solid = 0 := List.countP_eq_zero.2 fun i _ => by
        rw [hair i]
        decide
      rw [Counted, hnone]
      rfl
    refine ⟨Column.narrow, Column.decode_narrow_section, hcounted, fun n => ?_⟩
    have hforgetful : Column.narrow.Forgetful := ⟨Column.formed_narrow, ⟨_, rfl, rfl⟩, hair 0⟩
    rw [hforgetful.blockCount_setBlocks n, show Column.narrow.blockCount.toInt = 0 from rfl,
      Int.zero_add]

end ChunkSection

end Playhead
