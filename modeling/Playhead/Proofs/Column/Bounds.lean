import Playhead.Proofs.Column.Exact
import Playhead.Proofs.Column.Strict

/-!
# Nothing is looked up out of bounds

Whatever the bytes of a column are, a strict run of the loop that reads it does not stop, and ends
(`Playhead.Column.reads_decodeFrom`). If they are accepted, then a strict run of any calls on the
column does not stop either, and gives the answers that they give
(`Playhead.Column.calls_in_bounds`). What carries it is the form of the sections, which reading
establishes and every block that is set restores.
-/

namespace Playhead

open Strict (look andThen)

/-! ### Strict sections and columns -/

/-- Reads a section; every lookup is checked. -/
def ChunkSection.strictDecode (bytes : Bytes) :
    Except Trap (Except Failure (ChunkSection × Bytes)) :=
  match Bytes.split? 2 bytes with
  | none => .ok (.error .endOfInput)
  | some (front, rest) => do
    let count := (UInt16.ofNat (Bytes.toNat front)).toInt16
    if count < 0 ∨ (sectionVolume : Int) < count.toInt then
      return .error (.malformedColumn .blockCount)
    else
      andThen (← Container.strictDecode .blocks rest) fun (blocks, rest) => do
        andThen (← Container.strictDecode .biomes rest) fun (biomes, rest) =>
          .ok (.ok (⟨count, blocks, biomes⟩, rest))

/-- The state of a block before another one is set there, and the section after it. -/
def ChunkSection.strictSetBlock (s : ChunkSection) (i : Nat) (state : BlockState) :
    Except Trap (BlockState × ChunkSection) := do
  let (previous, blocks) ← s.blocks.strictExchange i state
  return (previous,
    { s with blockCount := s.blockCount + countChange previous state, blocks := blocks })

namespace Column

/-- What is asked of a column: the block at a position, or to set one there and to tell what was
there before. -/
inductive Call where
  | block (p : Position)
  | setBlock (p : Position) (state : BlockState)

/-- The answer to a call, and the column after it. -/
def call (minY : Int32) (c : Column) : Call → Option BlockState × Column
  | .block p => (c.block? minY p, c)
  | .setBlock p state => (c.block? minY p, c.setBlock minY p state)

/-- A call of a column; every lookup is checked. -/
def strictCall (minY : Int32) (c : Column) : Call → Except Trap (Option BlockState × Column)
  | .block p =>
    match c.locate minY p with
    | none => .ok (none, c)
    | some (level, i) => do
      let s ← look .level c.sections level
      return (some (← s.blocks.strictGet i), c)
  | .setBlock p state =>
    match c.locate minY p with
    | none => .ok (none, c)
    | some (level, i) => do
      let s ← look .level c.sections level
      let (previous, s) ← s.strictSetBlock i state
      return (some previous, ⟨c.sections.setIfInBounds level s⟩)

/-- The answers to calls, one after another, and the column after them. -/
def answers (minY : Int32) (c : Column) : List Call → List (Option BlockState) × Column
  | [] => ([], c)
  | next :: calls =>
    let (answer, c) := c.call minY next
    let (others, c) := c.answers minY calls
    (answer :: others, c)

/-- The answers to a row of calls, and the column after them; every lookup is checked. -/
def strictAnswers (minY : Int32) (c : Column) :
    List Call → Except Trap (List (Option BlockState) × Column)
  | [] => .ok ([], c)
  | next :: calls => do
    let (answer, c) ← c.strictCall minY next
    let (others, c) ← c.strictAnswers minY calls
    return (answer :: others, c)

end Column

/-! ### Sections -/

namespace ChunkSection

variable {s : ChunkSection} {i : Nat}

/-- **No bytes stop a strict reader of sections.** -/
theorem strictDecode_eq (bytes : Bytes) : strictDecode bytes = .ok (decode bytes) := by
  simp only [strictDecode, decode]
  cases Bytes.split? 2 bytes with
  | none => rfl
  | some found =>
    dsimp only
    split
    · rfl
    · rw [Container.strictDecode_eq (by decide)]
      refine Strict.andThen_eq fun (blocks, rest) _ => ?_
      rw [Container.strictDecode_eq (by decide)]
      exact Strict.andThen_eq fun _ _ => rfl

theorem Formed.strictGet_eq (h : s.Formed) (hi : i < sectionVolume) :
    s.blocks.strictGet i = .ok (s.block i) :=
  h.blocks.1.strictGet_eq (h.entries.symm ▸ hi)

/-- A block of a section that holds together is replaced in bounds. -/
theorem Formed.strictSetBlock_eq (h : s.Formed) (hi : i < sectionVolume) (state : BlockState) :
    s.strictSetBlock i state = .ok (s.block i, s.setBlock i state) := by
  rw [strictSetBlock, h.blocks.1.strictExchange_eq h.proper (h.entries.symm ▸ hi)]
  rfl

end ChunkSection

/-! ### Calls -/

namespace Column

variable {c : Column}

/-- **A call is answered in bounds.** -/
theorem Obtained.strictCall_eq (h : c.Obtained) (minY : Int32) (next : Call) :
    c.strictCall minY next = .ok (c.call minY next) := by
  cases next with
  | block p =>
    simp only [strictCall, call]
    cases hp : c.locate minY p with
    | none => rw [block?, hp]; rfl
    | some found =>
      obtain ⟨hi, s, hs, hformed⟩ := h.exists_of_locate hp
      rw [block?_of_locate hp hs]
      simp only [look, hs, hformed.strictGet_eq hi, bind, Except.bind]
      rfl
  | setBlock p state =>
    simp only [strictCall, call]
    cases hp : c.locate minY p with
    | none => rw [block?, Column.setBlock, hp]; rfl
    | some found =>
      obtain ⟨hi, s, hs, hformed⟩ := h.exists_of_locate hp
      have hset := Strict.setIfInBounds_eq_modify hs fun s => s.setBlock found.2 state
      rw [block?_of_locate hp hs, Column.setBlock, hp]
      simp only [look, hs, hformed.strictSetBlock_eq hi, bind, Except.bind, hset]
      rfl

/-- A call leaves a column that can be obtained. -/
theorem Obtained.call (h : c.Obtained) (minY : Int32) (next : Call) :
    (c.call minY next).2.Obtained := by
  cases next with
  | block p => exact h
  | setBlock p state => exact h.setBlock minY p state

/-- **Calls are answered in bounds**, one after another. -/
theorem Obtained.strictAnswers_eq (h : c.Obtained) (minY : Int32) (calls : List Call) :
    c.strictAnswers minY calls = .ok (c.answers minY calls) ∧
      (c.answers minY calls).2.Obtained := by
  induction calls generalizing c with
  | nil => exact ⟨rfl, h⟩
  | cons next calls ih =>
    obtain ⟨hstrict, hobtained⟩ := ih (h.call minY next)
    refine ⟨?_, hobtained⟩
    simp only [strictAnswers, h.strictCall_eq, hstrict, bind, Except.bind]
    rfl

/-! ### The loop over sections -/

/-- A strict run of the loop that reads sections for as long as there are bytes, and how it ends. -/
inductive Reads : Array ChunkSection → Bytes → Except Failure Column → Prop
  | done {done : Array ChunkSection} : Reads done [] (.ok ⟨done⟩)
  | refused {done : Array ChunkSection} {bytes : Bytes} {e : Failure} (hsome : bytes ≠ [])
      (h : ChunkSection.strictDecode bytes = .ok (.error e)) : Reads done bytes (.error e)
  | turn {done : Array ChunkSection} {bytes rest : Bytes} {s : ChunkSection}
      {result : Except Failure Column} (hsome : bytes ≠ [])
      (h : ChunkSection.strictDecode bytes = .ok (.ok (s, rest)))
      (others : Reads (done.push s) rest result) : Reads done bytes result

/-- **The loop ends on every byte string**: every turn leaves fewer bytes. -/
theorem reads_decodeFrom (done : Array ChunkSection) (bytes : Bytes) :
    Reads done bytes (decodeFrom done bytes) := by
  have hstrict {bytes} := ChunkSection.strictDecode_eq bytes
  fun_induction decodeFrom done bytes with
  | case1 done => exact .done
  | case2 done bytes hsome e h => exact .refused hsome (hstrict.trans (congrArg _ h))
  | case3 done bytes hsome s rest h _ ih => exact .turn hsome (hstrict.trans (congrArg _ h)) ih
  | case4 done bytes _ s rest h hlength => exact absurd (decodeFrom_turn h done).1 hlength

/-! ### Columns that are read -/

/-- **Nothing is looked up out of bounds.** The loop that reads a column ends on every byte string.
If it accepts the string, then whatever calls are made on the column, at whatever positions and with
whatever states, a strict run of them never stops, and gives the answers that they give. And after
them, as at any time before, all slots are inside their palettes, which are no larger than their
width allows, and there are just as many words as the slots take. -/
theorem calls_in_bounds (bytes : Bytes) : Reads #[] bytes (decode bytes) ∧
    ∀ c, decode bytes = .ok c → ∀ (minY : Int32) (calls : List Call),
      c.strictAnswers minY calls = .ok (c.answers minY calls) ∧
        ∀ s ∈ (c.answers minY calls).2.sections.toList,
          s.blocks.kind = .blocks ∧ s.blocks.SlotsInside ∧
            s.biomes.kind = .biomes ∧ s.biomes.SlotsInside := by
  refine ⟨reads_decodeFrom _ _, fun c hdecode minY calls => ?_⟩
  obtain ⟨hstrict, hobtained⟩ := (obtained_of_decode hdecode).strictAnswers_eq minY calls
  refine ⟨hstrict, fun s hs => ?_⟩
  obtain ⟨hblocksKind, hbiomesKind, ⟨hblocks, -⟩, hbiomes, -⟩ := (hobtained s hs).formed
  exact ⟨hblocksKind, hblocks.slotsInside, hbiomesKind, hbiomes.slotsInside⟩

/-- Ore is put into stone, a state that is no id at all beside it, and both are looked at, as well
as what is below the column. -/
theorem calls_in_bounds_stone : ∃ c, decode ChunkSection.stone = .ok c ∧
    let calls : List Call := [.setBlock ⟨5, 0, 0⟩ 9, .setBlock ⟨6, 0, 0⟩ (-1), .block ⟨5, 0, 0⟩,
      .block ⟨6, 0, 0⟩, .block ⟨5, -1, 0⟩]
    c.strictAnswers 0 calls = .ok (c.answers 0 calls) ∧
      (c.answers 0 calls).1 = [some 1, some 1, some 9, some (-1), none] ∧
        ∀ s ∈ (c.answers 0 calls).2.sections.toList, s.blocks.SlotsInside := by
  have hstone : decode ChunkSection.stone =
      .ok ⟨#[⟨4096, ⟨.blocks, .single 1⟩, ⟨.biomes, .single 3⟩⟩]⟩ :=
    decode_of_section (by decide) rfl
  obtain ⟨-, hall⟩ := calls_in_bounds ChunkSection.stone
  obtain ⟨hstrict, hinside⟩ := hall _ hstone 0 [.setBlock ⟨5, 0, 0⟩ 9, .setBlock ⟨6, 0, 0⟩ (-1),
    .block ⟨5, 0, 0⟩, .block ⟨6, 0, 0⟩, .block ⟨5, -1, 0⟩]
  exact ⟨_, hstone, hstrict, by decide +kernel, fun s hs => (hinside s hs).2.1⟩

end Column

end Playhead
