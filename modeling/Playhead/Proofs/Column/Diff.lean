import Playhead.Proofs.Column.Section
import Playhead.Proofs.Packet

/-!
# Comparing columns

Columns are the same when their contents are equal (`Playhead.Column.same_iff`). The list of block
changes between two columns of one shape is chained and leads from one content to the other
(`Playhead.Column.chained_diff?`): it has a change for every index at which the blocks differ
(`Playhead.Column.mem_diff?_iff`), at a position that is found at that index
(`Playhead.Column.locate_positionOf`) and lies in the chunk it was made for
(`Playhead.Column.chunk_of_mem_diff?`). Positions of a chunk have coordinates that can be packed, as
long as the chunk and its heights are in range (`Playhead.Column.packable_of_locate`).
-/

namespace Playhead

/-! ### Positions of a chunk -/

/-- The coordinates of chunks whose blocks have coordinates that can be packed. -/
def ChunkInRange (x z : Int32) : Prop :=
  (-0x200000 ≤ x.toInt ∧ x.toInt < 0x200000) ∧ (-0x200000 ≤ z.toInt ∧ z.toInt < 0x200000)

instance (x z : Int32) : Decidable (ChunkInRange x z) := inferInstanceAs (Decidable (_ ∧ _))

/-- The heights of columns whose blocks have heights that can be packed. -/
def HeightsInRange (minY : Int32) (size : Nat) : Prop :=
  -0x800 ≤ minY.toInt ∧ minY.toInt + 16 * size ≤ 0x800

instance (minY : Int32) (size : Nat) : Decidable (HeightsInRange minY size) :=
  inferInstanceAs (Decidable (_ ∧ _))

/-- The heights of columns whose blocks have heights of sixteen bits. -/
def HeightsFit (minY : Int32) (size : Nat) : Prop :=
  -0x8000 ≤ minY.toInt ∧ minY.toInt + 16 * size ≤ 0x8000

instance (minY : Int32) (size : Nat) : Decidable (HeightsFit minY size) :=
  inferInstanceAs (Decidable (_ ∧ _))

/-- Heights that are in range fit. -/
theorem HeightsInRange.fit {minY : Int32} {size : Nat} (h : HeightsInRange minY size) :
    HeightsFit minY size := by
  obtain ⟨hlo, hhi⟩ := h
  exact ⟨by omega, by omega⟩

namespace Column

/-- A coordinate in a chunk is that of the chunk times sixteen, and the rest. -/
theorem toInt_blockCoordinate {v : Int32} (hlo : -0x200000 ≤ v.toInt) (hhi : v.toInt < 0x200000)
    {i : Nat} (hi : i < 16) : (v * 16 + Int32.ofNat i).toInt = v.toInt * 16 + i := by
  have hsixteen : (16 : Int32).toInt = 16 := rfl
  have hsmall : (Int32.ofNat i).toInt = i := Int32.toInt_ofNat_of_lt (by omega)
  rw [Int32.toInt_add, Int32.toInt_mul, hsixteen, hsmall]
  rw [Int.bmod_eq_of_le (n := v.toInt * 16) (by omega) (by omega)]
  exact Int.bmod_eq_of_le (by omega) (by omega)

theorem toInt_positionOf_x {x z : Int32} (minY : Int32) (h : ChunkInRange x z) (level i : Nat) :
    (positionOf x z minY level i).x.toInt = x.toInt * 16 + (i % 16 : Nat) :=
  toInt_blockCoordinate h.1.1 h.1.2 (Nat.mod_lt _ (by decide))

theorem toInt_positionOf_z {x z : Int32} (minY : Int32) (h : ChunkInRange x z) (level i : Nat) :
    (positionOf x z minY level i).z.toInt = z.toInt * 16 + (i / 16 % 16 : Nat) :=
  toInt_blockCoordinate h.2.1 h.2.2 (Nat.mod_lt _ (by decide))

theorem chunkCoordinate_eq {v c : Int32} {i : Nat} (h : v.toInt = c.toInt * 16 + i) (hi : i < 16) :
    chunkCoordinate v = c := by
  rw [chunkCoordinate, h, show (c.toInt * 16 + i) / 16 = c.toInt by omega, Int32.ofInt_toInt]

/-- **A place in a chunk lies in the chunk.** -/
theorem chunk_positionOf {x z : Int32} (minY : Int32) (h : ChunkInRange x z) (level i : Nat) :
    (positionOf x z minY level i).chunk = (x, z) := by
  rw [Position.chunk,
    chunkCoordinate_eq (toInt_positionOf_x minY h level i) (Nat.mod_lt _ (by decide)),
    chunkCoordinate_eq (toInt_positionOf_z minY h level i) (Nat.mod_lt _ (by decide))]

/-- Inside its chunk a block has the coordinates of its index, also where a chunk is so far out that
coordinates wrap around. -/
theorem emod_blockCoordinate (v : Int32) {i : Nat} (hi : i < 16) :
    (v * 16 + Int32.ofNat i).toInt % 16 = i := by
  have hsixteen : (16 : Int32).toInt = 16 := rfl
  have hsmall : (Int32.ofNat i).toInt = i := Int32.toInt_ofNat_of_lt (by omega)
  have hsum := @Int.bmod_emod ((v.toInt * 16).bmod (2 ^ 32) + i) (2 ^ 32)
  have hproduct := @Int.bmod_emod (v.toInt * 16) (2 ^ 32)
  rw [Int32.toInt_add, Int32.toInt_mul, hsixteen, hsmall]
  omega

/-- The height of a block in its section. -/
theorem toInt_positionOf_y {x z minY : Int32} {size level i : Nat} (h : HeightsFit minY size)
    (hlevel : level < size) (hi : i < 4096) :
    (positionOf x z minY level i).y.toInt = minY.toInt + 16 * level + (i / 256 : Nat) := by
  obtain ⟨hlo, hhi⟩ := h
  rw [positionOf, Int16.toInt_ofInt_of_le] <;> omega

/-- **The position of an index is found at that index.** -/
theorem locate_positionOf {x z minY : Int32} {size level i : Nat} (h : HeightsFit minY size)
    (hlevel : level < size) (hi : i < 4096) :
    Content.locate size minY (positionOf x z minY level i) = some (level, i) := by
  rw [Content.locate_eq_some_iff]
  refine ⟨⟨hlevel, hi⟩, toInt_positionOf_y h hlevel hi, ?_, ?_⟩
  · exact emod_blockCoordinate z (Nat.mod_lt _ (by decide))
  · exact emod_blockCoordinate x (Nat.mod_lt _ (by decide))

/-- The chunk of a block is the one that it lies in. -/
theorem toInt_of_chunkCoordinate {v c : Int32} (h : chunkCoordinate v = c) :
    c.toInt * 16 ≤ v.toInt ∧ v.toInt < c.toInt * 16 + 16 := by
  have hlo := Int32.le_toInt v
  have hhi := Int32.toInt_lt v
  have hdiv : c.toInt = v.toInt / 16 := by
    rw [← h, chunkCoordinate, Int32.toInt_ofInt_of_le] <;> omega
  omega

/-- **A position inside a column of a chunk in range can be packed.** -/
theorem packable_of_locate {x z minY : Int32} {size : Nat} {p : Position} (hp : p.chunk = (x, z))
    (hchunk : ChunkInRange x z) (h : HeightsInRange minY size) {level i : Nat}
    (hlocate : Content.locate size minY p = some (level, i)) : p.Packable := by
  obtain ⟨hpx, hpz⟩ := Prod.mk.inj hp
  have hx := toInt_of_chunkCoordinate hpx
  have hz := toInt_of_chunkCoordinate hpz
  obtain ⟨⟨hx0, hx1⟩, hz0, hz1⟩ := hchunk
  obtain ⟨hlo, hhi⟩ := h
  obtain ⟨⟨hlevel, hi⟩, hy, -, -⟩ := Content.locate_eq_some_iff.1 hlocate
  exact ⟨⟨by omega, by omega⟩, ⟨by omega, by omega⟩, by omega, by omega⟩

/-! ### Columns that are the same -/

/-- Lists that agree member by member have the same image. -/
theorem all_zip_iff {α β : Type} {r : α → α → Bool} {f : α → β} {as bs : List α}
    (h : ∀ a ∈ as, ∀ b ∈ bs, r a b = true ↔ f a = f b) :
    (as.length = bs.length ∧ (as.zip bs).all (fun (a, b) => r a b) = true) ↔
      as.map f = bs.map f := by
  induction as generalizing bs with
  | nil => cases bs <;> simp
  | cons a as ih =>
    cases bs with
    | nil => simp
    | cons b bs =>
      have hrest := ih fun a ha b hb =>
        h a (List.mem_cons_of_mem _ ha) b (List.mem_cons_of_mem _ hb)
      have hhead := h a List.mem_cons_self b List.mem_cons_self
      simp only [List.length_cons, Nat.add_right_cancel_iff, List.zip_cons_cons, List.all_cons,
        Bool.and_eq_true, List.map_cons, List.cons.injEq, ← hrest, hhead]
      exact ⟨fun ⟨hl, hb, ht⟩ => ⟨hb, hl, ht⟩, fun ⟨hb, hl, ht⟩ => ⟨hl, hb, ht⟩⟩

/-- **Columns are the same when their contents are equal.** -/
theorem same_iff {c d : Column} (hc : c.Sound) (hd : d.Sound) :
    c.same d = true ↔ c.content = d.content := by
  simp only [same, Bool.and_eq_true, decide_eq_true_eq, ← Array.length_toList]
  refine all_zip_iff fun s hs t ht => ?_
  have hs := hc s hs
  have ht := hd t ht
  rw [ChunkSection.same, Bool.and_eq_true,
    Container.same_iff (hs.blocks.kind.trans ht.blocks.kind.symm),
    Container.same_iff (hs.biomes.trans ht.biomes.symm), ChunkSection.content,
    ChunkSection.content, SectionContent.mk.injEq]

/-- Columns have the same shape if they have the same biomes, section by section. -/
theorem sameShape_iff {c d : Column} (hc : c.Sound) (hd : d.Sound) :
    c.sameShape d = true ↔
      c.sections.toList.map (·.biomes.toList) = d.sections.toList.map (·.biomes.toList) := by
  simp only [sameShape, Bool.and_eq_true, decide_eq_true_eq, ← Array.length_toList]
  have hbiomes : ∀ s ∈ c.sections.toList, ∀ t ∈ d.sections.toList,
      s.biomes.same t.biomes = true ↔ s.biomes.toList = t.biomes.toList := fun s hs t ht =>
    Container.same_iff ((hc s hs).biomes.trans (hd t ht).biomes.symm)
  exact all_zip_iff hbiomes

/-! ### From one column to another -/

/-- One section is turned into another, and the others stay. -/
theorem chained_sectionDiff (x z : Int32) {minY : Int32} {s t : ChunkSection} (hs : s.Sound)
    (ht : t.Sound) (hbiomes : s.biomes.toList = t.biomes.toList) (front back : Content)
    (h : HeightsFit minY (front.length + (back.length + 1))) :
    Content.Chained minY (front ++ s.content :: back) (sectionDiff x z minY front.length s t) ∧
      Content.run minY (front ++ s.content :: back) (sectionDiff x z minY front.length s t) =
        front ++ t.content :: back := by
  have hlevel : (front ++ s.content :: back)[front.length]? =
      some ⟨(List.range 4096).map s.block, s.biomes.toList⟩ := by
    rw [List.getElem?_append_right (Nat.le_refl _), Nat.sub_self, List.getElem?_cons_zero,
      hs.content_eq]
  have hset : (front ++ s.content :: back).set front.length
      ⟨(List.range 4096).map t.block, s.biomes.toList⟩ = front ++ t.content :: back := by
    rw [List.set_append_right _ _ (Nat.le_refl _), Nat.sub_self, List.set_cons_zero, hbiomes,
      ht.content_eq]
  have hsection := Content.chained_section t.block hlevel
    (positionOf x z minY front.length) fun i hi => by
      rw [List.length_append, List.length_cons]
      exact locate_positionOf h (by omega) hi
  rw [hset] at hsection
  exact hsection

/-- The changes between sections, the first of which is at a level. -/
def sectionDiffs (x z minY : Int32) (level : Nat) (pairs : List (ChunkSection × ChunkSection)) :
    List BlockChange :=
  (pairs.zipIdx level).flatMap fun (p, level) => sectionDiff x z minY level p.1 p.2

/-- Sections are turned into others one after the other, the lowest first. -/
theorem chained_sectionDiffs (x z : Int32) {minY : Int32}
    {pairs : List (ChunkSection × ChunkSection)} (done : Content)
    (hpairs : ∀ p ∈ pairs, p.1.Sound ∧ p.2.Sound ∧ p.1.biomes.toList = p.2.biomes.toList)
    (h : HeightsFit minY (done.length + pairs.length)) :
    Content.Chained minY (done ++ pairs.map fun p => p.1.content)
        (sectionDiffs x z minY done.length pairs) ∧
      Content.run minY (done ++ pairs.map fun p => p.1.content)
        (sectionDiffs x z minY done.length pairs) = done ++ pairs.map fun p => p.2.content := by
  induction pairs generalizing done with
  | nil => exact ⟨.nil, rfl⟩
  | cons p pairs ih =>
    obtain ⟨s, t⟩ := p
    obtain ⟨hs, ht, hbiomes⟩ := hpairs (s, t) List.mem_cons_self
    obtain ⟨hchained, hrun⟩ := chained_sectionDiff x z hs ht hbiomes done
      (pairs.map fun p => p.1.content) (by rwa [List.length_map])
    have hsplit : ∀ c : SectionContent, done ++ c :: (pairs.map fun p => p.1.content) =
        (done ++ [c]) ++ pairs.map fun p => p.1.content := fun c => by
      rw [List.append_assoc, List.singleton_append]
    have hnext := ih (done ++ [t.content])
      (fun p hp => hpairs p (List.mem_cons_of_mem _ hp)) (by
        rw [List.length_append, List.length_singleton, Nat.add_assoc, Nat.add_comm 1]
        exact h)
    rw [← hsplit, List.length_append, List.length_singleton] at hnext
    obtain ⟨hchained', hrun'⟩ := hnext
    -- the changes of the lowest section come first
    have hcons : sectionDiffs x z minY done.length ((s, t) :: pairs) =
        sectionDiff x z minY done.length s t ++ sectionDiffs x z minY (done.length + 1) pairs := by
      rw [sectionDiffs, List.zipIdx_cons, List.flatMap_cons]
      rfl
    rw [hcons, Content.chained_append, Content.run_append, List.map_cons, List.map_cons, hrun]
    refine ⟨⟨hchained, hchained'⟩, hrun'.trans ?_⟩
    rw [List.append_assoc, List.singleton_append]

/-- **The changes between two columns lead from one to the other.** -/
theorem chained_diff? {x z minY : Int32} {c d : Column} (hc : c.Sound) (hd : d.Sound)
    (h : HeightsFit minY c.sections.size) {changes : List BlockChange}
    (hdiff : diff? x z minY c d = some changes) :
    Content.Chained minY c.content changes ∧ Content.run minY c.content changes = d.content := by
  rw [diff?] at hdiff
  split at hdiff
  · next hshape =>
    obtain rfl := Option.some.inj hdiff
    have hbiomes := (sameShape_iff hc hd).1 hshape
    have hsize : c.sections.toList.length = d.sections.toList.length := by
      simpa using congrArg List.length hbiomes
    -- columns of the same shape have sections in pairs, which agree on their biomes
    have hpairs : ∀ p ∈ c.sections.toList.zip d.sections.toList,
        p.1.Sound ∧ p.2.Sound ∧ p.1.biomes.toList = p.2.biomes.toList := by
      intro p hp
      refine ⟨hc _ (List.of_mem_zip hp).1, hd _ (List.of_mem_zip hp).2, ?_⟩
      obtain ⟨k, hk⟩ := List.mem_iff_getElem?.1 hp
      obtain ⟨hs, ht⟩ := List.getElem?_zip_eq_some.1 hk
      have := congrArg (·[k]?) hbiomes
      simpa [List.getElem?_map, hs, ht] using this
    have hfst : ((c.sections.toList.zip d.sections.toList).map fun p => p.1.content) =
        c.content := by
      have := congrArg (List.map ChunkSection.content) (List.map_fst_zip (Nat.le_of_eq hsize))
      rwa [List.map_map] at this
    have hsnd : ((c.sections.toList.zip d.sections.toList).map fun p => p.2.content) =
        d.content := by
      have := congrArg (List.map ChunkSection.content) (List.map_snd_zip (Nat.le_of_eq hsize.symm))
      rwa [List.map_map] at this
    have hlength : (c.sections.toList.zip d.sections.toList).length = c.sections.size := by
      rw [List.length_zip, ← hsize, Nat.min_self, Array.length_toList]
    have hsections := chained_sectionDiffs x z [] hpairs (by
      rwa [List.length_nil, Nat.zero_add, hlength])
    rwa [List.nil_append, List.nil_append, hfst, hsnd] at hsections
  · exact absurd hdiff (by simp)

/-- **The changes of a section are its differences**, each with what was and what will be there. -/
theorem mem_sectionDiff_iff {x z minY : Int32} {level : Nat} {s t : ChunkSection}
    {ch : BlockChange} : ch ∈ sectionDiff x z minY level s t ↔
      ∃ i < sectionVolume, s.block i ≠ t.block i ∧
        ch = ⟨positionOf x z minY level i, s.block i, t.block i⟩ := by
  rw [sectionDiff, List.mem_filterMap]
  constructor
  · rintro ⟨i, hi, hch⟩
    simp only at hch
    split at hch
    · exact absurd hch (by simp)
    · next hne => exact ⟨i, List.mem_range.1 hi, hne, (Option.some.inj hch).symm⟩
  · rintro ⟨i, hi, hne, rfl⟩
    exact ⟨i, List.mem_range.2 hi, if_neg hne⟩

/-- **There is a change for every index at which the blocks differ, and for no other.** -/
theorem mem_diff?_iff {x z minY : Int32} {c d : Column} {changes : List BlockChange}
    (hdiff : diff? x z minY c d = some changes) {ch : BlockChange} :
    ch ∈ changes ↔ ∃ level i s t, c.sections[level]? = some s ∧ d.sections[level]? = some t ∧
      i < sectionVolume ∧ s.block i ≠ t.block i ∧
        ch = ⟨positionOf x z minY level i, s.block i, t.block i⟩ := by
  rw [diff?] at hdiff
  split at hdiff
  · obtain rfl := Option.some.inj hdiff
    simp only [← Array.getElem?_toList]
    constructor
    · intro hch
      obtain ⟨⟨⟨s, t⟩, level⟩, hst, hch⟩ := List.mem_flatMap.1 hch
      obtain ⟨hs, ht⟩ := List.getElem?_zip_eq_some.1 (List.mem_zipIdx_iff_getElem?.1 hst)
      obtain ⟨i, hi, hne, rfl⟩ := mem_sectionDiff_iff.1 hch
      exact ⟨level, i, s, t, hs, ht, hi, hne, rfl⟩
    · rintro ⟨level, i, s, t, hs, ht, hi, hne, rfl⟩
      refine List.mem_flatMap.2 ⟨((s, t), level), ?_, mem_sectionDiff_iff.2 ⟨i, hi, hne, rfl⟩⟩
      exact List.mem_zipIdx_iff_getElem?.2 (List.getElem?_zip_eq_some.2 ⟨hs, ht⟩)
  · exact absurd hdiff (by simp)

/-- Every change between two columns is at a position of the chunk. -/
theorem chunk_of_mem_diff? {x z minY : Int32} {c d : Column} (hchunk : ChunkInRange x z)
    {changes : List BlockChange} (hdiff : diff? x z minY c d = some changes) {ch : BlockChange}
    (hch : ch ∈ changes) : ch.position.chunk = (x, z) := by
  obtain ⟨level, i, -, -, -, -, -, -, rfl⟩ := (mem_diff?_iff hdiff).1 hch
  exact chunk_positionOf minY hchunk level i

/-- Every change between two columns changes a block. -/
theorem before_ne_after_of_mem_diff? {x z minY : Int32} {c d : Column} {changes : List BlockChange}
    (hdiff : diff? x z minY c d = some changes) {ch : BlockChange} (hch : ch ∈ changes) :
    ch.before ≠ ch.after := by
  obtain ⟨level, i, s, t, -, -, -, hne, rfl⟩ := (mem_diff?_iff hdiff).1 hch
  exact hne

/-- The states of changes between sound columns are in range. -/
theorem Sound.inRange_of_mem_diff? {x z minY : Int32} {c d : Column} (hc : c.Sound) (hd : d.Sound)
    {changes : List BlockChange} (hdiff : diff? x z minY c d = some changes) {ch : BlockChange}
    (hch : ch ∈ changes) : IdInRange ch.before ∧ IdInRange ch.after := by
  obtain ⟨level, i, s, t, hs, ht, hi, -, rfl⟩ := (mem_diff?_iff hdiff).1 hch
  rw [← Array.getElem?_toList] at hs ht
  exact ⟨(hc s (List.mem_of_getElem? hs)).blocks.inRange i hi,
    (hd t (List.mem_of_getElem? ht)).blocks.inRange i hi⟩

/-! ### Reading a column -/

/-- Whether the blocks of a column are ids in range and direct containers have room for them. -/
def InRange (c : Column) : Prop :=
  ∀ s ∈ c.sections.toList, s.blocks.WideEnough ∧ ∀ i < sectionVolume, IdInRange (s.block i)

/-- Every section of a column that is read is one that was there or one that is read. -/
theorem of_mem_decodeFrom {done : Array ChunkSection} {bytes : Bytes} {c : Column}
    (h : decodeFrom done bytes = .ok c) {s : ChunkSection} (hs : s ∈ c.sections.toList) :
    s ∈ done.toList ∨ ∃ b r, ChunkSection.decode b = .ok (s, r) := by
  fun_induction decodeFrom done bytes with
  | case1 done =>
    obtain rfl := Except.ok.inj h
    exact .inl hs
  | case2 => exact absurd h (by simp)
  | case3 done bytes _ s' rest hdecode _ ih =>
    rcases ih h with hs | hs
    · rw [Array.toList_push, List.mem_append, List.mem_singleton] at hs
      rcases hs with hs | rfl
      · exact .inl hs
      · exact .inr ⟨_, _, hdecode⟩
    · exact .inr hs
  | case4 done bytes _ s' rest hdecode _ =>
    obtain rfl := Except.ok.inj h
    rw [Array.toList_push, List.mem_append, List.mem_singleton] at hs
    rcases hs with hs | rfl
    · exact .inl hs
    · exact .inr ⟨_, _, hdecode⟩

/-- The bytes of one section are those of a column. -/
theorem decode_of_section {data : Bytes} (hne : data ≠ []) {s : ChunkSection}
    (h : ChunkSection.decode data = .ok (s, [])) : decode data = .ok ⟨#[s]⟩ := by
  rw [decode, decodeFrom, if_neg (by simp [hne]), h]
  simp only
  rw [if_pos (by simpa using List.length_pos_iff.2 hne), decodeFrom, if_pos rfl]
  rfl

/-- A column of sections that there are. -/
def Obtained (c : Column) : Prop := ∀ s ∈ c.sections.toList, s.Obtained

/-- A column that is read can be obtained. -/
theorem obtained_of_decode {data : Bytes} {c : Column} (h : decode data = .ok c) : c.Obtained := by
  intro s hs
  rcases of_mem_decodeFrom h hs with hnil | ⟨b, r, hdecode⟩
  · exact absurd hnil (by simp)
  · exact .read hdecode

theorem Obtained.setBlock {c : Column} (h : c.Obtained) (minY : Int32) (p : Position)
    (state : BlockState) : (c.setBlock minY p state).Obtained :=
  forall_mem_setBlock h (fun _ hs _ hi => .setBlock hs hi state) minY p

/-- A column on which changes run can be obtained. -/
theorem Obtained.run {c : Column} (h : c.Obtained) (minY : Int32) (changes : List BlockChange) :
    (c.run minY changes).Obtained := by
  induction changes generalizing c with
  | nil => exact h
  | cons ch changes ih => exact ih (h.setBlock minY ch.position ch.after)

/-- A column that can be obtained is sound, if its blocks are in range. -/
theorem Obtained.sound {c : Column} (h : c.Obtained) (hrange : c.InRange) : c.Sound := by
  intro s hs
  obtain ⟨hwide, hids⟩ := hrange s hs
  exact (h s hs).formed.sound hwide hids

theorem Sound.inRange {c : Column} (h : c.Sound) : c.InRange := fun s hs =>
  ⟨Container.wideEnough_iff.2 (h s hs).blocks.roomy.width, (h s hs).blocks.inRange⟩

/-- **A column that is read is sound**, if its blocks are in range. -/
theorem sound_of_decode {data : Bytes} {c : Column} (h : decode data = .ok c) (hrange : c.InRange) :
    c.Sound :=
  (obtained_of_decode h).sound hrange

end Column

/-- Packing keeps the chunk of a position, if the chunk is in range. -/
theorem Position.chunk_unpack_pack {p : Position} {x z : Int32} (h : p.chunk = (x, z))
    (hchunk : ChunkInRange x z) : (unpack p.pack).chunk = (x, z) := by
  obtain ⟨hpx, hpz⟩ := Prod.mk.inj h
  have hx := Column.toInt_of_chunkCoordinate hpx
  have hz := Column.toInt_of_chunkCoordinate hpz
  obtain ⟨⟨hx0, hx1⟩, hz0, hz1⟩ := hchunk
  rw [chunk, unpack_pack_x (by omega) (by omega), unpack_pack_z (by omega) (by omega)]
  exact h

end Playhead
