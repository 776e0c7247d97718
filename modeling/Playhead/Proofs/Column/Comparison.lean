import Playhead.Proofs.Column.Diff

/-!
# A comparison of columns is exact and can be undone

Two columns can be compared when they are equally high and have the same biomes
(`Playhead.Column.diff?_eq_none_iff`). What comes out is one change for each index at which their
blocks differ (`Playhead.Column.mem_diff?_iff`): the position of a change is found at the index it
was made from, at every height and however far out the chunk is
(`Playhead.Column.locate_positionOf`), so no two changes have one position
(`Playhead.Column.nodup_positions_diff?`).

The changes lead from the one column to the other, and the same changes the other way round, last
to first, lead back (`Playhead.Column.diff?_exact`). Equality is that of the contents: in what forms
the two columns store their blocks makes no difference, nor which forms they pass through.
-/

namespace Playhead

namespace Column

variable {old new : Column} {x z minY : Int32} {changes : List BlockChange}

/-! ### Columns that cannot be compared -/

/-- Lists have the same image just when they are as long and agree place by place. -/
theorem map_eq_map_iff_getElem? {α β : Type} {f : α → β} {as bs : List α} :
    as.map f = bs.map f ↔ as.length = bs.length ∧
      ∀ (k : Nat) a b, as[k]? = some a → bs[k]? = some b → f a = f b := by
  constructor
  · intro h
    refine ⟨by simpa using congrArg List.length h, fun k a b ha hb => ?_⟩
    have hk := congrArg (·[k]?) h
    simpa [ha, hb] using hk
  · rintro ⟨hlength, hall⟩
    refine List.ext_getElem (by simpa using hlength) fun k hk hk' => ?_
    rw [List.getElem_map, List.getElem_map]
    exact hall k _ _ (List.getElem?_eq_getElem _) (List.getElem?_eq_getElem _)

/-- **Columns cannot be compared** just when one is higher or the biomes of two sections differ. -/
theorem diff?_eq_none_iff (hold : old.Sound) (hnew : new.Sound) :
    diff? x z minY old new = none ↔ old.sections.size ≠ new.sections.size ∨
      ∃ (level : Nat) (s t : ChunkSection), old.sections[level]? = some s ∧
        new.sections[level]? = some t ∧ s.biomes.toList ≠ t.biomes.toList := by
  have hshape := sameShape_iff hold hnew
  rw [map_eq_map_iff_getElem?] at hshape
  simp only [Array.length_toList, Array.getElem?_toList] at hshape
  have hnone : diff? x z minY old new = none ↔ ¬ old.sameShape new = true := by
    rw [diff?]
    split
    · next h => simp [h]
    · next h => simp [h]
  rw [hnone, hshape, Classical.not_and_iff_not_or_not]
  simp only [Classical.not_forall, exists_prop, ne_eq]

/-! ### One change for each index -/

/-- Positions of different indices differ. -/
theorem positionOf_inj {size level level' i i' : Nat} (h : HeightsFit minY size)
    (hlevel : level < size) (hlevel' : level' < size) (hi : i < 4096) (hi' : i' < 4096)
    (heq : positionOf x z minY level i = positionOf x z minY level' i') :
    level = level' ∧ i = i' := by
  have hlocate := locate_positionOf (x := x) (z := z) h hlevel hi
  rw [heq, locate_positionOf h hlevel' hi'] at hlocate
  obtain ⟨rfl, rfl⟩ := Prod.mk.inj (Option.some.inj hlocate)
  exact ⟨rfl, rfl⟩

/-- The changes between two sections are at different positions. -/
theorem pairwise_sectionDiff {size level : Nat} (h : HeightsFit minY size) (hlevel : level < size)
    (s t : ChunkSection) :
    (sectionDiff x z minY level s t).Pairwise fun c c' => c.position ≠ c'.position := by
  refine List.pairwise_filterMap.2 (List.nodup_range.imp_of_mem ?_)
  intro i i' hi hi' hne c hc c' hc' heq
  dsimp only at hc hc'
  split at hc
  · exact absurd hc (by simp)
  · split at hc'
    · exact absurd hc' (by simp)
    · obtain rfl := Option.some.inj hc
      obtain rfl := Option.some.inj hc'
      exact hne (positionOf_inj h hlevel hlevel (List.mem_range.1 hi) (List.mem_range.1 hi') heq).2

/-- **The changes between two columns are at different positions.** -/
theorem nodup_positions_diff? (h : HeightsFit minY old.sections.size)
    (hdiff : diff? x z minY old new = some changes) : (changes.map (·.position)).Nodup := by
  rw [diff?] at hdiff
  split at hdiff
  · obtain rfl := Option.some.inj hdiff
    have hlevel : ∀ e ∈ (old.sections.toList.zip new.sections.toList).zipIdx,
        e.2 < old.sections.size := by
      rintro ⟨⟨s, t⟩, level⟩ he
      obtain ⟨hs, -⟩ := List.getElem?_zip_eq_some.1 (List.mem_zipIdx_iff_getElem?.1 he)
      rw [← Array.length_toList]
      exact (List.getElem?_eq_some_iff.1 hs).1
    have hlevels : (old.sections.toList.zip new.sections.toList).zipIdx.Pairwise
        fun e e' => e.2 ≠ e'.2 := by
      refine List.pairwise_map.1 ?_
      rw [List.zipIdx_map_snd]
      exact List.nodup_range'
    refine List.pairwise_map.2 (List.pairwise_flatMap.2 ⟨fun e he => ?_, ?_⟩)
    · exact pairwise_sectionDiff h (hlevel e he) e.1.1 e.1.2
    · refine hlevels.imp_of_mem ?_
      intro e e' he he' hne c hc c' hc' heq
      obtain ⟨i, hi, -, rfl⟩ := mem_sectionDiff_iff.1 hc
      obtain ⟨i', hi', -, rfl⟩ := mem_sectionDiff_iff.1 hc'
      exact hne (positionOf_inj h (hlevel e he) (hlevel e' he') hi hi' heq).1
  · exact absurd hdiff (by simp)

/-- The blocks of two columns at an index of a section, if they differ. -/
def DiffersAt (old new : Column) (level i : Nat) (before after : BlockState) : Prop :=
  ∃ s t, old.sections[level]? = some s ∧ new.sections[level]? = some t ∧ i < sectionVolume ∧
    s.block i = before ∧ t.block i = after ∧ before ≠ after

/-- Every change is at an index at which the blocks differ, and turns the one into the other. -/
theorem differsAt_of_mem_diff? (h : HeightsFit minY old.sections.size)
    (hdiff : diff? x z minY old new = some changes) {ch : BlockChange} (hch : ch ∈ changes) :
    ∃ level i, old.locate minY ch.position = some (level, i) ∧
      ch.position = positionOf x z minY level i ∧
        DiffersAt old new level i ch.before ch.after := by
  obtain ⟨level, i, s, t, hs, ht, hi, hne, rfl⟩ := (mem_diff?_iff hdiff).1 hch
  obtain ⟨hlevel, -⟩ := Array.getElem?_eq_some_iff.1 hs
  exact ⟨level, i, locate_positionOf h hlevel hi, rfl, s, t, hs, ht, hi, rfl, rfl, hne⟩

/-- **At every index at which the blocks differ there is one change**, and no other is found
there. -/
theorem DiffersAt.exists_mem_diff? {level i : Nat} {before after : BlockState}
    (hdiffers : DiffersAt old new level i before after) (h : HeightsFit minY old.sections.size)
    (hdiff : diff? x z minY old new = some changes) :
    ∃ ch ∈ changes, ch.before = before ∧ ch.after = after ∧
      ∀ ch' ∈ changes, old.locate minY ch'.position = some (level, i) ↔ ch' = ch := by
  obtain ⟨s, t, hs, ht, hi, rfl, rfl, hne⟩ := hdiffers
  obtain ⟨hlevel, -⟩ := Array.getElem?_eq_some_iff.1 hs
  refine ⟨_, (mem_diff?_iff hdiff).2 ⟨level, i, s, t, hs, ht, hi, hne, rfl⟩, rfl, rfl, ?_⟩
  intro ch' hch'
  constructor
  · intro hlocate
    obtain ⟨level', i', s', t', hs', ht', hi', -, rfl⟩ := (mem_diff?_iff hdiff).1 hch'
    obtain ⟨hlevel', -⟩ := Array.getElem?_eq_some_iff.1 hs'
    have hfound := hlocate.symm.trans (locate_positionOf h hlevel' hi')
    obtain ⟨rfl, rfl⟩ := Prod.mk.inj (Option.some.inj hfound)
    obtain rfl := Option.some.inj (hs.symm.trans hs')
    obtain rfl := Option.some.inj (ht.symm.trans ht')
    rfl
  · rintro rfl
    exact locate_positionOf h hlevel hi

/-! ### There and back -/

/-- **The changes lead to the other column**, and the other way round they lead back. -/
theorem Sound.run_diff? (hold : old.Sound) (hnew : new.Sound)
    (h : HeightsFit minY old.sections.size) (hdiff : diff? x z minY old new = some changes) :
    (old.run minY changes).same new = true ∧
      ((old.run minY changes).run minY (changes.reverse.map BlockChange.inverse)).same old =
        true := by
  obtain ⟨hchained, hlast⟩ := chained_diff? hold hnew h hdiff
  have hafter : ∀ ch ∈ changes, IdInRange ch.after := fun ch hch =>
    (hold.inRange_of_mem_diff? hnew hdiff hch).2
  have hbefore : ∀ ch ∈ changes.reverse.map BlockChange.inverse, IdInRange ch.after := by
    intro ch hch
    obtain ⟨ch', hch', rfl⟩ := List.mem_map.1 hch
    exact (hold.inRange_of_mem_diff? hnew hdiff (List.mem_reverse.1 hch')).1
  obtain ⟨hsound, hcontent⟩ := hold.run minY hafter
  obtain ⟨hback, hbackContent⟩ := hsound.run minY hbefore
  have hundo : ∀ content : Content,
      content.run minY (changes.reverse.map BlockChange.inverse) =
        content.undo minY changes.reverse := fun content => List.foldl_map
  constructor
  · rw [same_iff hsound hnew, hcontent, hlast]
  · rw [same_iff hback hold, hbackContent, hundo, hcontent, Content.undo_run hchained]

/-- **A comparison of columns is exact and can be undone.** There is none just when one column is
higher or the biomes of two sections differ. Otherwise the changes are at different positions, one
for each index at which the blocks differ and none elsewhere, from the block of the one column to
that of the other; and made one after the other they turn the one column into the other, and taken
back, the last first, they turn it into what it was. -/
theorem diff?_exact (hold : old.Obtained) (hnew : new.Obtained) (holdRange : old.InRange)
    (hnewRange : new.InRange) (x z : Int32) (h : HeightsFit minY old.sections.size) :
    (diff? x z minY old new = none ↔ old.sections.size ≠ new.sections.size ∨
      ∃ (level : Nat) (s t : ChunkSection), old.sections[level]? = some s ∧
        new.sections[level]? = some t ∧ s.biomes.toList ≠ t.biomes.toList) ∧
    ∀ changes, diff? x z minY old new = some changes →
      (changes.map (·.position)).Nodup ∧
      (∀ ch ∈ changes, ∃ level i, old.locate minY ch.position = some (level, i) ∧
        ch.position = positionOf x z minY level i ∧
          DiffersAt old new level i ch.before ch.after) ∧
      (∀ level i before after, DiffersAt old new level i before after →
        ∃ ch ∈ changes, ch.before = before ∧ ch.after = after ∧
          ∀ ch' ∈ changes, old.locate minY ch'.position = some (level, i) ↔ ch' = ch) ∧
      (old.run minY changes).same new = true ∧
      ((old.run minY changes).run minY (changes.reverse.map BlockChange.inverse)).same old =
        true := by
  have hold := hold.sound holdRange
  have hnew := hnew.sound hnewRange
  refine ⟨diff?_eq_none_iff hold hnew, fun changes hdiff => ?_⟩
  refine ⟨nodup_positions_diff? h hdiff, fun ch hch => differsAt_of_mem_diff? h hdiff hch, ?_,
    hold.run_diff? hnew h hdiff⟩
  exact fun level i before after hdiffers => hdiffers.exists_mem_diff? h hdiff

/-- A column of one section of air. -/
def bare : Column := ⟨#[.empty 3]⟩

/-- The same column with one block of stone. -/
def marked : Column := ⟨#[(ChunkSection.empty 3).setBlock 17 1]⟩

/-- A column at the lowest height that there is, so far out that coordinates wrap around. -/
theorem diff?_exact_marked : bare.Obtained ∧ marked.Obtained ∧ bare.InRange ∧ marked.InRange ∧
    HeightsFit (-0x8000) bare.sections.size ∧
    ∃ changes, diff? 0x7fffffff 5 (-0x8000) bare marked = some changes ∧
      (changes.map (·.position)).Nodup ∧
      (∀ ch ∈ changes, ∃ level i, bare.locate (-0x8000) ch.position = some (level, i) ∧
        ch.position = positionOf 0x7fffffff 5 (-0x8000) level i ∧
          DiffersAt bare marked level i ch.before ch.after) ∧
      (∀ level i before after, DiffersAt bare marked level i before after →
        ∃ ch ∈ changes, ch.before = before ∧ ch.after = after ∧ ∀ ch' ∈ changes,
          bare.locate (-0x8000) ch'.position = some (level, i) ↔ ch' = ch) ∧
      (bare.run (-0x8000) changes).same marked = true ∧
      ((bare.run (-0x8000) changes).run (-0x8000)
        (changes.reverse.map BlockChange.inverse)).same bare = true := by
  have hbare : ∀ s ∈ bare.sections.toList, s = .empty 3 := fun s hs => List.mem_singleton.1 hs
  have hmarked : ∀ s ∈ marked.sections.toList, s = (ChunkSection.empty 3).setBlock 17 1 :=
    fun s hs => List.mem_singleton.1 hs
  have hempty : (ChunkSection.empty 3).Sound := (ChunkSection.Honest.empty 3).sound
  have hold : bare.Obtained := fun s hs => hbare s hs ▸ .empty 3
  have hnew : marked.Obtained := fun s hs => hmarked s hs ▸ .setBlock (.empty 3) (by decide) 1
  have holdSound : bare.Sound := fun s hs => hbare s hs ▸ hempty
  have hnewSound : marked.Sound := fun s hs =>
    hmarked s hs ▸ hempty.setBlock (by decide) (by decide)
  have hheights : HeightsFit (-0x8000) bare.sections.size := by decide
  obtain ⟨hnone, hsome⟩ := diff?_exact hold hnew holdSound.inRange hnewSound.inRange
    0x7fffffff 5 hheights
  refine ⟨hold, hnew, holdSound.inRange, hnewSound.inRange, hheights, ?_⟩
  cases hdiff : diff? 0x7fffffff 5 (-0x8000) bare marked with
  | some changes => exact ⟨changes, rfl, hsome changes hdiff⟩
  | none =>
    -- the columns are equally high, and setting a block leaves the biomes
    rcases hnone.1 hdiff with hsize | ⟨level, s, t, hs, ht, hbiomes⟩
    · exact absurd rfl hsize
    · rw [← Array.getElem?_toList] at hs ht
      obtain rfl := hbare s (List.mem_of_getElem? hs)
      obtain rfl := hmarked t (List.mem_of_getElem? ht)
      exact absurd rfl hbiomes

end Column

end Playhead
