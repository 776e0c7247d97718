import Playhead.Column.Basic
import Playhead.Proofs.Column.Container

/-!
# The content of a column

What a client sees of a column is its blocks and biomes, section by section: its **content**
(`Playhead.Column.content`). Columns with equal contents are the same
(`Playhead.Column.same_iff`), and setting a block in a sound column sets it in the content
(`Playhead.Column.Sound.content_setBlock`), so everything that follows is about contents.

Block changes are **chained** (`Playhead.Content.Chained`) when each of them finds the state it
changes from. Then they can be undone in the opposite order (`Playhead.Content.undo_run`). The list
of changes between two columns is chained, and leads from the content of one to that of the other
(`Playhead.Column.chained_diff?`).
-/

namespace Playhead

/-- The blocks and biomes of a section, in order of the index. -/
structure SectionContent where
  blocks : List BlockState
  biomes : List Int32
  deriving DecidableEq

/-- The sections of a column, the lowest first. -/
abbrev Content := List SectionContent

/-! ### Contents -/

namespace Content

/-- The section of a position and its index there, in a column of `size` sections. -/
def locate (size : Nat) (minY : Int32) (p : Position) : Option (Nat × Nat) :=
  let height := p.y.toInt - minY.toInt
  if height < 0 then none
  else
    let level := (height / 16).toNat
    if level < size then
      some (level, ((height % 16) * 256 + p.z.toInt % 16 * 16 + p.x.toInt % 16).toNat)
    else none

/-- **An index is found from the coordinates inside the column**, and they from it. -/
theorem locate_eq_some_iff {size level i : Nat} {minY : Int32} {p : Position} :
    locate size minY p = some (level, i) ↔ (level < size ∧ i < 4096) ∧
      p.y.toInt = minY.toInt + 16 * level + (i / 256 : Nat) ∧
        p.z.toInt % 16 = (i / 16 % 16 : Nat) ∧ p.x.toInt % 16 = (i % 16 : Nat) := by
  simp only [locate]
  constructor
  · intro h
    split at h
    · exact absurd h (by simp)
    · split at h
      · simp only [Option.some.injEq, Prod.mk.injEq] at h
        omega
      · exact absurd h (by simp)
  · rintro ⟨⟨hlevel, hi⟩, hy, hz, hx⟩
    rw [if_neg (by omega), if_pos (by omega)]
    congr 2 <;> omega

theorem locate_lt {size : Nat} {minY : Int32} {p : Position} {level i : Nat}
    (h : locate size minY p = some (level, i)) : level < size ∧ i < 4096 :=
  (locate_eq_some_iff.1 h).1

/-- The block at a position, if the column is that high. -/
def block? (content : Content) (minY : Int32) (p : Position) : Option BlockState :=
  (locate content.length minY p).bind fun (level, i) =>
    content[level]?.bind fun s => s.blocks[i]?

/-- The content with the block at a position replaced. -/
def setBlock (content : Content) (minY : Int32) (p : Position) (state : BlockState) : Content :=
  match locate content.length minY p with
  | some (level, i) => content.modify level fun s => { s with blocks := s.blocks.set i state }
  | none => content

@[simp] theorem length_setBlock (content : Content) (minY : Int32) (p : Position)
    (state : BlockState) : (content.setBlock minY p state).length = content.length := by
  rw [setBlock]
  split
  · exact List.length_modify ..
  · rfl

/-- A block lies in a section, at an index there. -/
theorem block?_eq_some_iff {content : Content} {minY : Int32} {p : Position} {state : BlockState} :
    content.block? minY p = some state ↔ ∃ level i s,
      locate content.length minY p = some (level, i) ∧ content[level]? = some s ∧
        s.blocks[i]? = some state := by
  simp only [block?, Option.bind_eq_some_iff, Prod.exists]
  exact ⟨fun ⟨level, i, hlocate, s, hs, hblock⟩ => ⟨level, i, s, hlocate, hs, hblock⟩,
    fun ⟨level, i, s, hlocate, hs, hblock⟩ => ⟨level, i, hlocate, s, hs, hblock⟩⟩

/-- A section that is replaced by itself. -/
theorem modify_of_fixed {content : Content} {level : Nat} {f : SectionContent → SectionContent}
    (h : ∀ s, content[level]? = some s → f s = s) : content.modify level f = content := by
  refine List.ext_getElem? fun k => ?_
  by_cases hk : level = k
  · subst hk
    rw [List.getElem?_modify_eq]
    cases hs : content[level]? with
    | none => rfl
    | some s => exact congrArg some (h s hs)
  · rw [List.getElem?_modify_ne _ _ hk]

/-- **Setting a block back restores the content.** -/
theorem setBlock_setBlock {content : Content} {minY : Int32} {p : Position} {before : BlockState}
    (h : content.block? minY p = some before) (after : BlockState) :
    (content.setBlock minY p after).setBlock minY p before = content := by
  obtain ⟨level, i, s, hlocate, hs, hblock⟩ := block?_eq_some_iff.1 h
  obtain ⟨hi, rfl⟩ := List.getElem?_eq_some_iff.1 hblock
  rw [setBlock, length_setBlock]
  simp only [setBlock, hlocate, List.modify_modify_eq]
  refine modify_of_fixed fun s' hs' => ?_
  obtain rfl := Option.some.inj (hs.symm.trans hs')
  simp only [Function.comp_apply, List.set_set, List.set_getElem_self]

/-- Setting a block to what it is changes nothing. -/
theorem setBlock_eq_self {content : Content} {minY : Int32} {p : Position} {state : BlockState}
    (h : content.block? minY p = some state) : content.setBlock minY p state = content := by
  obtain ⟨level, i, s, hlocate, hs, hblock⟩ := block?_eq_some_iff.1 h
  obtain ⟨hi, rfl⟩ := List.getElem?_eq_some_iff.1 hblock
  simp only [setBlock, hlocate]
  refine modify_of_fixed fun s' hs' => ?_
  obtain rfl := Option.some.inj (hs.symm.trans hs')
  rw [List.set_getElem_self]

/-- Where there is no block, none can be set. -/
theorem setBlock_of_block?_eq_none {content : Content} {minY : Int32} {p : Position}
    (h : content.block? minY p = none) (state : BlockState) :
    content.setBlock minY p state = content := by
  rw [setBlock]
  cases hlocate : locate content.length minY p with
  | none => rfl
  | some found =>
    obtain ⟨level, i⟩ := found
    refine modify_of_fixed fun s hs => ?_
    rw [block?, hlocate, Option.bind_some] at h
    dsimp only at h
    rw [hs, Option.bind_some] at h
    rw [List.set_eq_of_length_le (List.getElem?_eq_none_iff.1 h)]

/-! ### Chained changes -/

/-- The content after some block changes. -/
def run (minY : Int32) (content : Content) (changes : List BlockChange) : Content :=
  changes.foldl (fun content c => content.setBlock minY c.position c.after) content

/-- The content after some block changes have been taken back, the first of the list first. -/
def undo (minY : Int32) (content : Content) (changes : List BlockChange) : Content :=
  changes.foldl (fun content c => content.setBlock minY c.position c.before) content

/-- Every change finds the state that it changes from. -/
inductive Chained (minY : Int32) : Content → List BlockChange → Prop
  | nil {content : Content} : Chained minY content []
  | cons {content : Content} {c : BlockChange} {changes : List BlockChange}
      (here : content.block? minY c.position = some c.before)
      (rest : Chained minY (content.setBlock minY c.position c.after) changes) :
      Chained minY content (c :: changes)

theorem run_append (minY : Int32) (content : Content) (front back : List BlockChange) :
    content.run minY (front ++ back) = (content.run minY front).run minY back :=
  List.foldl_append

@[simp] theorem length_run (minY : Int32) (content : Content) (changes : List BlockChange) :
    (content.run minY changes).length = content.length := by
  induction changes generalizing content with
  | nil => rfl
  | cons c changes ih => exact (ih _).trans (length_setBlock ..)

/-- Changes chain if their first part does, and their second part after it. -/
theorem chained_append {minY : Int32} {content : Content} {front back : List BlockChange} :
    Chained minY content (front ++ back) ↔
      Chained minY content front ∧ Chained minY (content.run minY front) back := by
  induction front generalizing content with
  | nil => exact ⟨fun h => ⟨.nil, h⟩, fun h => h.2⟩
  | cons c front ih =>
    constructor
    · rintro (_ | ⟨here, rest⟩)
      obtain ⟨hfront, hback⟩ := ih.1 rest
      exact ⟨.cons here hfront, hback⟩
    · rintro ⟨_ | ⟨here, rest⟩, hback⟩
      exact .cons here (ih.2 ⟨rest, hback⟩)

/-- **Chained changes can be undone.** -/
theorem undo_run {minY : Int32} {content : Content} {changes : List BlockChange}
    (h : Chained minY content changes) :
    (content.run minY changes).undo minY changes.reverse = content := by
  induction h with
  | nil => rfl
  | @cons content c changes hc _ hrest =>
    rw [List.reverse_cons, undo, List.foldl_append]
    rw [undo] at hrest
    change ((run minY (content.setBlock minY c.position c.after) changes).undo minY
      changes.reverse).setBlock minY c.position c.before = content
    rw [undo, hrest, setBlock_setBlock hc]

/-- A change that finds its state lies inside the column. -/
theorem locate_of_block? {content : Content} {minY : Int32} {p : Position} {state : BlockState}
    (h : content.block? minY p = some state) :
    ∃ level i, locate content.length minY p = some (level, i) := by
  obtain ⟨level, i, -, hlocate, -⟩ := block?_eq_some_iff.1 h
  exact ⟨level, i, hlocate⟩

/-- Each of the changes that chain lies in the column. -/
theorem Chained.locate {minY : Int32} {content : Content} {changes : List BlockChange}
    (h : Chained minY content changes) : ∀ c ∈ changes, ∃ level i,
      Content.locate content.length minY c.position = some (level, i) := by
  induction h with
  | nil => exact fun c hc => absurd hc List.not_mem_nil
  | @cons content c changes here _ ih =>
    intro c' hc'
    rcases List.mem_cons.1 hc' with rfl | hc'
    · exact locate_of_block? here
    · rw [← length_setBlock content minY c.position c.after]
      exact ih c' hc'

/-! ### From one section to another -/

/-- Setting one block of a section that is given by a function. -/
theorem setBlock_set {minY : Int32} {content : Content} {level n : Nat}
    (hlevel : level < content.length) {p : Position}
    (hlocate : locate content.length minY p = some (level, n)) (f : Nat → Int32)
    (biomes : List Int32) (state : BlockState) :
    setBlock (content.set level ⟨(List.range 4096).map f, biomes⟩) minY p state =
      content.set level ⟨(List.range 4096).map fun i => if i = n then state else f i, biomes⟩ := by
  rw [setBlock, List.length_set, hlocate]
  refine List.ext_getElem? fun k => ?_
  by_cases hk : level = k
  · subst hk
    rw [List.getElem?_modify_eq, List.getElem?_set_self hlevel, List.getElem?_set_self hlevel,
      ← set_map_range, Option.map_eq_map, Option.map_some]
  · rw [List.getElem?_modify_ne _ _ hk, List.getElem?_set_ne hk, List.getElem?_set_ne hk]

/-- The changes between two sections given by functions, up to an index. -/
def changesUpTo (n : Nat) (position : Nat → Position) (f g : Nat → BlockState) : List BlockChange :=
  (List.range n).filterMap fun i => if f i = g i then none else some ⟨position i, f i, g i⟩

/-- **The differences of a section chain**, and they lead from one section to the other. -/
theorem chained_sectionChanges {minY : Int32} {content : Content} {level : Nat} {f g : Nat → Int32}
    {biomes : List Int32} (hlevel : content[level]? = some ⟨(List.range 4096).map f, biomes⟩)
    {position : Nat → Position}
    (hlocate : ∀ i < 4096, locate content.length minY (position i) = some (level, i)) {n : Nat}
    (hn : n ≤ 4096) :
    Chained minY content (changesUpTo n position f g) ∧
      content.run minY (changesUpTo n position f g) =
        content.set level ⟨(List.range 4096).map fun i => if i < n then g i else f i, biomes⟩ := by
  obtain ⟨hlt, heq⟩ := List.getElem?_eq_some_iff.1 hlevel
  induction n with
  | zero =>
    refine ⟨.nil, ?_⟩
    simp only [Nat.not_lt_zero, if_false, ← heq, List.set_getElem_self]
    rfl
  | succ n ih =>
    obtain ⟨hchained, hrun⟩ := ih (by omega)
    -- one change more makes the section like the other one in one place more
    have hmixed : ∀ i, (if i < n + 1 then g i else f i) =
        if i = n then g n else if i < n then g i else f i := fun i => by
      by_cases hi : i = n
      · simp [hi]
      · by_cases hin : i < n
        · simp [hi, hin, Nat.lt_succ_of_lt hin]
        · have : ¬ i < n + 1 := by omega
          simp [hi, hin, this]
    have hsplit : changesUpTo (n + 1) position f g = changesUpTo n position f g ++
        (if f n = g n then none else some ⟨position n, f n, g n⟩).toList := by
      rw [changesUpTo, List.range_succ, List.filterMap_append]
      congr 1
    simp only [hsplit, chained_append, run_append, hrun, hmixed]
    by_cases hfg : f n = g n
    · -- nothing changes at `n`
      have hsame : (fun i => if i = n then g n else if i < n then g i else f i) =
          fun i => if i < n then g i else f i := by
        funext i
        by_cases hi : i = n
        · simp [hi, hfg]
        · rw [if_neg hi]
      rw [if_pos hfg, hsame]
      exact ⟨⟨hchained, .nil⟩, rfl⟩
    · rw [if_neg hfg]
      refine ⟨⟨hchained, .cons ?_ .nil⟩, setBlock_set hlt (hlocate n (by omega)) _ _ _⟩
      rw [block?, List.length_set, hlocate n (by omega)]
      simp [hlt, show n < 4096 by omega]

/-- **The changes between two sections turn one into the other.** -/
theorem chained_section {minY : Int32} {content : Content} {level : Nat} {f : Nat → Int32}
    (g : Nat → Int32) {biomes : List Int32}
    (hlevel : content[level]? = some ⟨(List.range 4096).map f, biomes⟩)
    (position : Nat → Position)
    (hlocate : ∀ i < 4096, locate content.length minY (position i) = some (level, i)) :
    Chained minY content (changesUpTo 4096 position f g) ∧
      content.run minY (changesUpTo 4096 position f g) =
        content.set level ⟨(List.range 4096).map g, biomes⟩ := by
  obtain ⟨hchained, hrun⟩ := chained_sectionChanges (g := g) hlevel hlocate (Nat.le_refl 4096)
  have hall : ((List.range 4096).map fun i => if i < 4096 then g i else f i) =
      (List.range 4096).map g :=
    List.map_congr_left fun i hi => if_pos (List.mem_range.1 hi)
  rw [hall] at hrun
  exact ⟨hchained, hrun⟩

end Content

/-! ### The content of a column -/

namespace ChunkSection

/-- What a client sees of a section. -/
def content (s : ChunkSection) : SectionContent := ⟨s.blocks.toList, s.biomes.toList⟩

/-- A section whose blocks are a sound container. -/
structure Sound (s : ChunkSection) : Prop where
  blocks : s.blocks.Sound
  biomes : s.biomes.kind = .biomes

/-- The content of a sound section: its blocks and its biomes. -/
theorem Sound.content_eq {s : ChunkSection} (h : s.Sound) :
    s.content = ⟨(List.range 4096).map s.block, s.biomes.toList⟩ := by
  rw [content, Container.toList, h.blocks.kind]
  rfl

theorem Sound.setBlock {s : ChunkSection} (h : s.Sound) {i : Nat} (hi : i < 4096)
    {state : BlockState} (hstate : IdInRange state) : (s.setBlock i state).Sound :=
  ⟨h.blocks.set hi hstate, h.biomes⟩

/-- Setting a block of a sound section sets it in its content. -/
theorem Sound.content_setBlock {s : ChunkSection} (h : s.Sound) {i : Nat} (hi : i < 4096)
    {state : BlockState} (hstate : IdInRange state) :
    (s.setBlock i state).content = { s.content with blocks := s.content.blocks.set i state } := by
  rw [content, content, ChunkSection.setBlock, h.blocks.toList_set hi hstate]

end ChunkSection

/-- Containers of a kind are the same if their entries are. -/
theorem Container.same_iff {c d : Container} (h : c.kind = d.kind) :
    c.same d = true ↔ c.toList = d.toList := by
  simp only [same, h, decide_true, Bool.true_and, toList, List.all_eq_true, List.mem_range,
    beq_iff_eq, List.map_inj_left]

namespace Column

/-- What a client sees of a column. -/
def content (c : Column) : Content := c.sections.toList.map ChunkSection.content

/-- A column all of whose sections are sound. -/
def Sound (c : Column) : Prop := ∀ s ∈ c.sections.toList, s.Sound

@[simp] theorem length_content (c : Column) : c.content.length = c.sections.size := by
  simp [content]

/-- A column and its content find places alike. -/
theorem locate_eq (c : Column) (minY : Int32) (p : Position) :
    c.locate minY p = Content.locate c.content.length minY p := by
  rw [length_content]
  rfl

/-- **A block of a sound column is that of its content.** -/
theorem Sound.block?_eq {c : Column} (h : c.Sound) (minY : Int32) (p : Position) :
    c.block? minY p = c.content.block? minY p := by
  rw [block?, locate_eq, Content.block?]
  cases hl : Content.locate c.content.length minY p with
  | none => rfl
  | some found =>
    obtain ⟨level, i⟩ := found
    have hi := (Content.locate_lt hl).2
    simp only [bind, Option.bind, content, List.getElem?_map, ← Array.getElem?_toList]
    cases hs : c.sections.toList[level]? with
    | none => rfl
    | some s =>
      have hs := h s (List.mem_of_getElem? hs)
      simp [hs.content_eq, hi]

/-- Blocks of a sound column are in range. -/
theorem Sound.inRange_of_block? {c : Column} (h : c.Sound) {minY : Int32} {p : Position}
    {state : BlockState} (hblock : c.block? minY p = some state) : IdInRange state := by
  obtain ⟨⟨level, i⟩, hlocate, hblock⟩ := Option.bind_eq_some_iff.1 hblock
  obtain ⟨s, hs, hblock⟩ := Option.bind_eq_some_iff.1 hblock
  obtain rfl := Option.some.inj hblock
  have hi := (Content.locate_lt ((locate_eq c minY p).symm.trans hlocate)).2
  exact (h s (Array.mem_toList_iff.2 (Array.mem_of_getElem? hs))).blocks.inRange i hi

/-- What holds of all sections, and goes on to hold as a block is set in one, holds after a block
has been set in the column. -/
theorem forall_mem_setBlock {c : Column} {P : ChunkSection → Prop} {state : BlockState}
    (h : ∀ s ∈ c.sections.toList, P s) (hset : ∀ s, P s → ∀ i < 4096, P (s.setBlock i state))
    (minY : Int32) (p : Position) : ∀ s ∈ (c.setBlock minY p state).sections.toList, P s := by
  rw [setBlock]
  split
  · next level i hl =>
    have hi := (Content.locate_lt ((locate_eq c minY p).symm.trans hl)).2
    intro s hs
    obtain ⟨k, hk⟩ := List.mem_iff_getElem?.1 hs
    rw [Array.getElem?_toList, Array.getElem?_modify] at hk
    split at hk
    · rw [Option.map_eq_some_iff] at hk
      obtain ⟨s', hs', rfl⟩ := hk
      exact hset s' (h s' (Array.mem_toList_iff.2 (Array.mem_of_getElem? hs'))) i hi
    · exact h s (Array.mem_toList_iff.2 (Array.mem_of_getElem? hk))
  · exact h

theorem Sound.setBlock {c : Column} (h : c.Sound) (minY : Int32) (p : Position)
    {state : BlockState} (hstate : IdInRange state) : (c.setBlock minY p state).Sound :=
  forall_mem_setBlock h (fun _ hs _ hi => hs.setBlock hi hstate) minY p

/-- **Setting a block sets it in the content.** -/
theorem Sound.content_setBlock {c : Column} (h : c.Sound) (minY : Int32) (p : Position)
    {state : BlockState} (hstate : IdInRange state) :
    (c.setBlock minY p state).content = c.content.setBlock minY p state := by
  rw [Column.setBlock, Content.setBlock, locate_eq]
  cases hl : Content.locate c.content.length minY p with
  | none => rfl
  | some found =>
    obtain ⟨level, i⟩ := found
    have hi := (Content.locate_lt hl).2
    refine List.ext_getElem? fun k => ?_
    simp only [content, List.getElem?_map, Array.getElem?_toList, Array.getElem?_modify]
    by_cases hk : level = k
    · subst hk
      rw [if_pos rfl, List.getElem?_modify_eq, List.getElem?_map, Array.getElem?_toList]
      cases hs : c.sections[level]? with
      | none => rfl
      | some s =>
        have hs := h s (Array.mem_toList_iff.2 (Array.mem_of_getElem? hs))
        exact congrArg some (hs.content_setBlock hi hstate)
    · rw [if_neg hk, List.getElem?_modify_ne _ _ hk, List.getElem?_map, Array.getElem?_toList]

/-- Where there is no block, or it is already as it should be, setting it changes nothing. -/
theorem Sound.setBlock_eq_self_of_idle {c : Column} (h : c.Sound) {minY : Int32} {p : Position}
    {state : BlockState} (hidle : c.block? minY p = none ∨ c.block? minY p = some state) :
    c.content.setBlock minY p state = c.content := by
  rw [h.block?_eq] at hidle
  rcases hidle with hnone | hsame
  · exact Content.setBlock_of_block?_eq_none hnone state
  · exact Content.setBlock_eq_self hsame

/-! ### Changes of a column -/

/-- The column after some block changes. -/
def run (minY : Int32) (column : Column) (changes : List BlockChange) : Column :=
  changes.foldl (fun column c => column.setBlock minY c.position c.after) column

/-- **Changes run on a sound column as on its content**, and leave it sound. -/
theorem Sound.run {column : Column} (h : column.Sound) (minY : Int32) {changes : List BlockChange}
    (hchanges : ∀ c ∈ changes, IdInRange c.after) :
    (column.run minY changes).Sound ∧
      (column.run minY changes).content = column.content.run minY changes := by
  induction changes generalizing column with
  | nil => exact ⟨h, rfl⟩
  | cons c changes ih =>
    have hstate := hchanges c List.mem_cons_self
    obtain ⟨hsound, hcontent⟩ := ih (h.setBlock minY c.position hstate) fun c' hc' =>
      hchanges c' (List.mem_cons_of_mem _ hc')
    refine ⟨hsound, hcontent.trans ?_⟩
    rw [h.content_setBlock minY c.position hstate]
    rfl

end Column

end Playhead
