import Playhead.Proofs.Column.Reading

/-!
# A container of blocks is an array

A container of blocks is **sound** (`Playhead.Container.Sound`) when its ids are in range, its
slots stay inside the palette, and direct ids have room. Sound containers are the case of blocks of
those with room for their ids (`Playhead.Container.sound_iff`), so setting an id changes that id
alone (`Playhead.Container.Sound.toList_set`) and leaves a sound container
(`Playhead.Container.Sound.set`), through every change of form.
-/

namespace Playhead

/-- Whether an id has a place in a direct entry of the least width. -/
def IdInRange (id : Int32) : Prop := 0 ≤ id.toInt ∧ id.toInt < 0x8000

instance (id : Int32) : Decidable (IdInRange id) := inferInstanceAs (Decidable (_ ∧ _))

namespace Container

/-- Slots of a palette, all of them inside it. -/
structure SlotsSound (palette : Array Int32) (slots : PackedArray) : Prop where
  wellFormed : slots.WellFormed
  length : slots.length = 4096
  bits : slots.bits ≤ 8
  size : palette.size ≤ 2 ^ slots.bits
  lt : ∀ i < 4096, (slots.get i).toNat < palette.size

/-- Direct ids with room for every id in range. -/
structure DirectSound (ids : PackedArray) : Prop where
  wellFormed : ids.WellFormed
  length : ids.length = 4096
  bits : 15 ≤ ids.bits

/-- Whether the form of a container of blocks holds together. -/
def PackingSound : Packing → Prop
  | .single _ => True
  | .indirect palette slots => SlotsSound palette slots
  | .direct ids => DirectSound ids

/-- A container of blocks whose form holds together and whose ids are in range. -/
structure Sound (c : Container) : Prop where
  kind : c.kind = .blocks
  packing : PackingSound c.packing
  inRange : ∀ i < 4096, IdInRange (c.get i)

/-- Whether direct ids have the width of the protocol at least. -/
def WideEnough (c : Container) : Prop :=
  match c.packing with
  | .direct ids => 15 ≤ ids.bits
  | _ => True

/-- A container is wide enough if its direct ids have fifteen bits. -/
theorem wideEnough_iff {c : Container} : c.WideEnough ↔ c.DirectWidth (15 ≤ ·) := by
  obtain ⟨kind, packing⟩ := c
  constructor
  · rintro h ids rfl
    exact h
  · intro h
    cases packing with
    | direct ids => exact h ids rfl
    | _ => trivial

/-- A packing of blocks is sound if it is formed and wide enough. -/
theorem packingSound_iff {packing : Packing} : PackingSound packing ↔
    PackingFormed .blocks packing ∧ WideEnough ⟨.blocks, packing⟩ := by
  cases packing with
  | single => exact ⟨fun _ => ⟨trivial, trivial⟩, fun _ => trivial⟩
  | indirect palette slots =>
    constructor
    · rintro ⟨hwf, hlength, hbits, hsize, hlt⟩
      exact ⟨⟨hwf, hlength, hbits, hsize, hlt⟩, trivial⟩
    · rintro ⟨⟨hwf, hlength, hbits, hsize, hlt⟩, -⟩
      exact ⟨hwf, hlength, hbits, hsize, hlt⟩
  | direct ids =>
    constructor
    · rintro ⟨hwf, hlength, hbits⟩
      exact ⟨⟨hwf, hlength⟩, hbits⟩
    · rintro ⟨⟨hwf, hlength⟩, hbits⟩
      exact ⟨hwf, hlength, hbits⟩

/-- **Sound containers are those of blocks with room for ids in range.** -/
theorem sound_iff {c : Container} : c.Sound ↔ c.kind = .blocks ∧ c.Roomy 15 := by
  obtain ⟨kind, packing⟩ := c
  constructor
  · rintro ⟨rfl, hpacking, hrange⟩
    obtain ⟨hformed, hwide⟩ := packingSound_iff.1 hpacking
    exact ⟨rfl, hformed, wideEnough_iff.1 hwide, hrange⟩
  · rintro ⟨rfl, hformed, hwide, hrange⟩
    exact ⟨rfl, packingSound_iff.2 ⟨hformed, wideEnough_iff.2 hwide⟩, hrange⟩

section Sound

variable {c : Container} {i : Nat} {id : Int32}

theorem Sound.roomy (h : c.Sound) : c.Roomy 15 := (sound_iff.1 h).2

theorem Sound.proper (h : c.Sound) : c.kind.Proper := h.kind ▸ ContainerKind.proper_blocks

theorem Sound.entries (h : c.Sound) : c.kind.entries = 4096 := by rw [h.kind]; rfl

theorem Sound.le_globalBits (h : c.Sound) : 15 ≤ c.kind.globalBits := by rw [h.kind]; decide

/-- **Whatever id in range is set into a sound container, it stays sound.** -/
theorem Sound.set (h : c.Sound) (hi : i < 4096) (hid : IdInRange id) : (c.set i id).Sound :=
  sound_iff.2 ⟨(kind_set c i id).trans h.kind,
    h.roomy.set h.proper h.le_globalBits (h.entries.symm ▸ hi) hid⟩

/-- **Setting an id changes that id alone.** -/
theorem Sound.toList_set (h : c.Sound) (hi : i < 4096) (hid : IdInRange id) :
    (c.set i id).toList = c.toList.set i id :=
  h.roomy.toList_set h.proper h.le_globalBits (h.entries.symm ▸ hi) hid

end Sound

end Container

end Playhead
