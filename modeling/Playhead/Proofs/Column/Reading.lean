import Playhead.Proofs.Column.Form
import Playhead.Proofs.Wire.Spelling

/-!
# The bytes of a container

What is stored in a container has **texts** (`Playhead.Packing.HasText`): the width, and then what
the form needs. They depend on what the texts of a number are. With all of them, the texts are what
the reader accepts (`Playhead.Container.decode_eq_ok_iff`), so a container that is read is formed,
whatever the bytes are (`Playhead.Packing.HasText.formed`): the reader refuses a palette that is
too large and a slot outside it, and takes as many words as the entries need. With the numbers as
they are written, the text is the one that is written (`Playhead.Packing.HasText.encode`).

In the other direction, a formed container is read back from what it writes, bit for bit and
whatever follows (`Playhead.Container.exists_encode`). For that its form has to show in its width,
which is so for every container that is read, and stays so (`Playhead.Container.Shown`).
-/

namespace Playhead

open Wire (Codec)

/-! ### Packed arrays -/

namespace PackedArray

/-- Words are read back one by one. -/
theorem decodeWords_encode (words : List UInt64) (done : Array UInt64) (rest : Bytes) :
    decodeWords words.length done (words.flatMap (fun w => Bytes.ofNat 8 w.toNat) ++ rest) =
      .ok (done ++ words.toArray, rest) := by
  induction words generalizing done with
  | nil => simp [decodeWords]
  | cons w words ih =>
    have hsplit := Bytes.split?_append (Bytes.ofNat 8 w.toNat)
      (words.flatMap (fun w => Bytes.ofNat 8 w.toNat) ++ rest)
    have hw : UInt64.ofNat (Bytes.toNat (Bytes.ofNat 8 w.toNat)) = w := by
      rw [Bytes.toNat_ofNat (Nat.lt_of_lt_of_eq w.toNat_lt rfl), UInt64.ofNat_toNat]
    rw [Bytes.length_ofNat] at hsplit
    rw [List.length_cons, List.flatMap_cons, List.append_assoc, decodeWords, hsplit]
    simp only [hw]
    rw [ih]
    simp

/-- Eight bytes are a word. -/
theorem ofNat_word {front : Bytes} (h : front.length = 8) :
    Bytes.ofNat 8 (UInt64.ofNat (Bytes.toNat front)).toNat = front := by
  have hlt : Bytes.toNat front < 2 ^ 64 := by
    have := Bytes.toNat_lt front
    rwa [h] at this
  rw [UInt64.toNat_ofNat_of_lt' hlt, ← h, Bytes.ofNat_toNat]

/-- **Words are read from their own bytes only.** -/
theorem exists_of_decodeWords {count : Nat} {done words : Array UInt64} {bytes rest : Bytes}
    (h : decodeWords count done bytes = .ok (words, rest)) :
    ∃ added : List UInt64, added.length = count ∧ words = done ++ added.toArray ∧
      bytes = added.flatMap (fun w => Bytes.ofNat 8 w.toNat) ++ rest := by
  induction count generalizing done bytes with
  | zero =>
    simp only [decodeWords, Except.ok.injEq, Prod.mk.injEq] at h
    exact ⟨[], rfl, by simp [h.1], by simp [h.2]⟩
  | succ count ih =>
    simp only [decodeWords] at h
    split at h
    · next front rest' hsplit =>
      obtain ⟨rfl, hfront⟩ := Bytes.split?_eq_some_iff.1 hsplit
      obtain ⟨added, rfl, rfl, rfl⟩ := ih h
      refine ⟨UInt64.ofNat (Bytes.toNat front) :: added, rfl, by simp, ?_⟩
      rw [List.flatMap_cons, ofNat_word hfront, List.append_assoc]
    · exact absurd h (by simp)

/-- A width has a place in one byte. -/
theorem WellFormed.toNat_width {a : PackedArray} (h : a.WellFormed) :
    (UInt8.ofNat a.bits).toNat = a.bits :=
  UInt8.toNat_ofNat_of_lt' (Nat.lt_trans h.lt (by decide))

/-- **A packed array is read from its own bytes**, and from no others. -/
theorem decode_eq_ok_iff {bits length : Nat} (hp : 0 < bits) (hb : bits < 64) {bytes rest : Bytes}
    {a : PackedArray} : decode bits length bytes = .ok (a, rest) ↔
      (a.WellFormed ∧ a.bits = bits ∧ a.length = length) ∧ bytes = a.encode ++ rest := by
  constructor
  · intro h
    simp only [decode] at h
    split at h
    · next words rest' hwords =>
      simp only [Except.ok.injEq, Prod.mk.injEq] at h
      obtain ⟨rfl, rfl⟩ := h
      obtain ⟨added, hcount, rfl, rfl⟩ := exists_of_decodeWords hwords
      refine ⟨⟨⟨hp, hb, by simpa using hcount⟩, rfl, rfl⟩, ?_⟩
      simp [encode]
    · exact absurd h (by simp)
  · rintro ⟨⟨hwf, rfl, rfl⟩, rfl⟩
    have hwords := decodeWords_encode a.words.toList #[] rest
    rw [Array.length_toList, hwf.words, Array.empty_append, Array.toArray_toList] at hwords
    rw [decode, encode, hwords]

end PackedArray

/-! ### The texts of a packing -/

open Container (SlotsFormed DirectFormed PackingFormed)

namespace Packing

variable {number number' : Bytes → Int32 → Prop} {kind : ContainerKind}

/-- **The texts of a palette and its slots**, if `number` says what the texts of numbers are: the
length of the palette, its ids, and the words of the slots. -/
inductive PaletteText (number : Bytes → Int32 → Prop) (kind : ContainerKind) (palette : List Int32)
    (slots : PackedArray) : Bytes → Prop
  | mk {size : Int32} {front : Bytes} {texts : List Bytes}
      (hslots : SlotsFormed kind palette.toArray slots) (hsome : palette ≠ [])
      (hbits : slots.bits ≤ kind.maxIndirectBits) (hsize : size.toInt = palette.length)
      (hfront : number front size) (hids : List.Forall₂ number texts palette) :
      PaletteText number kind palette slots (front ++ (texts.flatten ++ slots.encode))

/-- **The texts of a packing**, in a container of some kind: the width and what the form needs. -/
inductive HasText (number : Bytes → Int32 → Prop) (kind : ContainerKind) : Packing → Bytes → Prop
  | single {id : Int32} {text : Bytes} (h : number text id) :
      HasText number kind (.single id) (0 :: text)
  | indirect {palette : List Int32} {slots : PackedArray} {text : Bytes}
      (h : PaletteText number kind palette slots text) :
      HasText number kind (.indirect palette.toArray slots) (UInt8.ofNat slots.bits :: text)
  | direct {ids : PackedArray} (h : DirectFormed kind ids) (hlt : kind.maxIndirectBits < ids.bits)
      (hle : ids.bits ≤ 32) : HasText number kind (.direct ids) (UInt8.ofNat ids.bits :: ids.encode)

namespace HasText

variable {packing : Packing} {text : Bytes}

/-- With more texts of numbers there are more texts of packings. -/
theorem mono (hle : ∀ text v, number text v → number' text v)
    (h : packing.HasText number kind text) : packing.HasText number' kind text := by
  cases h with
  | single h => exact .single (hle _ _ h)
  | indirect h =>
    obtain ⟨hslots, hne, hbits, hsize, hfront, hids⟩ := h
    exact .indirect (.mk hslots hne hbits hsize (hle _ _ hfront)
      (hids.imp hle))
  | direct h hlt hle => exact .direct h hlt hle

/-- What has a text is formed. -/
theorem formed (h : packing.HasText number kind text) : PackingFormed kind packing := by
  cases h with
  | single h => trivial
  | indirect h =>
    obtain ⟨hslots, -⟩ := h
    exact hslots
  | direct h => exact h

/-- A packing has a form to show: direct ids are wider than any palette of the kind, and no wider
than ids are. -/
theorem shown (h : packing.HasText number kind text) {ids : PackedArray}
    (hids : packing = .direct ids) : kind.maxIndirectBits < ids.bits ∧ ids.bits ≤ 32 := by
  subst hids
  cases h with
  | direct _ hlt hle => exact ⟨hlt, hle⟩

end HasText

end Packing

namespace Container

open Packing (PaletteText HasText)

variable {kind : ContainerKind}

/-! ### What is read -/

/-- **The reader of palettes accepts their texts.** -/
theorem decodeIndirect_eq_ok_iff {bits : Nat} (hp : 0 < bits) (hb : bits < 64)
    (hmax : bits ≤ kind.maxIndirectBits) {bytes rest : Bytes} {packing : Packing} :
    decodeIndirect kind bits bytes = .ok (packing, rest) ↔ ∃ palette slots text,
      packing = .indirect palette.toArray slots ∧ slots.bits = bits ∧ bytes = text ++ rest ∧
        PaletteText Wire.Spells kind palette slots text := by
  constructor
  · intro hread
    -- what is read is taken apart: the size of the palette, its ids, the words
    obtain ⟨⟨size, rest₁⟩, hsize, hpalette⟩ := Codec.ok_of_bind hread
    obtain ⟨front, rfl, v, hfront, hv⟩ :=
      (Wire.length_accepts _ _ _).1 (Codec.mapError_eq_ok_iff.1 hsize)
    dsimp only at hpalette
    split at hpalette
    · exact absurd hpalette (by simp)
    · next hbounds =>
      obtain ⟨⟨palette, rest₂⟩, hids, hwords⟩ := Codec.ok_of_bind hpalette
      obtain ⟨⟨slots, rest₃⟩, hslots, hinside⟩ := Codec.ok_of_bind hwords
      obtain ⟨texts, _, rfl, rfl, hlength, htexts⟩ :=
        Wire.varint_accepts.decodeMany.1 (Codec.mapError_eq_ok_iff.1 hids)
      obtain ⟨⟨hwf, hbits, hlen⟩, rfl⟩ := (PackedArray.decode_eq_ok_iff hp hb).1 hslots
      dsimp only at hinside
      split at hinside
      · next hall =>
        simp only [pure, Except.pure, Except.ok.injEq, Prod.mk.injEq] at hinside
        obtain ⟨rfl, rfl⟩ := hinside
        obtain rfl := hlength
        have hsome : palette ≠ [] := fun hnil => hbounds (.inl (by rw [hnil]; rfl))
        have hle : palette.length ≤ 2 ^ bits := Nat.le_of_not_lt fun hlt => hbounds (.inr hlt)
        refine ⟨_, slots, _, rfl, hbits, ?_,
          .mk ⟨hwf, hlen, ?_, ?_, fun i hi => ?_⟩ hsome (hbits ▸ hmax) hv hfront htexts⟩
        · simp only [List.append_assoc]
        · rw [hbits]
          exact Nat.le_trans hmax (Nat.le_max_right _ _)
        · rwa [List.size_toArray, hbits]
        · simpa using List.all_eq_true.1 hall i (List.mem_range.2 hi)
      · exact absurd hinside (by simp)
  · rintro ⟨palette, slots, text, rfl, rfl, rfl, hslots, hne, -, hsize, hfront, hids⟩
    -- and each of the three is read from the text
    have hread := Wire.length_accepts.decode_append ⟨_, hfront, hsize⟩
    have hmany : Wire.varint.decodeMany palette.length [] (_ ++ (slots.encode ++ rest)) =
        .ok ([].reverse ++ palette, slots.encode ++ rest) :=
      Wire.varint_accepts.decodeMany.2 ⟨_, _, rfl, rfl, rfl, hids⟩
    have hwords : PackedArray.decode slots.bits kind.entries (slots.encode ++ rest) =
        .ok (slots, rest) :=
      (PackedArray.decode_eq_ok_iff hp hb).2 ⟨⟨hslots.wellFormed, rfl, hslots.length⟩, rfl⟩
    have hbounds : ¬ (palette.length = 0 ∨ Nat.pow 2 slots.bits < palette.length) := by
      rintro (hzero | hlarge)
      · exact hne (List.eq_nil_of_length_eq_zero hzero)
      · exact Nat.not_lt_of_le hslots.size hlarge
    have hinside : (List.range kind.entries).all
        (fun i => (slots.get i).toNat < palette.toArray.size) = true := by
      simpa using hslots.lt
    simp only [decodeIndirect, List.append_assoc, hread, Codec.mapError_ok, bind, Except.bind,
      if_neg hbounds, hmany, List.reverse_nil, List.nil_append, hwords, hinside, if_true]
    rfl

section Width

variable {width : UInt8} {bytes rest : Bytes} {packing : Packing}

/-- Without a width there is a single id. -/
theorem decodePacking_zero_eq_ok_iff : decodePacking kind (0 :: bytes) = .ok (packing, rest) ↔
    ∃ id text, packing = .single id ∧ bytes = text ++ rest ∧ Wire.Spells text id := by
  constructor
  · intro hread
    obtain ⟨⟨id, rest'⟩, hid, h⟩ := Codec.ok_of_bind hread
    simp only [pure, Except.pure, Except.ok.injEq, Prod.mk.injEq] at h
    obtain ⟨rfl, rfl⟩ := h
    obtain ⟨text, rfl, htext⟩ := (Wire.varint_accepts _ _ _).1 (Codec.mapError_eq_ok_iff.1 hid)
    exact ⟨id, text, rfl, rfl, htext⟩
  · rintro ⟨id, text, rfl, rfl, htext⟩
    rw [decodePacking]
    simp only [UInt8.toNat_zero, if_true, Wire.varint_accepts.decode_append htext]
    rfl

/-- A width that a palette may have belongs to a palette. -/
theorem decodePacking_of_le (hpos : 0 < width.toNat) (hle : width.toNat ≤ kind.maxIndirectBits) :
    decodePacking kind (width :: bytes) = decodeIndirect kind width.toNat bytes := by
  rw [decodePacking]
  dsimp only
  rw [if_neg (Nat.ne_of_gt hpos), if_pos hle]

/-- Any other width is that of direct ids, unless it is too large. -/
theorem decodePacking_of_lt (hpos : 0 < width.toNat) (hlt : kind.maxIndirectBits < width.toNat) :
    decodePacking kind (width :: bytes) = .ok (packing, rest) ↔ width.toNat ≤ 32 ∧
      ∃ ids, packing = .direct ids ∧ DirectFormed kind ids ∧ ids.bits = width.toNat ∧
        bytes = ids.encode ++ rest := by
  rw [decodePacking]
  dsimp only
  rw [if_neg (Nat.ne_of_gt hpos), if_neg (Nat.not_le_of_lt hlt)]
  split
  · next h32 =>
    have hwide : width.toNat < 64 := by omega
    constructor
    · intro hread
      obtain ⟨⟨ids, rest'⟩, hids, h⟩ := Codec.ok_of_bind hread
      simp only [pure, Except.pure, Except.ok.injEq, Prod.mk.injEq] at h
      obtain ⟨rfl, rfl⟩ := h
      obtain ⟨⟨hwf, hbits, hlen⟩, rfl⟩ := (PackedArray.decode_eq_ok_iff hpos hwide).1 hids
      exact ⟨h32, ids, rfl, ⟨hwf, hlen⟩, hbits, rfl⟩
    · rintro ⟨-, ids, rfl, hids, hbits, rfl⟩
      rw [(PackedArray.decode_eq_ok_iff hpos hwide).2 ⟨⟨hids.wellFormed, hbits, hids.length⟩, rfl⟩]
      rfl
  · next h32 => simp [h32]

end Width

/-- **The reader of packings accepts their texts and nothing else.** -/
theorem decodePacking_eq_ok_iff (hkind : kind.Proper) {bytes rest : Bytes} {packing : Packing} :
    decodePacking kind bytes = .ok (packing, rest) ↔
      ∃ text, bytes = text ++ rest ∧ packing.HasText Wire.Spells kind text := by
  obtain ⟨-, hmax, hglobal⟩ := hkind
  constructor
  · intro hread
    cases bytes with
    | nil => exact absurd hread (by simp [decodePacking])
    | cons width bytes =>
      have hwidth : UInt8.ofNat width.toNat = width := UInt8.ofNat_toNat
      -- what the width says: one id, direct ids or a palette
      obtain hzero | hpos := Nat.eq_zero_or_pos width.toNat
      · obtain rfl : width = 0 := UInt8.toNat_inj.1 hzero
        obtain ⟨id, text, rfl, rfl, htext⟩ := decodePacking_zero_eq_ok_iff.1 hread
        exact ⟨0 :: text, rfl, .single htext⟩
      obtain hlt | hle := Nat.lt_or_ge kind.maxIndirectBits width.toNat
      · obtain ⟨h32, ids, rfl, hids, hbits, rfl⟩ := (decodePacking_of_lt hpos hlt).1 hread
        refine ⟨width :: ids.encode, rfl, ?_⟩
        rw [← hwidth, ← hbits]
        exact .direct hids (hbits ▸ hlt) (hbits ▸ h32)
      · rw [decodePacking_of_le hpos hle] at hread
        obtain ⟨palette, slots, text, rfl, hbits, rfl, htext⟩ :=
          (decodeIndirect_eq_ok_iff hpos (by omega) hle).1 hread
        refine ⟨width :: text, rfl, ?_⟩
        rw [← hwidth, ← hbits]
        exact .indirect htext
  · rintro ⟨text, rfl, htext⟩
    cases htext with
    | single h => exact decodePacking_zero_eq_ok_iff.2 ⟨_, _, rfl, rfl, h⟩
    | @indirect palette slots text h =>
      have htext := h
      obtain ⟨hslots, -, hbits⟩ := h
      have hpos := hslots.wellFormed.pos
      have hwidth := hslots.wellFormed.toNat_width
      rw [List.cons_append, decodePacking_of_le (by rwa [hwidth]) (by rwa [hwidth]), hwidth]
      exact (decodeIndirect_eq_ok_iff hpos hslots.wellFormed.lt hbits).2
        ⟨palette, slots, _, rfl, rfl, rfl, htext⟩
    | @direct ids h hlt hle =>
      have hwidth := h.wellFormed.toNat_width
      exact (decodePacking_of_lt (by rw [hwidth]; exact h.wellFormed.pos) (by rwa [hwidth])).2
        ⟨by rwa [hwidth], ids, rfl, h, hwidth.symm, rfl⟩

/-- **The reader of containers accepts the texts of what they store**, and nothing else. -/
theorem decode_eq_ok_iff (hkind : kind.Proper) {bytes rest : Bytes} {c : Container} :
    decode kind bytes = .ok (c, rest) ↔ c.kind = kind ∧
      ∃ text, bytes = text ++ rest ∧ c.packing.HasText Wire.Spells kind text := by
  rw [← decodePacking_eq_ok_iff hkind]
  obtain ⟨kind', packing⟩ := c
  constructor
  · intro h
    obtain ⟨⟨packing', rest'⟩, hpacking, h⟩ := Codec.ok_of_bind h
    simp only [pure, Except.pure, Except.ok.injEq, Prod.mk.injEq, Container.mk.injEq] at h
    obtain ⟨⟨rfl, rfl⟩, rfl⟩ := h
    exact ⟨rfl, hpacking⟩
  · rintro ⟨rfl, hpacking⟩
    rw [decode, hpacking]
    rfl

/-- A text is read, whatever follows. -/
theorem decode_append (hkind : kind.Proper) {packing : Packing} {text : Bytes}
    (h : packing.HasText Wire.Spells kind text) (rest : Bytes) :
    decode kind (text ++ rest) = .ok (⟨kind, packing⟩, rest) :=
  (decode_eq_ok_iff hkind).2 ⟨rfl, text, rfl, h⟩

/-- Whether the form of a container shows in its width: direct ids are wider than any palette of
the kind, and no wider than ids are. -/
def Shown (c : Container) : Prop :=
  c.DirectWidth fun bits => c.kind.maxIndirectBits < bits ∧ bits ≤ 32

theorem shown_single (kind : ContainerKind) (id : Int32) : (single kind id).Shown :=
  directWidth_single _ kind id

/-- A container goes on showing its form when an entry is set. -/
theorem Shown.set {c : Container} (h : c.Shown) (hkind : c.kind.Proper) (i : Nat) (id : Int32) :
    (c.set i id).Shown := by
  rw [Shown, kind_set]
  exact DirectWidth.set h hkind ⟨hkind.max_lt, hkind.global_le⟩ i id

end Container

/-! ### What is written -/

/-- A kind whose containers can be read: they have entries, there is a width for palettes, and the
lengths of palettes have a place on the wire. -/
structure ContainerKind.Readable (kind : ContainerKind) : Prop where
  entries_pos : 0 < kind.entries
  one_le : 1 ≤ kind.maxIndirectBits
  max_lt : kind.maxIndirectBits < 31

theorem ContainerKind.readable_blocks : ContainerKind.blocks.Readable :=
  ⟨by decide, by decide, by decide⟩

theorem ContainerKind.readable_biomes : ContainerKind.biomes.Readable :=
  ⟨by decide, by decide, by decide⟩

namespace Packing

variable {kind : ContainerKind}

/-- **A packing is written as its text with the numbers as they are written.** -/
theorem HasText.encode {packing : Packing} {text : Bytes}
    (h : packing.HasText Wire.Writes kind text) : Container.encode ⟨kind, packing⟩ = .ok text := by
  cases h with
  | single h =>
    simp only [Container.encode, show Wire.varint.encode _ = _ from h, Codec.mapError_ok]
    rfl
  | indirect h =>
    obtain ⟨-, -, -, hsize, hfront, hids⟩ := h
    have hlength := (Wire.encode_length_eq_ok_iff hsize).2 hfront
    have hmembers := Codec.mapM_eq_ok_iff.2 hids
    simp only [Container.encode, Wire.listOf, Codec.list, hlength, hmembers, bind, Except.bind,
      pure, Except.pure, Codec.mapError_ok, List.append_assoc]
  | direct => rfl

/-- A formed packing whose form shows has a text with the numbers as they are written. -/
theorem exists_hasText (hkind : kind.Readable) {packing : Packing}
    (h : PackingFormed kind packing) (hshown : Container.Shown ⟨kind, packing⟩) :
    ∃ text, packing.HasText Wire.Writes kind text := by
  obtain ⟨hentries, hone, hmax⟩ := hkind
  cases packing with
  | single id =>
    obtain ⟨text, htext⟩ := Wire.varint_encodes id
    exact ⟨0 :: text, .single htext⟩
  | indirect palette slots =>
    have hslots : SlotsFormed kind palette slots := h
    have hbits := hslots.bits
    have hsize := hslots.size
    -- the palette is not empty, and not too large for its size to be written
    have hsome : 0 < palette.size := Nat.lt_of_le_of_lt (Nat.zero_le _) (hslots.lt 0 hentries)
    have hpow : 2 ^ slots.bits ≤ 2 ^ 30 := Nat.pow_le_pow_right (by decide) (by omega)
    have hcount : (Int32.ofNat palette.size).toInt = palette.toList.length := by
      rw [Int32.toInt_ofNat_of_lt (by omega), Array.length_toList]
    obtain ⟨front, hfront⟩ := Wire.varint_encodes (Int32.ofNat palette.size)
    obtain ⟨texts, htexts⟩ := Codec.exists_mapM fun id (_ : id ∈ palette.toList) =>
      Wire.varint_encodes id
    have hne : palette.toList ≠ [] := fun hnil => Nat.ne_of_gt hsome (by
      rw [← Array.length_toList, hnil]
      rfl)
    have htext : PaletteText Wire.Writes kind palette.toList slots _ :=
      .mk hslots hne (by omega) hcount hfront (Codec.mapM_eq_ok_iff.1 htexts)
    exact ⟨_, .indirect htext⟩
  | direct ids =>
    obtain ⟨hlo, hhi⟩ := hshown ids rfl
    exact ⟨_, .direct h hlo hhi⟩

end Packing

namespace Container

/-- **A formed container whose form shows is read back**, whatever follows. -/
theorem exists_encode {c : Container} (hproper : c.kind.Proper) (hkind : c.kind.Readable)
    (h : c.Formed) (hshown : c.Shown) :
    ∃ bytes, c.encode = .ok bytes ∧ ∀ rest, decode c.kind (bytes ++ rest) = .ok (c, rest) := by
  obtain ⟨text, htext⟩ := Packing.exists_hasText hkind h hshown
  exact ⟨text, htext.encode, decode_append hproper (htext.mono fun _ _ => Wire.Writes.spells)⟩

end Container

end Playhead
