import Playhead.Proofs.Column.Grammar

/-!
# A column is written as it was read

The texts of a column are those of its sections in a row (`Playhead.Column.HasText`). What is stored
of a section is all that its text says, but for one thing: a number can be spelled with more bytes
than it takes, and what is stored is the number. So a column that nobody has written to is written
back byte for byte **just when its numbers were spelled as they are written**
(`Playhead.Column.encode_eq_ok_iff`). Padding of longs, entries of palettes that no slot points at
or that are there twice, and a wrong count all come back
(`Playhead.Column.encode_eq_ok_iff_untidy`).
-/

namespace Playhead

open Wire (Codec)

/-- **A column**: the texts of sections in a row. -/
inductive Grammar.ColumnText (number : Bytes → Int32 → Prop) : Bytes → Prop
  | nil : ColumnText number []
  | cons {text bytes : Bytes} {count : Int} {blocks biomes : List Int32}
      (first : SectionText number text count blocks biomes) (others : ColumnText number bytes) :
      ColumnText number (text ++ bytes)

open Grammar (SectionText ColumnText)

/-! ### Sections -/

namespace ChunkSection

variable {number : Bytes → Int32 → Prop} {s : ChunkSection} {text : Bytes}

theorem HasText.ne_nil (h : s.HasText number text) : text ≠ [] := by
  obtain ⟨-⟩ := h
  simp [Bytes.ofNat]

/-- **A section is written as its text with the numbers as they are written.** -/
theorem HasText.encode (h : s.HasText Wire.Writes text) : s.encode = .ok text := by
  obtain ⟨-, -, hblocks, hbiomes⟩ := h
  simp only [ChunkSection.encode, hblocks.encode, hbiomes.encode, bind, Except.bind, pure,
    Except.pure, List.append_assoc]

/-- Whatever a section was read from, it has a text with the numbers as they are written. -/
theorem HasText.exists_written (h : s.HasText number text) :
    ∃ written, s.HasText Wire.Writes written := by
  obtain ⟨hlo, hhi, hblocks, hbiomes⟩ := h
  obtain ⟨front, hfront⟩ := Packing.exists_hasText ContainerKind.readable_blocks hblocks.formed
    fun _ => hblocks.shown
  obtain ⟨back, hback⟩ := Packing.exists_hasText ContainerKind.readable_biomes hbiomes.formed
    fun _ => hbiomes.shown
  exact ⟨_, .mk hlo hhi hfront hback⟩

end ChunkSection

/-! ### Columns -/

namespace Column

variable {number number' : Bytes → Int32 → Prop} {c : Column} {bytes : Bytes}

/-- The texts of a column, if `number` says what the texts of numbers are. -/
def HasText (number : Bytes → Int32 → Prop) (c : Column) (bytes : Bytes) : Prop :=
  ∃ texts, bytes = texts.flatten ∧
    List.Forall₂ (fun text s => ChunkSection.HasText number s text) texts c.sections.toList

/-- With more texts of numbers there are more texts of columns. -/
theorem HasText.mono (hle : ∀ text v, number text v → number' text v) (h : c.HasText number bytes) :
    c.HasText number' bytes := by
  obtain ⟨texts, rfl, htexts⟩ := h
  exact ⟨texts, rfl, htexts.imp fun _ _ h => h.mono hle⟩

/-- **Every turn of the reading loop makes what is left shorter**, so that the loop ends, and none
is cut off. -/
theorem decodeFrom_turn {bytes rest : Bytes} {s : ChunkSection}
    (h : ChunkSection.decode bytes = .ok (s, rest)) (done : Array ChunkSection) :
    rest.length < bytes.length ∧ decodeFrom done bytes = decodeFrom (done.push s) rest := by
  obtain ⟨text, rfl, htext⟩ := ChunkSection.decode_eq_ok_iff.1 h
  have hpos := List.length_pos_iff.2 htext.ne_nil
  have hlt : rest.length < (text ++ rest).length := by
    rw [List.length_append]
    omega
  refine ⟨hlt, ?_⟩
  rw [decodeFrom, if_neg (List.append_ne_nil_of_left_ne_nil htext.ne_nil _), h]
  exact if_pos hlt

/-- Sections in a row are read one by one. -/
theorem decodeFrom_flatten {texts : List Bytes} {sections : List ChunkSection}
    (h : List.Forall₂ (fun text s => ChunkSection.HasText Wire.Spells s text) texts sections)
    (done : Array ChunkSection) :
    decodeFrom done texts.flatten = .ok ⟨done ++ sections.toArray⟩ := by
  induction h generalizing done with
  | nil => rw [List.flatten_nil, decodeFrom, if_pos rfl, Array.append_empty]
  | @cons text s texts sections hs _ ih =>
    have hread : ChunkSection.decode (text ++ texts.flatten) = .ok (s, texts.flatten) :=
      ChunkSection.decode_eq_ok_iff.2 ⟨text, rfl, hs⟩
    rw [List.flatten_cons, (decodeFrom_turn hread done).2, ih]
    simp

/-- What is read after other sections are sections, each with a text of its own. -/
theorem exists_of_decodeFrom {done : Array ChunkSection} (h : decodeFrom done bytes = .ok c) :
    ∃ texts sections, bytes = texts.flatten ∧ c = ⟨done ++ sections.toArray⟩ ∧
      List.Forall₂ (fun text s => ChunkSection.HasText Wire.Spells s text) texts sections := by
  fun_induction decodeFrom done bytes with
  | case1 done => exact ⟨[], [], rfl, (Except.ok.inj h).symm.trans (by simp), .nil⟩
  | case2 => exact absurd h (by simp)
  | case3 done bytes _ s rest hs _ ih =>
    obtain ⟨text, rfl, htext⟩ := ChunkSection.decode_eq_ok_iff.1 hs
    obtain ⟨texts, sections, rfl, rfl, htexts⟩ := ih h
    exact ⟨text :: texts, s :: sections, rfl, by simp, .cons htext htexts⟩
  | case4 done bytes _ s rest hs hlength => exact absurd (decodeFrom_turn hs done).1 hlength

/-- **The reader of columns accepts the texts of their sections**, and nothing else. -/
theorem decode_eq_ok_iff : decode bytes = .ok c ↔ c.HasText Wire.Spells bytes := by
  constructor
  · intro h
    obtain ⟨texts, sections, rfl, rfl, htexts⟩ := exists_of_decodeFrom h
    exact ⟨texts, rfl, by simpa using htexts⟩
  · rintro ⟨texts, rfl, htexts⟩
    rw [decode, decodeFrom_flatten htexts, Array.toArray_toList, Array.empty_append]

/-- **A column is written as its text with the numbers as they are written.** -/
theorem HasText.encode (h : c.HasText Wire.Writes bytes) : c.encode = .ok bytes := by
  obtain ⟨texts, rfl, htexts⟩ := h
  rw [Column.encode, Codec.mapM_eq_ok_iff.2 (htexts.imp fun _ _ h => h.encode)]
  rfl

/-- Whatever a column was read from, it has a text with the numbers as they are written. -/
theorem HasText.exists_written (h : c.HasText number bytes) :
    ∃ written, c.HasText Wire.Writes written := by
  obtain ⟨texts, -, htexts⟩ := h
  have hwritten : ∃ written, List.Forall₂ (fun text s => ChunkSection.HasText Wire.Writes s text)
      written c.sections.toList := by
    generalize c.sections.toList = sections at htexts
    induction htexts with
    | nil => exact ⟨[], .nil⟩
    | cons hs _ ih =>
      obtain ⟨text, htext⟩ := hs.exists_written
      obtain ⟨written, hwritten⟩ := ih
      exact ⟨text :: written, .cons htext hwritten⟩
  obtain ⟨written, hwritten⟩ := hwritten
  exact ⟨_, written, rfl, hwritten⟩

/-- **The texts of columns are those of the grammar.** -/
theorem columnText_iff : ColumnText number bytes ↔ ∃ c : Column, c.HasText number bytes := by
  constructor
  · intro h
    induction h with
    | nil => exact ⟨⟨#[]⟩, [], rfl, .nil⟩
    | @cons text bytes _ _ _ first _ ih =>
      obtain ⟨s, hs, -⟩ := ChunkSection.sectionText_iff.1 first
      obtain ⟨c, texts, rfl, htexts⟩ := ih
      exact ⟨⟨(s :: c.sections.toList).toArray⟩, text :: texts, rfl, .cons hs htexts⟩
  · rintro ⟨c, texts, rfl, htexts⟩
    generalize c.sections.toList = sections at htexts
    induction htexts with
    | nil => exact .nil
    | cons hs _ ih => exact .cons (ChunkSection.sectionText_iff.2 ⟨_, hs, rfl, rfl, rfl⟩) ih

/-- **A column that is read is written back as the very bytes** just when the numbers in them are
spelled as they are written. In any case it can be written, and what is written is read as the same
column. -/
theorem encode_eq_ok_iff (hdecode : decode bytes = .ok c) :
    (c.encode = .ok bytes ↔ ColumnText Wire.Writes bytes) ∧
      ∃ written, c.encode = .ok written ∧ decode written = .ok c := by
  obtain ⟨written, hwritten⟩ := (decode_eq_ok_iff.1 hdecode).exists_written
  have hspells {text} {c : Column} (h : c.HasText Wire.Writes text) : decode text = .ok c :=
    decode_eq_ok_iff.2 (h.mono fun _ _ => Wire.Writes.spells)
  refine ⟨⟨fun hencode => ?_, fun htext => ?_⟩, written, hwritten.encode, hspells hwritten⟩
  · -- what is written is such a text, whatever was read
    obtain rfl := Except.ok.inj (hwritten.encode.symm.trans hencode)
    exact columnText_iff.2 ⟨c, hwritten⟩
  · -- the bytes are such a text of some column, and no other column is read from them
    obtain ⟨c', hc'⟩ := columnText_iff.1 htext
    obtain rfl := Except.ok.inj ((hspells hc').symm.trans hdecode)
    exact hc'.encode

/-- A section of air that counts five blocks, with biomes of three bits each: the palette has one id
twice and one that no slot points at, and the padding of the longs is not zero. -/
def untidy : Bytes :=
  [0, 5, 0, 0, 3, 3, 7, 7, 9] ++ (List.replicate 4 [128, 0, 0, 0, 0, 0, 0, 0]).flatten

/-- The untidy bytes are those that are written, whatever is in their padding. -/
theorem columnText_untidy : ColumnText Wire.Writes untidy := by
  have hair : Wire.Writes [0] 0 := by cbv
  have hsize : Wire.Writes [3] 3 := by cbv
  have hids : List.Forall₂ Wire.Writes [[7], [7], [9]] [7, 7, 9] :=
    .cons (by cbv) (.cons (by cbv) (.cons (by cbv) .nil))
  have hdata : Grammar.Fills 64 3 (List.replicate 4 [128, 0, 0, 0, 0, 0, 0, 0]).flatten := by
    rw [Grammar.Fills, Nat.ceilDiv_eq_add_pred_div]
    rfl
  have hinside : ∀ i < 64,
      Grammar.entry 3 (List.replicate 4 [128, 0, 0, 0, 0, 0, 0, 0]).flatten i < 3 := by
    decide +kernel
  have hbiomes : Grammar.ContainerText Wire.Writes 64 3 (3 :: _) _ :=
    .indirect (by decide) (by decide) hsize rfl (by decide) (by decide) hids hdata hinside
  have hsection : SectionText Wire.Writes (0 :: 5 :: _) _ _ _ :=
    .mk (by decide) (.single hair) hbiomes
  have hcolumn := ColumnText.cons hsection .nil
  exact hcolumn

/-- An untidy column is written back as it is. -/
theorem encode_eq_ok_iff_untidy : ∃ c, decode untidy = .ok c ∧ ColumnText Wire.Writes untidy ∧
    c.encode = .ok untidy ∧ ∃ written, c.encode = .ok written ∧ decode written = .ok c := by
  obtain ⟨c, hc⟩ := columnText_iff.1 columnText_untidy
  have hdecode : decode untidy = .ok c :=
    decode_eq_ok_iff.2 (hc.mono fun _ _ => Wire.Writes.spells)
  obtain ⟨hexact, hwritten⟩ := encode_eq_ok_iff hdecode
  exact ⟨c, hdecode, columnText_untidy, hexact.2 columnText_untidy, hwritten⟩

end Column

end Playhead
