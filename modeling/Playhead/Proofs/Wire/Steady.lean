import Playhead.Proofs.Wire.Frame
import Playhead.Proofs.Wire.Spelling

/-!
# What is cut off is refused

A reader works from the front. If it succeeds it has looked no further than the place where it
stopped, so with more behind its input it reads the same value and leaves more
(`Playhead.Wire.Steady`). That is what makes a lost tail noticeable: if a front part of a written
value were accepted, the whole would be read in the same way, with the rest of it left over; but
what is written is read to its end or not at all (`Playhead.Wire.Codec.ReadsToEnd`). So every front
part is refused (`Playhead.Wire.Codec.Steady.refusesCut`), whatever the value is made of and
wherever the cut is.

Steadiness goes through every step of reading: a reader that goes on with a steady reader after a
steady one is steady (`Playhead.Wire.Steady.bind`), so that one line for each codec suffices. The
reader of compressed streams is the one that needs no law: it is given exactly the bytes that its
frame announces, and what it makes of them does not depend on what follows the frame.
-/

namespace Playhead.Wire

variable {ε ε' α β : Type}

/-! ### Steady readers -/

/-- **A reader that succeeds has looked no further than where it stopped**: with more behind its
input it reads the same value, and leaves more. -/
def Steady (read : Bytes → Except ε (α × Bytes)) : Prop :=
  ∀ bytes v rest, read bytes = .ok (v, rest) → ∀ more, read (bytes ++ more) = .ok (v, rest ++ more)

namespace Steady

/-- To give a value without reading is steady. -/
theorem pure (v : α) : Steady fun bytes => (.ok (v, bytes) : Except ε (α × Bytes)) := by
  rintro bytes w rest hread more
  obtain ⟨rfl, rfl⟩ := Prod.mk.inj (Except.ok.inj hread)
  rfl

/-- To refuse everything is steady. -/
theorem error (e : ε) : Steady fun _ => (.error e : Except ε (α × Bytes)) := by
  intro bytes v rest hread
  exact absurd hread (by simp)

/-- **Steady steps, one after the other, are steady**, also where the next step depends on what
was read. -/
theorem bind {read : Bytes → Except ε (α × Bytes)} {next : α × Bytes → Except ε (β × Bytes)}
    (hread : Steady read) (hnext : ∀ a, Steady fun rest => next (a, rest)) :
    Steady fun bytes => read bytes >>= next := by
  intro bytes v rest h more
  obtain ⟨⟨a, rest'⟩, ha, h⟩ := Codec.ok_of_bind h
  simp only [hread _ _ _ ha more]
  exact hnext a _ _ _ h more

/-- A step that reads nothing and may refuse what was read. -/
theorem check (x : Except ε α) {next : Bytes → α → Except ε (β × Bytes)}
    (hnext : ∀ a, Steady fun bytes => next bytes a) : Steady fun bytes => x >>= next bytes := by
  cases x with
  | error e => exact error e
  | ok a => exact hnext a

/-- A choice that does not look at the bytes is as steady as its branches. -/
theorem ite {c : Prop} [Decidable c] {read read' : Bytes → Except ε (α × Bytes)}
    (h : Steady read) (h' : Steady read') :
    Steady fun bytes => if c then read bytes else read' bytes := by
  by_cases hc : c
  · simpa only [if_pos hc] using h
  · simpa only [if_neg hc] using h'

theorem mapError {read : Bytes → Except ε (α × Bytes)} (h : Steady read) (f : ε → ε') :
    Steady fun bytes => (read bytes).mapError f := by
  intro bytes v rest hread more
  simp only [Codec.mapError_eq_ok_iff] at hread ⊢
  exact h _ _ _ hread more

end Steady

namespace Codec

variable {codec : Codec ε α}

/-- **What is written is read to its end, if it is read at all**: nothing of it is left over, and
nothing that follows it is touched. -/
def ReadsToEnd (codec : Codec ε α) : Prop :=
  ∀ v bytes, codec.encode v = .ok bytes → ∀ rest w rest',
    codec.decode (bytes ++ rest) = .ok (w, rest') → rest' = rest

/-- **No proper front part of what is written is read as anything.** -/
def RefusesCut (codec : Codec ε α) : Prop :=
  ∀ v bytes, codec.encode v = .ok bytes → ∀ front, front <+: bytes → front ≠ bytes →
    ∃ e, codec.decode front = .error e

/-- A codec whose reader is steady. -/
def Steady (codec : Codec ε α) : Prop := Wire.Steady codec.decode

/-- What reads back reads to the end of what was written. -/
theorem ReadsBack.readsToEnd {back : α → Option α} (h : codec.ReadsBack back) :
    codec.ReadsToEnd := by
  intro v bytes hv rest w rest' hread
  cases hback : back v with
  | some v' =>
    rw [h.some_eq hv hback] at hread
    exact (Prod.mk.inj (Except.ok.inj hread)).2.symm
  | none =>
    obtain ⟨e, he⟩ := h.none_eq hv hback rest
    rw [he] at hread
    exact absurd hread (by simp)

/-- **What a steady reader reads to its end it refuses when it is cut off.** -/
theorem Steady.refusesCut (h : codec.Steady) (hend : codec.ReadsToEnd) : codec.RefusesCut := by
  rintro v bytes hv front ⟨tail, rfl⟩ hfront
  cases hread : codec.decode front with
  | error e => exact ⟨e, rfl⟩
  | ok found =>
    obtain ⟨w, rest⟩ := found
    -- the whole would be read in the same way, and the tail would be left over
    have hwhole : codec.decode (front ++ tail ++ []) = .ok (w, rest ++ tail) := by
      rw [List.append_nil]
      exact h front w rest hread tail
    have hnil : rest ++ tail = [] := hend v _ hv [] w _ hwhole
    rw [(List.append_eq_nil_iff.1 hnil).2, List.append_nil] at hfront
    exact absurd rfl hfront

/-- A reader that accepts certain texts and nothing else is steady. -/
theorem Accepts.steady {spells : Bytes → α → Prop} (h : codec.Accepts spells) : codec.Steady := by
  intro bytes v rest hread more
  obtain ⟨text, rfl, htext⟩ := (h _ _ _).1 hread
  rw [List.append_assoc]
  exact h.decode_append htext _

/-! ### Combinators -/

namespace Steady

theorem pair {first : Codec ε α} {second : Codec ε β} (h : first.Steady) (h' : second.Steady) :
    (first.pair second).Steady :=
  Wire.Steady.bind h fun a => Wire.Steady.bind h' fun b => .pure (a, b)

theorem iso (h : codec.Steady) (build : α → β) (fields : β → α) :
    (codec.iso build fields).Steady :=
  Wire.Steady.bind h fun a => .pure (build a)

theorem mapError (h : codec.Steady) (f : ε → ε') : (codec.mapError f).Steady :=
  Wire.Steady.mapError h f

/-- Reading many is steady if reading one is. -/
theorem decodeMany (h : codec.Steady) (n : Nat) (done : List α) :
    Wire.Steady (codec.decodeMany n done) := by
  induction n generalizing done with
  | zero => exact .pure done.reverse
  | succ n ih =>
    intro bytes vs rest hread more
    rw [Codec.decodeMany] at hread ⊢
    split at hread
    · next a rest' ha =>
      rw [h _ _ _ ha more]
      exact ih (a :: done) _ _ _ hread more
    · exact absurd hread (by simp)

theorem list {length : Codec ε Nat} (hl : length.Steady) (h : codec.Steady) :
    (Codec.list length codec).Steady :=
  Wire.Steady.bind hl fun count => h.decodeMany count []

/-- A value of one of several variants is read by the variant that its number picks. -/
theorem oneOf {tagCodec : Codec Fault Int32} {variants : List (Variant α)}
    (ht : tagCodec.Steady) (h : ∀ variant ∈ variants, variant.codec.Steady) :
    (Codec.oneOf tagCodec variants).Steady := by
  refine Wire.Steady.bind ht fun tag => ?_
  simp only
  cases hvariant : if tag < 0 then none else variants[tag.toInt.toNat]? with
  | none => exact .error _
  | some variant =>
    have hmem : variant ∈ variants := by
      split at hvariant
      · exact absurd hvariant (by simp)
      · exact List.mem_of_getElem? hvariant
    exact Wire.Steady.bind (h variant hmem) fun payload => .pure (variant.inject payload)

end Steady

end Codec

/-! ### Numbers -/

theorem fixedWidth_steady (width : Nat) : (fixedWidth width).Steady := by
  intro bytes n rest hread more
  simp only [fixedWidth] at hread ⊢
  split at hread
  · next front rest' hsplit =>
    obtain ⟨rfl, rfl⟩ := Prod.mk.inj (Except.ok.inj hread)
    obtain ⟨rfl, rfl⟩ := Bytes.split?_eq_some_iff.1 hsplit
    rw [List.append_assoc, Bytes.split?_append]
  · exact absurd hread (by simp)

theorem u8_steady : u8.Steady := (fixedWidth_steady 1).iso _ _

theorem i32_steady : i32.Steady := (fixedWidth_steady 4).iso _ _

theorem i64_steady : i64.Steady := (fixedWidth_steady 8).iso _ _

theorem u32_steady : u32.Steady := (fixedWidth_steady 4).iso _ _

theorem u64_steady : u64.Steady := (fixedWidth_steady 8).iso _ _

theorem bool_steady : bool.Steady := u8_steady.iso _ _

theorem Groups.decode_steady (limit : Nat) : Steady (Groups.decode limit) := by
  intro bytes n rest hread more
  obtain ⟨text, rfl, htext, hlength⟩ := Groups.decode_eq_ok_iff.1 hread
  rw [List.append_assoc]
  exact Groups.decode_eq_ok_iff.2 ⟨text, rfl, htext, hlength⟩

theorem varint_steady : varint.Steady := varint_accepts.steady

theorem varlong_steady : varlong.Steady :=
  Steady.bind (Groups.decode_steady 10) fun n => .pure (UInt64.ofNat n).toInt64

theorem length_steady : length.Steady := length_accepts.steady

theorem listOf_steady {codec : Codec Fault α} (h : codec.Steady) : (listOf codec).Steady :=
  length_steady.list h

/-! ### Texts and runs -/

/-- Taking a run of bytes is steady. -/
theorem takeRun_steady (count : Nat) : Steady (takeRun count) := by
  intro bytes run rest hread more
  simp only [takeRun] at hread ⊢
  split at hread
  · next found hsplit =>
    obtain rfl := Except.ok.inj hread
    obtain ⟨rfl, rfl⟩ := Bytes.split?_eq_some_iff.1 hsplit
    rw [List.append_assoc, Bytes.split?_append]
  · exact absurd hread (by simp)

theorem byteRun_steady : byteRun.Steady :=
  Steady.bind length_steady takeRun_steady

/-- Whether a text is well formed depends on the bytes that it announced alone. -/
theorem text_steady : text.Steady := by
  refine Steady.bind length_steady fun count => .ite (.error _) ?_
  intro bytes s rest hread more
  simp only at hread ⊢
  split at hread
  · exact absurd hread (by simp)
  · next front rest' hsplit =>
    obtain ⟨rfl, rfl⟩ := Bytes.split?_eq_some_iff.1 hsplit
    rw [List.append_assoc, Bytes.split?_append]
    simp only
    split at hread
    · next cs hcs =>
      obtain ⟨rfl, rfl⟩ := Prod.mk.inj (Except.ok.inj hread)
      rfl
    · exact absurd hread (by simp)

/-! ### Frames -/

namespace Frame

/-- Reading the header of a frame is steady. -/
theorem decodeHeader_steady : Steady decodeHeader :=
  Steady.bind length_steady fun lead =>
    .ite (Steady.bind length_steady fun size => .pure (Header.mk (lead / 2) (some size)))
      (.pure (Header.mk (lead / 2) none))

/-- A frame is unpacked from the bytes that its header announces. -/
theorem decode_steady : Steady decode :=
  Steady.bind decodeHeader_steady fun header =>
    Steady.bind (takeRun_steady header.stored) fun body =>
      .check (unpack header body) fun payload => .pure payload

theorem codec_steady (compression : Option Compression) : (codec compression).Steady :=
  decode_steady

end Frame

/-- What comes in frames is steady, whatever is in the frames: the frame has been cut out before. -/
theorem framed_steady (compression : Option Compression) (codec : Codec Fault α) :
    (framed compression codec).Steady := by
  refine Steady.bind Frame.decode_steady fun payload => ?_
  exact .check (codec.decode payload) fun found => .ite (.pure found.1) (.error _)

end Playhead.Wire
