import Mathlib.Algebra.Group.Nat.Defs
import Playhead.Proofs.Wire.Text

/-!
# Which values a codec carries faithfully

`Playhead.Wire.Codec.ReadsBack` says what becomes of a value that is written.
`Playhead.Wire.Codec.Yields` is the law in the other direction: whatever bytes are read, the value
that comes out belongs to a given domain and can be written. Together they fix **exactly** which
values survive (`Playhead.Wire.Codec.FaithfulOn`): those of the domain do, no other one does, and
reading never leaves the domain.

The law of a record is again put together from the laws of its fields, one lemma for each
combinator. For a type given by variants the writer takes the first variant that a value belongs
to, so there the variants have to be disjoint.
-/

namespace Playhead.Wire

namespace Codec

variable {ε α β : Type}

/-- Whether a value can be written. -/
def Encodes (codec : Codec ε α) (v : α) : Prop := ∃ written, codec.encode v = .ok written

/-- **What is read belongs to the domain and can be written.** -/
def Yields (codec : Codec ε α) (domain : α → Prop) : Prop :=
  ∀ bytes v rest, codec.decode bytes = .ok (v, rest) → domain v ∧ codec.Encodes v

/-- **The values that a codec carries are those of the domain.** A value that can be written is
read back, with nothing that follows it touched, just when it belongs to the domain; and what is
read from any bytes belongs to it, can be written and is read back. -/
structure FaithfulOn (codec : Codec ε α) (domain : α → Prop) : Prop where
  comesBack : ∀ v bytes, codec.encode v = .ok bytes → ∀ rest,
    (codec.decode (bytes ++ rest) = .ok (v, rest) ↔ domain v)
  staysInside : ∀ bytes v rest, codec.decode bytes = .ok (v, rest) →
    domain v ∧ ∃ written, codec.encode v = .ok written ∧
      ∀ rest', codec.decode (written ++ rest') = .ok (v, rest')

/-- The two laws of reading, of written values and of any bytes, fix the domain. -/
theorem ReadsBack.faithfulOn {codec : Codec ε α} {back : α → Option α} {domain : α → Prop}
    (h : codec.ReadsBack back) (hd : codec.Yields domain)
    (hback : ∀ v, domain v → back v = some v) : codec.FaithfulOn domain where
  comesBack v bytes hv rest :=
    ⟨fun hread => (hd _ v rest hread).1, fun hdomain => h.some_eq hv (hback v hdomain) rest⟩
  staysInside bytes v rest hread := by
    obtain ⟨hdomain, written, hwritten⟩ := hd bytes v rest hread
    exact ⟨hdomain, written, hwritten, h.some_eq hwritten (hback v hdomain)⟩

/-! ### Lists that can be written -/

/-- Values that can be written can be written in a row. -/
theorem exists_mapM {codec : Codec ε α} {vs : List α} (h : ∀ v ∈ vs, codec.Encodes v) :
    ∃ parts, vs.mapM codec.encode = .ok parts := by
  induction vs with
  | nil => exact ⟨[], rfl⟩
  | cons v vs ih =>
    obtain ⟨part, hpart⟩ := h v List.mem_cons_self
    obtain ⟨parts, hparts⟩ := ih fun w hw => h w (List.mem_cons_of_mem _ hw)
    refine ⟨part :: parts, ?_⟩
    simp only [List.mapM_cons, hpart, hparts, bind, Except.bind, pure, Except.pure]

/-- A list of values that can be written can be written, if its length can. -/
theorem encodes_list_iff {length : Codec ε Nat} {codec : Codec ε α} {vs : List α}
    (h : ∀ v ∈ vs, codec.Encodes v) :
    (Codec.list length codec).Encodes vs ↔ length.Encodes vs.length := by
  obtain ⟨parts, hparts⟩ := exists_mapM h
  constructor
  · rintro ⟨bytes, hbytes⟩
    obtain ⟨count, hcount, -⟩ := ok_of_bind hbytes
    exact ⟨count, hcount⟩
  · rintro ⟨count, hcount⟩
    refine ⟨count ++ parts.flatten, ?_⟩
    simp only [Codec.list, hcount, hparts, bind, Except.bind, pure, Except.pure]

namespace Yields

variable {codec : Codec ε α} {domain : α → Prop}

/-- Where every value can be written, nothing is to be shown. -/
theorem of_total (h : ∀ v, codec.Encodes v) :
    codec.Yields fun _ => True := fun _ v _ _ => ⟨trivial, h v⟩

/-! ### Records -/

/-- A pair yields what its parts yield. -/
theorem pair {first : Codec ε α} {second : Codec ε β} {domain : α → Prop} {domain' : β → Prop}
    (h : first.Yields domain) (h' : second.Yields domain') :
    (first.pair second).Yields fun v => domain v.1 ∧ domain' v.2 := by
  rintro bytes ⟨a, b⟩ rest hread
  obtain ⟨⟨a', rest'⟩, ha, hread⟩ := ok_of_bind hread
  obtain ⟨⟨b', rest''⟩, hb, hread⟩ := ok_of_bind hread
  obtain ⟨⟨rfl, rfl⟩, rfl⟩ : (a' = a ∧ b' = b) ∧ rest'' = rest := by
    simpa [pure, Except.pure] using hread
  obtain ⟨hda, front, hfront⟩ := h _ _ _ ha
  obtain ⟨hdb, tail, htail⟩ := h' _ _ _ hb
  refine ⟨⟨hda, hdb⟩, front ++ tail, ?_⟩
  simp only [Codec.pair, hfront, htail, bind, Except.bind, pure, Except.pure]

/-- Another form of the same values, where taking a value apart gives back what it was built
from. -/
theorem iso (h : codec.Yields domain) {build : α → β} {fields : β → α} {domain' : β → Prop}
    (hf : ∀ a, fields (build a) = a) (hd : ∀ a, domain a → domain' (build a)) :
    (codec.iso build fields).Yields domain' := by
  intro bytes v rest hread
  obtain ⟨⟨a, rest'⟩, ha, hread⟩ := ok_of_bind hread
  obtain ⟨rfl, rfl⟩ : build a = v ∧ rest' = rest := by simpa [pure, Except.pure] using hread
  obtain ⟨hda, written, hwritten⟩ := h _ _ _ ha
  exact ⟨hd a hda, written, by simp only [Codec.iso, hf, hwritten]⟩

/-! ### Lists -/

/-- **Reading many yields as many of the domain**, all of which can be written again. -/
theorem decodeMany (h : codec.Yields domain) {n : Nat} {done vs : List α} {bytes rest : Bytes}
    (hread : codec.decodeMany n done bytes = .ok (vs, rest)) :
    ∃ ws, vs = done.reverse ++ ws ∧ ws.length = n ∧ (∀ w ∈ ws, domain w) ∧
      ∃ parts, ws.mapM codec.encode = .ok parts := by
  induction n generalizing done bytes with
  | zero =>
    obtain ⟨rfl, rfl⟩ : done.reverse = vs ∧ bytes = rest := by
      simpa [Codec.decodeMany] using hread
    exact ⟨[], by simp, rfl, by simp, [], rfl⟩
  | succ n ih =>
    rw [Codec.decodeMany] at hread
    split at hread
    · next a rest' ha =>
      obtain ⟨hda, written, hwritten⟩ := h _ _ _ ha
      obtain ⟨ws, rfl, hlength, hws, parts, hparts⟩ := ih hread
      refine ⟨a :: ws, by simp, by simp [hlength], List.forall_mem_cons.2 ⟨hda, hws⟩,
        written :: parts, ?_⟩
      simp only [List.mapM_cons, hwritten, hparts, bind, Except.bind, pure, Except.pure]
    · exact absurd hread (by simp)

/-- A list yields members of the domain. -/
theorem list {length : Codec ε Nat} {counts : Nat → Prop} (hl : length.Yields counts)
    (h : codec.Yields domain) :
    (Codec.list length codec).Yields fun vs => ∀ v ∈ vs, domain v := by
  intro bytes vs rest hread
  obtain ⟨⟨count, rest'⟩, hcount, hread⟩ := ok_of_bind hread
  obtain ⟨ws, hws, rfl, hdomain, parts, hparts⟩ := h.decodeMany hread
  obtain rfl : vs = ws := by simpa using hws
  obtain ⟨-, front, hfront⟩ := hl _ _ _ hcount
  refine ⟨hdomain, front ++ parts.flatten, ?_⟩
  simp only [Codec.list, hfront, hparts, bind, Except.bind, pure, Except.pure]

/-! ### Variants -/

/-- A value of the first of some disjoint variants that it belongs to is written as that variant
writes it. -/
theorem exists_encodeFrom {tagCodec : Codec Fault Int32} {variants : List (Variant α)}
    (ht : ∀ tag, tagCodec.Encodes tag)
    (hapart : variants.Pairwise fun a b => ∀ payload, a.project (b.inject payload) = none)
    {variant : Variant α} (hmem : variant ∈ variants) {payload : variant.Payload}
    (hproj : variant.project (variant.inject payload) = some payload) {tail : Bytes}
    (htail : variant.codec.encode payload = .ok tail) (tag : Int32) :
    ∃ written, Variant.encodeFrom tagCodec (variant.inject payload) tag variants =
      .ok written := by
  induction variants generalizing tag with
  | nil => exact absurd hmem List.not_mem_nil
  | cons first others ih =>
    obtain ⟨hfirst, hothers⟩ := List.pairwise_cons.1 hapart
    obtain rfl | hmem := List.mem_cons.1 hmem
    · obtain ⟨front, hfront⟩ := ht tag
      refine ⟨front ++ tail, ?_⟩
      simp only [Variant.encodeFrom, hproj, hfront, htail, bind, Except.bind, pure, Except.pure]
    · rw [Variant.encodeFrom, hfirst variant hmem payload]
      exact ih hothers hmem (tag + 1)

/-- **What is read as one of several disjoint variants can be written as that variant.** -/
theorem oneOf {tagCodec : Codec Fault Int32} {variants : List (Variant α)} {domain : α → Prop}
    (ht : ∀ tag, tagCodec.Encodes tag)
    (hapart : variants.Pairwise fun a b => ∀ payload, a.project (b.inject payload) = none)
    (h : ∀ variant ∈ variants, ∃ carried, variant.codec.Yields carried ∧ ∀ payload,
      variant.project (variant.inject payload) = some payload ∧
        (carried payload → domain (variant.inject payload))) :
    (Codec.oneOf tagCodec variants).Yields domain := by
  intro bytes v rest hread
  obtain ⟨⟨tag, rest'⟩, -, hread⟩ := ok_of_bind hread
  simp only at hread
  cases hvariant : if tag < 0 then none else variants[tag.toInt.toNat]? with
  | none =>
    rw [hvariant] at hread
    exact absurd hread (by simp)
  | some variant =>
    rw [hvariant] at hread
    have hmem : variant ∈ variants := by
      split at hvariant
      · exact absurd hvariant (by simp)
      · exact List.mem_of_getElem? hvariant
    obtain ⟨⟨payload, rest''⟩, hpayload, hread⟩ := ok_of_bind hread
    obtain ⟨rfl, rfl⟩ : variant.inject payload = v ∧ rest'' = rest := by
      simpa [pure, Except.pure] using hread
    obtain ⟨carried, hyields, hvariant⟩ := h variant hmem
    obtain ⟨hproj, hdomain⟩ := hvariant payload
    obtain ⟨hcarried, tail, htail⟩ := hyields _ _ _ hpayload
    exact ⟨hdomain hcarried, exists_encodeFrom ht hapart hmem hproj htail 0⟩

end Yields

end Codec

/-! ### Numbers -/

theorem fixedWidth_encodes {width n : Nat} (h : n < 256 ^ width) : (fixedWidth width).Encodes n :=
  ⟨Bytes.ofNat width n, if_pos h⟩

/-- What is read of a width is below the bound of the width. -/
theorem fixedWidth_yields (width : Nat) : (fixedWidth width).Yields fun n => n < 256 ^ width := by
  intro bytes n rest hread
  simp only [fixedWidth] at hread
  split at hread
  · next front rest' hsplit =>
    obtain ⟨rfl, rfl⟩ : Bytes.toNat front = n ∧ rest' = rest := by simpa using hread
    have hlt : Bytes.toNat front < 256 ^ width := by
      rw [← (Bytes.split?_eq_some_iff.1 hsplit).2]
      exact Bytes.toNat_lt front
    exact ⟨hlt, fixedWidth_encodes hlt⟩
  · exact absurd hread (by simp)

theorem u8_yields : u8.Yields fun _ => True :=
  .of_total fun v => fixedWidth_encodes v.toNat_lt

theorem i32_yields : i32.Yields fun _ => True :=
  .of_total fun v => fixedWidth_encodes v.toUInt32.toNat_lt

theorem i64_yields : i64.Yields fun _ => True :=
  .of_total fun v => fixedWidth_encodes v.toUInt64.toNat_lt

theorem u32_yields : u32.Yields fun _ => True :=
  .of_total fun v => fixedWidth_encodes v.toNat_lt

theorem u64_yields : u64.Yields fun _ => True :=
  .of_total fun v => fixedWidth_encodes v.toNat_lt

theorem bool_yields : bool.Yields fun _ => True :=
  .of_total fun v => fixedWidth_encodes (UInt8.toNat_lt (if v then 1 else 0))

theorem varint_encodes (v : Int32) : varint.Encodes v := ⟨_, rfl⟩

theorem varint_yields : varint.Yields fun _ => True := .of_total varint_encodes

/-- The lengths that can be written. -/
theorem length_encodes_iff {n : Nat} : length.Encodes n ↔ n < 0x80000000 := by
  constructor
  · rintro ⟨written, h⟩
    simp only [length] at h
    split at h
    · next hn => exact hn
    · exact absurd h (by simp)
  · exact fun hn => ⟨_, if_pos hn⟩

/-- A length that was read is one that can be written. -/
theorem length_yields : length.Yields fun n => n < 0x80000000 := by
  intro bytes n rest hread
  obtain ⟨⟨v, rest'⟩, -, hread⟩ := Codec.ok_of_bind hread
  simp only at hread
  split at hread
  · exact absurd hread (by simp)
  · obtain ⟨rfl, rfl⟩ : v.toInt.toNat = n ∧ rest' = rest := by
      simpa [pure, Except.pure] using hread
    have hlt : v.toInt.toNat < 0x80000000 := by
      have := v.toInt_lt
      omega
    exact ⟨hlt, length_encodes_iff.2 hlt⟩

theorem listOf_yields {α : Type} {codec : Codec Fault α} {domain : α → Prop}
    (h : codec.Yields domain) : (listOf codec).Yields fun vs => ∀ v ∈ vs, domain v :=
  length_yields.list h

/-! ### Texts and runs -/

/-- A text that was read is as long as it announced, which is within the limit. -/
theorem text_yields : text.Yields Fits := by
  intro bytes s rest hread
  obtain ⟨⟨count, rest'⟩, hcount, hread⟩ := Codec.ok_of_bind hread
  simp only at hread
  split at hread
  · exact absurd hread (by simp)
  next hlimit =>
  split at hread
  · exact absurd hread (by simp)
  next front rest'' hsplit =>
  split at hread
  · next cs hcs =>
    obtain ⟨rfl, rfl⟩ : String.ofList cs = s ∧ rest'' = rest := by
      simpa [pure, Except.pure] using hread
    have hfront : Utf8.encode (String.ofList cs).toList = front := by
      rw [String.toList_ofList, Utf8.encode_of_decode hcs]
    have hlength : front.length ≤ textLimit :=
      (Bytes.split?_eq_some_iff.1 hsplit).2 ▸ Nat.le_of_not_lt hlimit
    obtain ⟨lead, hlead⟩ :=
      length_encodes_iff.2 (Nat.lt_of_le_of_lt hlength (by simp [textLimit]))
    refine ⟨by rwa [Fits, hfront], lead ++ front, ?_⟩
    simp only [text, hfront, hlead, bind, Except.bind, pure, Except.pure]
  · exact absurd hread (by simp)

theorem byteRun_yields : byteRun.Yields fun _ => True := by
  intro bytes run rest hread
  obtain ⟨⟨count, rest'⟩, hcount, hread⟩ := Codec.ok_of_bind hread
  obtain ⟨-, front, hfront⟩ := length_yields _ _ _ hcount
  simp only [takeRun] at hread
  split at hread
  · next found hsplit =>
    obtain rfl : found = (run, rest) := by simpa using hread
    have hrun : run.length = count := (Bytes.split?_eq_some_iff.1 hsplit).2
    refine ⟨trivial, front ++ run, ?_⟩
    simp only [byteRun, hrun, hfront, bind, Except.bind, pure, Except.pure]
  · exact absurd hread (by simp)

end Playhead.Wire
