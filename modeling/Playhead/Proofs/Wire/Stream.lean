import Playhead.Proofs.Wire.Faithful
import Playhead.Proofs.Wire.Frame
import Playhead.Proofs.Wire.Spelling
import Playhead.Proofs.Zlib.Width

/-!
# Frames in a row

A frame says how long it is, so frames need nothing between them. Main statement:
`Playhead.Wire.frames_delimit_themselves`. Frames in a row are read one by one, however they are
compressed and whatever follows them; the low bit of the number that a frame starts with says
whether it was compressed, which is decided by the length of the payload alone; and a reader of
values in frames takes exactly the frames whose payload is one value and nothing else.

What can keep a frame from being written is a length that has no place in its own number
(`Playhead.Wire.Frame.encodes_iff`); the bit for compression costs a length one binary digit.
-/

namespace Playhead.Wire

/-- Texts in a row are read one by one, if each of them is read with anything behind it. -/
theorem Codec.decodeMany_flatten {ε α : Type} {codec : Codec ε α} {texts : List Bytes}
    {vs : List α}
    (h : List.Forall₂ (fun text v => ∀ rest, codec.decode (text ++ rest) = .ok (v, rest)) texts vs)
    (done : List α) (rest : Bytes) :
    codec.decodeMany vs.length done (texts.flatten ++ rest) = .ok (done.reverse ++ vs, rest) := by
  induction h generalizing done with
  | nil => simp [Codec.decodeMany]
  | @cons text v texts vs htext _ ih =>
    rw [List.flatten_cons, List.append_assoc, List.length_cons, Codec.decodeMany, htext]
    simp only [ih, List.reverse_cons, List.append_assoc, List.singleton_append]

namespace Frame

/-! ### What a frame starts with -/

/-- A payload is compressed just when it is long enough. -/
theorem isSome_compressionOf_iff {compression : Option Compression} {payload : Bytes} :
    (compressionOf compression payload).isSome ↔
      ∃ c, compression = some c ∧ c.limit ≤ payload.length := by
  cases compression <;> simp [compressionOf]

/-- **A frame starts with a number whose low bit tells that it is compressed.** -/
theorem lead_of_encode {compression : Option Compression} {payload frame : Bytes}
    (h : encode compression payload = .ok frame) :
    ∃ n lead body, length.encode n = .ok lead ∧ frame = lead ++ body ∧
      (n % 2 = 1 ↔ (compressionOf compression payload).isSome) := by
  simp only [encode] at h
  split at h
  · next c hc =>
    obtain ⟨lead, hlead, h⟩ := Codec.ok_of_bind h
    obtain ⟨size, -, h⟩ := Codec.ok_of_bind h
    obtain rfl : lead ++ size ++ c.deflate payload = frame := by
      simpa [pure, Except.pure] using h
    refine ⟨_, lead, size ++ c.deflate payload, hlead, List.append_assoc .., ?_⟩
    exact iff_of_true (by omega) (by rw [hc]; rfl)
  · next hc =>
    obtain ⟨lead, hlead, h⟩ := Codec.ok_of_bind h
    obtain rfl : lead ++ payload = frame := by simpa [pure, Except.pure] using h
    exact ⟨_, lead, payload, hlead, rfl, iff_of_false (by omega) (by simp [hc])⟩

/-- No frame is empty. -/
theorem length_pos_of_encode {compression : Option Compression} {payload frame : Bytes}
    (h : encode compression payload = .ok frame) : 0 < frame.length := by
  obtain ⟨n, lead, body, hlead, rfl, -⟩ := lead_of_encode h
  rw [List.length_append]
  exact Nat.add_pos_left (length_pos_of_encode_length hlead) _

/-! ### Which payloads have a frame -/

/-- The lengths of a frame have a place in their numbers. -/
def Admits (compression : Option Compression) (payload : Bytes) : Prop :=
  match compressionOf compression payload with
  | some c => (c.deflate payload).length < 0x40000000 ∧ payload.length < 0x80000000
  | none => payload.length < 0x40000000

/-- **A payload has a frame unless a length is too great.** -/
theorem encodes_iff {compression : Option Compression} {payload : Bytes} :
    (∃ frame, encode compression payload = .ok frame) ↔ Admits compression payload := by
  simp only [encode, Admits]
  cases compressionOf compression payload with
  | some c =>
    constructor
    · rintro ⟨frame, h⟩
      obtain ⟨lead, hlead, h⟩ := Codec.ok_of_bind h
      obtain ⟨size, hsize, -⟩ := Codec.ok_of_bind h
      have hstored := length_encodes_iff.1 ⟨lead, hlead⟩
      exact ⟨by omega, length_encodes_iff.1 ⟨size, hsize⟩⟩
    · rintro ⟨hstored, hlength⟩
      obtain ⟨lead, hlead⟩ := length_encodes_iff.2
        (show (c.deflate payload).length * 2 + 1 < 0x80000000 by omega)
      obtain ⟨size, hsize⟩ := length_encodes_iff.2 hlength
      exact ⟨lead ++ size ++ c.deflate payload, by
        simp only [hlead, hsize, bind, Except.bind, pure, Except.pure]⟩
  | none =>
    constructor
    · rintro ⟨frame, h⟩
      obtain ⟨lead, hlead, -⟩ := Codec.ok_of_bind h
      have hlength := length_encodes_iff.1 ⟨lead, hlead⟩
      omega
    · intro hlength
      obtain ⟨lead, hlead⟩ := length_encodes_iff.2
        (show payload.length * 2 < 0x80000000 by omega)
      exact ⟨lead ++ payload, by simp only [hlead, bind, Except.bind, pure, Except.pure]⟩

/-! ### Frames in a row -/

/-- Reading all frames reads the first one, and then all others. -/
theorem decodeAll_append {compression : Option Compression} {payload frame : Bytes}
    (h : encode compression payload = .ok frame) (rest : Bytes) :
    decodeAll (frame ++ rest) = (payload :: (decodeAll rest).1, (decodeAll rest).2) := by
  have hpos := length_pos_of_encode h
  have hne : frame ++ rest ≠ [] := by
    rw [← List.length_pos_iff, List.length_append]
    exact Nat.add_pos_left hpos _
  have hshort : rest.length < (frame ++ rest).length := by
    rw [List.length_append]
    omega
  rw [decodeAll, if_neg hne, decode_encode h]
  simp only [if_pos hshort]

/-- **Frames in a row are read in their order**, however each of them was compressed. -/
theorem decode_row {parts : List (Bytes × Option Compression)} {frames : List Bytes}
    (h : List.Forall₂ (fun frame part => encode part.2 part.1 = .ok frame) frames parts)
    (compression : Option Compression) (rest : Bytes) :
    (codec compression).decodeMany parts.length [] (frames.flatten ++ rest) =
        .ok (parts.map Prod.fst, rest) ∧
      decodeAll (frames.flatten ++ rest) =
        (parts.map Prod.fst ++ (decodeAll rest).1, (decodeAll rest).2) := by
  constructor
  · have hread : List.Forall₂ (fun frame payload =>
        ∀ rest, (codec compression).decode (frame ++ rest) = .ok (payload, rest))
        frames (parts.map Prod.fst) :=
      List.forall₂_map_right_iff.2 (h.imp fun _ _ => decode_encode)
    rw [← List.length_map Prod.fst]
    exact Codec.decodeMany_flatten hread [] rest
  · induction h with
    | nil => rfl
    | cons hframe _ ih =>
      rw [List.flatten_cons, List.append_assoc, decodeAll_append hframe, ih]
      rfl

end Frame

/-! ### Values in frames -/

section Values

variable {α : Type} {codec : Codec Fault α}

/-- A value can be written in a frame if it can be written and the frame admits it. -/
theorem framed_encodes_iff {compression : Option Compression} {v : α} :
    (framed compression codec).Encodes v ↔
      ∃ payload, codec.encode v = .ok payload ∧ Frame.Admits compression payload := by
  constructor
  · rintro ⟨frame, h⟩
    obtain ⟨payload, hpayload, h⟩ := Codec.ok_of_bind h
    exact ⟨payload, hpayload, Frame.encodes_iff.1 ⟨frame, h⟩⟩
  · rintro ⟨payload, hpayload, hfits⟩
    obtain ⟨frame, hframe⟩ := Frame.encodes_iff.2 hfits
    exact ⟨frame, by simp only [framed, hpayload, bind, Except.bind, hframe]⟩

/-- What is made of a frame: its payload has to be one value, and nothing else. -/
theorem decode_framed {bytes payload rest : Bytes} (h : Frame.decode bytes = .ok (payload, rest))
    (compression : Option Compression) :
    (framed compression codec).decode bytes =
      match codec.decode payload with
      | .error fault => .error fault
      | .ok (v, []) => .ok (v, rest)
      | .ok (_, left) =>
        .error (.lengthMismatch (payload.length - left.length) payload.length) := by
  simp only [framed, h, bind, Except.bind]
  rcases codec.decode payload with fault | ⟨v, _ | ⟨b, left⟩⟩ <;> rfl

/-- **A value is read from a frame just when it is all of the payload.** -/
theorem decode_framed_iff {bytes rest : Bytes} {v : α} (compression : Option Compression) :
    (framed compression codec).decode bytes = .ok (v, rest) ↔
      ∃ payload, Frame.decode bytes = .ok (payload, rest) ∧ codec.decode payload = .ok (v, []) := by
  constructor
  · intro hread
    obtain ⟨⟨payload, rest'⟩, hframe, -⟩ := Codec.ok_of_bind hread
    rw [decode_framed hframe] at hread
    split at hread
    · exact absurd hread (by simp)
    · next w hw =>
      obtain ⟨rfl, rfl⟩ := Prod.mk.inj (Except.ok.inj hread)
      exact ⟨payload, hframe, hw⟩
    · exact absurd hread (by simp)
  · rintro ⟨payload, hframe, hv⟩
    rw [decode_framed hframe, hv]

end Values

/-- **Frames delimit themselves.** Frames in a row, compressed in whatever ways, give their payloads
in order and leave what follows them, and a reader of all frames goes on there. The low bit of the
number that a frame starts with is set just when there is a compression and the payload is not
shorter than its limit. A value that comes back from its own bytes comes back from its frame; it has
one unless a length is too great. And what is read from a frame, wherever it comes from, is a value
just when the payload is that value and nothing else; what is left over of the payload is named in
the refusal. -/
theorem frames_delimit_themselves :
    (∀ (parts : List (Bytes × Option Compression)) (frames : List Bytes),
      parts.mapM (fun part => Frame.encode part.2 part.1) = .ok frames → ∀ rest,
        (∀ compression,
          (Frame.codec compression).decodeMany parts.length [] (frames.flatten ++ rest) =
            .ok (parts.map Prod.fst, rest)) ∧
        Frame.decodeAll (frames.flatten ++ rest) =
          (parts.map Prod.fst ++ (Frame.decodeAll rest).1, (Frame.decodeAll rest).2)) ∧
    (∀ (compression : Option Compression) (payload frame : Bytes),
      Frame.encode compression payload = .ok frame → ∀ rest, ∃ lead body,
        length.decode (frame ++ rest) = .ok (lead, body) ∧
          (lead % 2 = 1 ↔ ∃ c, compression = some c ∧ c.limit ≤ payload.length)) ∧
    (∀ {α : Type} (codec : Codec Fault α) (compression : Option Compression) (v : α),
      ((framed compression codec).Encodes v ↔
        ∃ payload, codec.encode v = .ok payload ∧ Frame.Admits compression payload) ∧
      ((∀ payload, codec.encode v = .ok payload → codec.decode payload = .ok (v, [])) →
        ∀ frame, (framed compression codec).encode v = .ok frame → ∀ compression' rest,
          (framed compression' codec).decode (frame ++ rest) = .ok (v, rest))) ∧
    (∀ {α : Type} (codec : Codec Fault α) (compression : Option Compression)
        (bytes payload rest : Bytes),
      Frame.decode bytes = .ok (payload, rest) →
      (∀ v rest', (framed compression codec).decode bytes = .ok (v, rest') ↔
        rest' = rest ∧ codec.decode payload = .ok (v, [])) ∧
      (∀ v left, codec.decode payload = .ok (v, left) → left ≠ [] →
        (framed compression codec).decode bytes =
          .error (.lengthMismatch (payload.length - left.length) payload.length))) := by
  refine ⟨?rows, ?leads, ?values, ?payloads⟩
  case rows =>
    intro parts frames h rest
    have hrow := Codec.mapM_eq_ok_iff.1 h
    exact ⟨fun compression => (Frame.decode_row hrow compression rest).1,
      (Frame.decode_row hrow none rest).2⟩
  case leads =>
    intro compression payload frame h rest
    obtain ⟨n, lead, body, hlead, rfl, hlow⟩ := Frame.lead_of_encode h
    refine ⟨n, body ++ rest, ?_, hlow.trans Frame.isSome_compressionOf_iff⟩
    rw [List.append_assoc]
    exact length_exact.some_eq hlead rfl _
  case values =>
    intro α codec compression v
    refine ⟨framed_encodes_iff, fun hback frame h compression' rest => ?_⟩
    obtain ⟨payload, hpayload, hframe⟩ := Codec.ok_of_bind h
    exact (decode_framed_iff compression').2
      ⟨payload, Frame.decode_encode hframe rest, hback payload hpayload⟩
  case payloads =>
    intro α codec compression bytes payload rest h
    refine ⟨fun v rest' => ?_, fun v left hleft hne => ?_⟩
    · rw [decode_framed_iff, h]
      constructor
      · rintro ⟨payload', hsame, hv⟩
        obtain ⟨rfl, rfl⟩ := Prod.mk.inj (Except.ok.inj hsame)
        exact ⟨rfl, hv⟩
      · rintro ⟨rfl, hv⟩
        exact ⟨payload, rfl, hv⟩
    · -- the codec has left something of the payload
      obtain ⟨b, left, rfl⟩ := List.exists_cons_of_ne_nil hne
      rw [decode_framed h, hleft]

/-- Every payload is compressed. -/
def everyPayload : Option Compression := some (Zlib.compression 0)

/-- Three frames in a row, of which the one in the middle is compressed, with a byte behind them; a
value in a frame; and a frame with more in it than a value. -/
theorem frames_delimit_themselves_mixed :
    (∃ frames, List.mapM (fun part : Bytes × Option Compression => Frame.encode part.2 part.1)
        [([5, 6], none), ([], everyPayload), ([7, 8, 9], some (Zlib.compression 256))] =
          .ok frames ∧
      (Frame.codec none).decodeMany 3 [] (frames.flatten ++ [1]) =
        .ok ([[5, 6], [], [7, 8, 9]], [1])) ∧
    (∃ frame, Frame.encode everyPayload [] = .ok frame ∧
      ∃ lead body, length.decode (frame ++ [1]) = .ok (lead, body) ∧ lead % 2 = 1) ∧
    (∃ frame, (framed (some (Zlib.compression 256)) bool).encode true = .ok frame ∧
      (framed none bool).decode (frame ++ [1]) = .ok (true, [1])) ∧
    (framed none bool).decode [4, 1, 0] = .error (.lengthMismatch 1 2) := by
  obtain ⟨hrows, hleads, hvalues, hpayloads⟩ := frames_delimit_themselves
  have hadmits : Frame.Admits everyPayload [] := by
    have htaken : Frame.compressionOf everyPayload [] = some (Zlib.compression 0) := rfl
    simp only [Frame.Admits, htaken, Zlib.deflate_compression]
    exact ⟨Nat.lt_of_le_of_lt Zlib.length_deflate_nil_le (by decide), by decide⟩
  obtain ⟨packed, hpacked⟩ := Frame.encodes_iff.2 hadmits
  have hfirst : Frame.encode none [5, 6] = .ok [4, 5, 6] := by decide +kernel
  have hlast : Frame.encode (some (Zlib.compression 256)) [7, 8, 9] = .ok [6, 7, 8, 9] := by
    decide +kernel
  have hvalue : (framed (some (Zlib.compression 256)) bool).encode true = .ok [2, 1] := by
    decide +kernel
  refine ⟨?row, ?lead, ?value, ?surplus⟩
  case row =>
    have hframes : List.mapM (fun part : Bytes × Option Compression => Frame.encode part.2 part.1)
        [([5, 6], none), ([], everyPayload), ([7, 8, 9], some (Zlib.compression 256))] =
          .ok [[4, 5, 6], packed, [6, 7, 8, 9]] :=
      Codec.mapM_eq_ok_iff.2 (.cons hfirst (.cons hpacked (.cons hlast .nil)))
    exact ⟨_, hframes, (hrows _ _ hframes [1]).1 none⟩
  case lead =>
    obtain ⟨lead, body, hlead, hlow⟩ := hleads everyPayload [] packed hpacked [1]
    exact ⟨packed, hpacked, lead, body, hlead, hlow.2 ⟨Zlib.compression 0, rfl, by decide⟩⟩
  case value =>
    have hback (payload : Bytes) (hpayload : bool.encode true = .ok payload) :
        bool.decode payload = .ok (true, []) := by
      simpa using bool_exact.some_eq hpayload rfl []
    exact ⟨_, hvalue, (hvalues bool _ true).2 hback _ hvalue none [1]⟩
  case surplus =>
    exact (hpayloads bool none [4, 1, 0] [1, 0] [] (by decide +kernel)).2 true [0]
      (by decide +kernel) (by decide)

end Playhead.Wire
