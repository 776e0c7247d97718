import Playhead.Proofs.Wire.Text
import Playhead.Wire.Frame

/-!
# Frames are read back

However it is compressed, a frame gives its payload and leaves what follows
(`Playhead.Wire.Frame.decode_encode`). So a value in a frame comes back as it would without one.
-/

namespace Playhead.Wire

namespace Frame

/-- **A frame is read back**, whatever follows. -/
theorem decode_encode {compression : Option Compression} {payload bytes : Bytes}
    (h : encode compression payload = .ok bytes) (rest : Bytes) :
    decode (bytes ++ rest) = .ok (payload, rest) := by
  simp only [encode] at h
  split at h
  · next c _ =>
    obtain ⟨lead, hlead, h⟩ := Codec.ok_of_bind h
    obtain ⟨size, hsize, h⟩ := Codec.ok_of_bind h
    obtain rfl : lead ++ size ++ c.deflate payload = bytes := by
      simpa [pure, Except.pure] using h
    have hodd : ((c.deflate payload).length * 2 + 1) % 2 = 1 := by omega
    have hhalf : ((c.deflate payload).length * 2 + 1) / 2 = (c.deflate payload).length := by
      omega
    simp only [decode, decodeHeader, List.append_assoc, length_exact.some_eq hlead rfl, bind,
      Except.bind, if_pos hodd, length_exact.some_eq hsize rfl, pure, Except.pure, hhalf, takeRun,
      Bytes.split?_append, unpack, c.inflate_deflate, if_true]
  · obtain ⟨lead, hlead, h⟩ := Codec.ok_of_bind h
    obtain rfl : lead ++ payload = bytes := by simpa [pure, Except.pure] using h
    have heven : ¬ payload.length * 2 % 2 = 1 := by omega
    have hhalf : payload.length * 2 / 2 = payload.length := by omega
    simp only [decode, decodeHeader, List.append_assoc, length_exact.some_eq hlead rfl, bind,
      Except.bind, if_neg heven, pure, Except.pure, hhalf, takeRun, Bytes.split?_append, unpack]

/-- Frames as the codec of their payloads. The compression matters to the writer alone. -/
def codec (compression : Option Compression) : Codec Fault Bytes where
  encode := encode compression
  decode := decode

theorem codec_exact (compression : Option Compression) : (codec compression).Exact :=
  fun _ _ => decode_encode

end Frame

/-- **A value comes back from its frame as it would without one.** -/
theorem framed_readsBack {α : Type} {codec : Codec Fault α} {back : α → Option α}
    (h : codec.ReadsBack back) (compression : Option Compression) :
    (framed compression codec).ReadsBack back := by
  intro v bytes hv rest
  obtain ⟨payload, hpayload, hv⟩ := Codec.ok_of_bind hv
  have hvalue := h v payload hpayload []
  rw [List.append_nil] at hvalue
  simp only [framed, Frame.decode_encode hv, bind, Except.bind]
  cases hw : back v with
  | some w =>
    rw [hw] at hvalue
    simp only [hvalue, List.isEmpty_nil, if_true]
    rfl
  | none =>
    rw [hw] at hvalue
    obtain ⟨e, he⟩ := hvalue
    exact ⟨e, by rw [he]⟩

end Playhead.Wire
