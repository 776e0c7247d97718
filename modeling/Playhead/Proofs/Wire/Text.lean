import Mathlib.Tactic.SplitIfs
import Playhead.Proofs.Wire.Number
import Playhead.Wire.Text

/-!
# Texts and runs of bytes are read back

The UTF-8 form of a text is read back character by character
(`Playhead.Wire.Utf8.decodeScalar_encode`), and since the reader is strict, a text is read from no
other bytes than its own (`Playhead.Wire.Utf8.encode_of_decode`). A text can be written at any
length but is read only up to `Playhead.Wire.textLimit` bytes, so its codec is not exact:
`Playhead.Wire.textBack` says which texts come back.
-/

namespace Playhead.Wire

namespace Utf8

/-! ### Characters -/

/-- What a leading byte announces, by the number it spells. -/
theorem lead?_eq (a : UInt8) : lead? a =
    if a.toNat < 128 then some (0, a.toNat, 0x80, 0xBF)
    else if a.toNat < 194 then none
    else if a.toNat < 224 then some (1, a.toNat % 32, 0x80, 0xBF)
    else if a.toNat = 224 then some (2, 0, 0xA0, 0xBF)
    else if a.toNat = 237 then some (2, 13, 0x80, 0x9F)
    else if a.toNat < 240 then some (2, a.toNat % 16, 0x80, 0xBF)
    else if a.toNat = 240 then some (3, 0, 0x90, 0xBF)
    else if a.toNat < 244 then some (3, a.toNat % 8, 0x80, 0xBF)
    else if a.toNat = 244 then some (3, 4, 0x80, 0x8F)
    else none := by
  simp only [lead?, UInt8.lt_iff_toNat_lt, ← UInt8.toNat_inj]
  rfl

/-- A byte in the range that is expected next adds its six bits. -/
theorem decodeTail_cons {n seen value : Nat} {low high b : UInt8} {rest : Bytes}
    (hlow : low.toNat ≤ b.toNat) (hhigh : b.toNat ≤ high.toNat) :
    decodeTail (n + 1) seen value low high (b :: rest) =
      decodeTail n (seen + 1) (value * 64 + b.toNat % 64) 0x80 0xBF rest := by
  rw [decodeTail, if_pos ⟨UInt8.le_iff_toNat_le.2 hlow, UInt8.le_iff_toNat_le.2 hhigh⟩]

/-- The number of a continuation byte. -/
theorem toNat_continuation (n : Nat) : (UInt8.ofNat (n % 64 + 128)).toNat = n % 64 + 128 := by
  simp
  omega

/-- A continuation byte adds its six bits. -/
theorem decodeTail_continuation (n seen value next : Nat) (rest : Bytes) :
    decodeTail (n + 1) seen value 0x80 0xBF (UInt8.ofNat (next % 64 + 128) :: rest) =
      decodeTail n (seen + 1) (value * 64 + next % 64) 0x80 0xBF rest := by
  have hnext := toNat_continuation next
  rw [decodeTail_cons (by rw [hnext]; simp) (by rw [hnext]; simp; omega), hnext,
    show (next % 64 + 128) % 64 = next % 64 by omega]

/-- **A leading byte that announces two others** lets the first of them add any six bits that make
up neither a character with a shorter form nor a surrogate. -/
theorem exists_lead_two (value next : Nat) (hvalue : value < 16) (hnext : next < 64)
    (hshort : value = 0 → 32 ≤ next) (hsurrogate : value = 13 → next < 32) :
    ∃ low high : UInt8, lead? (UInt8.ofNat (value % 16 + 224)) = some (2, value, low, high) ∧
      low.toNat ≤ next + 128 ∧ next + 128 ≤ high.toNat := by
  have ha : (UInt8.ofNat (value % 16 + 224)).toNat = value + 224 := by simp; omega
  rw [lead?_eq, ha, if_neg (by omega), if_neg (by omega), if_neg (by omega)]
  by_cases hzero : value = 0
  · exact ⟨0xA0, 0xBF, by rw [hzero]; rfl, by simp; omega, by simp; omega⟩
  by_cases hthirteen : value = 13
  · exact ⟨0x80, 0x9F, by rw [hthirteen]; rfl, by simp, by simp; omega⟩
  refine ⟨0x80, 0xBF, ?_, by simp, by simp; omega⟩
  rw [if_neg (by omega), if_neg (by omega), if_pos (by omega),
    show (value + 224) % 16 = value by omega]

/-- **A leading byte that announces three others** lets the first of them add any six bits that make
up neither a character with a shorter form nor one that is too high. -/
theorem exists_lead_three (value next : Nat) (hvalue : value < 5) (hnext : next < 64)
    (hshort : value = 0 → 16 ≤ next) (hhigh : value = 4 → next < 16) :
    ∃ low high : UInt8, lead? (UInt8.ofNat (value % 8 + 240)) = some (3, value, low, high) ∧
      low.toNat ≤ next + 128 ∧ next + 128 ≤ high.toNat := by
  have ha : (UInt8.ofNat (value % 8 + 240)).toNat = value + 240 := by simp; omega
  rw [lead?_eq, ha, if_neg (by omega), if_neg (by omega), if_neg (by omega), if_neg (by omega),
    if_neg (by omega), if_neg (by omega)]
  by_cases hzero : value = 0
  · exact ⟨0x90, 0xBF, by rw [hzero]; rfl, by simp; omega, by simp; omega⟩
  by_cases hfour : value = 4
  · exact ⟨0x80, 0x8F, by rw [hfour]; rfl, by simp, by simp; omega⟩
  refine ⟨0x80, 0xBF, ?_, by simp, by simp; omega⟩
  rw [if_neg (by omega), if_pos (by omega), show (value + 240) % 8 = value by omega]

/-- **A character is read back from its bytes.** The ranges of the byte after the first are narrower
than those of the others for the lowest and highest characters of each length. -/
theorem decodeScalar_encode (c : Char) (rest : Bytes) :
    ∃ a tail, String.utf8EncodeChar c = a :: tail ∧
      decodeScalar a (tail ++ rest) = .ok (c.toNat, rest) := by
  have hvalid : c.toNat < 0xD800 ∨ (0xDFFF < c.toNat ∧ c.toNat < 0x110000) := c.valid
  simp only [String.utf8EncodeChar, show c.val.toNat = c.toNat from rfl]
  generalize c.toNat = v at hvalid ⊢
  split
  · next h =>
    -- one byte
    have ha : (UInt8.ofNat v).toNat = v := by simp; omega
    refine ⟨_, _, rfl, ?_⟩
    rw [decodeScalar, lead?_eq, ha, if_pos (by omega)]
    rfl
  split
  · next h h' =>
    -- two bytes
    have ha : (UInt8.ofNat (v / 64 % 32 + 192)).toNat = v / 64 + 192 := by simp; omega
    refine ⟨_, _, rfl, ?_⟩
    rw [decodeScalar, lead?_eq, ha, if_neg (by omega), if_neg (by omega), if_pos (by omega)]
    simp only [List.cons_append, List.nil_append, decodeTail_continuation, decodeTail,
      Except.ok.injEq, Prod.mk.injEq, and_true]
    omega
  split
  · next h h' h'' =>
    obtain ⟨low, high, hlead, hlow, hhigh⟩ := exists_lead_two (v / 4096) (v / 64 % 64)
      (by omega) (by omega) (by omega) (by omega)
    have hnext := toNat_continuation (v / 64)
    refine ⟨_, _, rfl, ?_⟩
    simp only [decodeScalar, hlead, List.cons_append, List.nil_append]
    rw [decodeTail_cons (by rwa [hnext]) (by rwa [hnext]), hnext, decodeTail_continuation,
      decodeTail]
    simp only [Except.ok.injEq, Prod.mk.injEq, and_true]
    omega
  · next h h' h'' =>
    obtain ⟨low, high, hlead, hlow, hhigh⟩ := exists_lead_three (v / 262144) (v / 4096 % 64)
      (by omega) (by omega) (by omega) (by omega)
    have hnext := toNat_continuation (v / 4096)
    refine ⟨_, _, rfl, ?_⟩
    simp only [decodeScalar, hlead, List.cons_append, List.nil_append]
    rw [decodeTail_cons (by rwa [hnext]) (by rwa [hnext]), hnext, decodeTail_continuation,
      decodeTail_continuation, decodeTail]
    simp only [Except.ok.injEq, Prod.mk.injEq, and_true]
    omega

/-- **Characters are read back**, after any that have been read. -/
theorem decodeFrom_encode (place : Nat) (done cs : List Char) :
    decodeFrom place done (encode cs) = .ok (done.reverse ++ cs) := by
  induction cs generalizing place done with
  | nil => simp [encode, decodeFrom]
  | cons c cs ih =>
    obtain ⟨a, tail, hc, hscalar⟩ := decodeScalar_encode c (encode cs)
    have hbytes : encode (c :: cs) = a :: (tail ++ encode cs) := by
      simp only [encode, List.flatMap_cons, hc, List.cons_append]
    rw [hbytes, decodeFrom]
    split
    · next value rest' h =>
      rw [hscalar] at h
      simp only [Except.ok.injEq, Prod.mk.injEq] at h
      obtain ⟨rfl, rfl⟩ := h
      rw [ih, Char.ofNat_toNat]
      simp
    · next cause h => rw [hscalar] at h; exact absurd h (by simp)

/-- **A text is read back from its bytes.** -/
theorem decode_encode (cs : List Char) : decode (encode cs) = .ok cs :=
  decodeFrom_encode 0 [] cs

/-! ### Bytes that were read -/

/-- The parts of a leading byte that announces `n` others: the bits it contributes, and how the
range of the next byte keeps out the forms that are too long, surrogates and values too high. -/
theorem lead?_ok {a : UInt8} {n value : Nat} {low high : UInt8}
    (h : lead? a = some (n, value, low, high)) :
    (n = 0 ∧ a.toNat = value ∧ value < 128) ∨
    (n = 1 ∧ a.toNat = value + 192 ∧ 2 ≤ value ∧ value < 32 ∧ 128 ≤ low.toNat ∧
      high.toNat < 192) ∨
    (n = 2 ∧ a.toNat = value + 224 ∧ value < 16 ∧ 128 ≤ low.toNat ∧ high.toNat < 192 ∧
      (value = 0 → 160 ≤ low.toNat) ∧ (value = 13 → high.toNat < 160)) ∨
    (n = 3 ∧ a.toNat = value + 240 ∧ value < 5 ∧ 128 ≤ low.toNat ∧ high.toNat < 192 ∧
      (value = 0 → 144 ≤ low.toNat) ∧ (value = 4 → high.toNat < 144)) := by
  rw [lead?_eq] at h
  split_ifs at h
  all_goals
    simp only [Option.some.injEq, Prod.mk.injEq] at h
    obtain ⟨rfl, rfl, rfl, rfl⟩ := h
    simp
    all_goals omega

/-- A tail that is read begins with a byte in bounds and goes on with a shorter one. -/
theorem decodeTail_succ_ok {n seen value v : Nat} {low high : UInt8} {rest rest' : Bytes}
    (h : decodeTail (n + 1) seen value low high rest = .ok (v, rest')) :
    ∃ b tail, rest = b :: tail ∧ low.toNat ≤ b.toNat ∧ b.toNat ≤ high.toNat ∧
      decodeTail n (seen + 1) (value * 64 + b.toNat % 64) 0x80 0xBF tail = .ok (v, rest') := by
  cases rest with
  | nil => exact absurd h (by simp [decodeTail])
  | cons b tail =>
    rw [decodeTail] at h
    split at h
    · next hb =>
      exact ⟨b, tail, rfl, UInt8.le_iff_toNat_le.1 hb.1, UInt8.le_iff_toNat_le.1 hb.2, h⟩
    · exact absurd h (by simp)

/-- A tail without bytes is read at once. -/
theorem decodeTail_zero_ok {seen value v : Nat} {low high : UInt8} {rest rest' : Bytes}
    (h : decodeTail 0 seen value low high rest = .ok (v, rest')) : v = value ∧ rest' = rest := by
  simp only [decodeTail, Except.ok.injEq, Prod.mk.injEq] at h
  exact ⟨h.1.symm, h.2.symm⟩

/-- The number of a character given by its number. -/
theorem toNat_ofNat {v : Nat} (h : v < 0xD800 ∨ 0xDFFF < v ∧ v < 0x110000) :
    (Char.ofNat v).toNat = v := by
  rw [Char.ofNat, dif_pos h]
  rfl

/-- The bytes of a character that is given by its number. -/
theorem utf8EncodeChar_ofNat {v : Nat} (h : v < 0xD800 ∨ 0xDFFF < v ∧ v < 0x110000) :
    String.utf8EncodeChar (Char.ofNat v) =
      if v ≤ 127 then [UInt8.ofNat v]
      else if v ≤ 2047 then [UInt8.ofNat (v / 64 % 32 + 192), UInt8.ofNat (v % 64 + 128)]
      else if v ≤ 65535 then
        [UInt8.ofNat (v / 4096 % 16 + 224), UInt8.ofNat (v / 64 % 64 + 128),
          UInt8.ofNat (v % 64 + 128)]
      else [UInt8.ofNat (v / 262144 % 8 + 240), UInt8.ofNat (v / 4096 % 64 + 128),
        UInt8.ofNat (v / 64 % 64 + 128), UInt8.ofNat (v % 64 + 128)] := by
  simp only [String.utf8EncodeChar, show (Char.ofNat v).val.toNat = v from toNat_ofNat h]

theorem ofNat_eq {n : Nat} {b : UInt8} (h : n = b.toNat) : UInt8.ofNat n = b := by
  rw [h, UInt8.ofNat_toNat]

/-- **A character is read only from its own bytes.** -/
theorem eq_of_decodeScalar {a : UInt8} {rest rest' : Bytes} {v : Nat}
    (h : decodeScalar a rest = .ok (v, rest')) :
    a :: rest = String.utf8EncodeChar (Char.ofNat v) ++ rest' := by
  rw [decodeScalar] at h
  split at h
  · exact absurd h (by simp)
  next n value low high hlead =>
  obtain ⟨rfl, ha, hv⟩ | ⟨rfl, ha, hv, hv', hlow, hhigh⟩ |
      ⟨rfl, ha, hv, hlow, hhigh, hfirst, hlast⟩ | ⟨rfl, ha, hv, hlow, hhigh, hfirst, hlast⟩ :=
    lead?_ok hlead
  · -- the bytes that follow the first are as many as it says
    obtain ⟨rfl, rfl⟩ := decodeTail_zero_ok h
    rw [utf8EncodeChar_ofNat (by omega), if_pos (by omega), ofNat_eq ha.symm]
    rfl
  · obtain ⟨b, tail, rfl, hb, hb', h⟩ := decodeTail_succ_ok h
    obtain ⟨rfl, rfl⟩ := decodeTail_zero_ok h
    rw [utf8EncodeChar_ofNat (by omega), if_neg (by omega), if_pos (by omega),
      ofNat_eq (b := a) (by omega), ofNat_eq (b := b) (by omega)]
    rfl
  · obtain ⟨b, tail, rfl, hb, hb', h⟩ := decodeTail_succ_ok h
    obtain ⟨c, tail, rfl, hc, hc', h⟩ := decodeTail_succ_ok h
    obtain ⟨rfl, rfl⟩ := decodeTail_zero_ok h
    simp only [UInt8.reduceToNat] at hc hc'
    rw [utf8EncodeChar_ofNat (by omega), if_neg (by omega), if_neg (by omega), if_pos (by omega),
      ofNat_eq (b := a) (by omega), ofNat_eq (b := b) (by omega), ofNat_eq (b := c) (by omega)]
    rfl
  · obtain ⟨b, tail, rfl, hb, hb', h⟩ := decodeTail_succ_ok h
    obtain ⟨c, tail, rfl, hc, hc', h⟩ := decodeTail_succ_ok h
    obtain ⟨d, tail, rfl, hd, hd', h⟩ := decodeTail_succ_ok h
    obtain ⟨rfl, rfl⟩ := decodeTail_zero_ok h
    simp only [UInt8.reduceToNat] at hc hc' hd hd'
    rw [utf8EncodeChar_ofNat (by omega), if_neg (by omega), if_neg (by omega), if_neg (by omega),
      ofNat_eq (b := a) (by omega), ofNat_eq (b := b) (by omega), ofNat_eq (b := c) (by omega),
      ofNat_eq (b := d) (by omega)]
    rfl

/-- **What is read as characters is their spelling**, so it has no other. -/
theorem encode_of_decodeFrom {place : Nat} {done cs : List Char} {bytes : Bytes}
    (h : decodeFrom place done bytes = .ok cs) :
    ∃ read, cs = done.reverse ++ read ∧ encode read = bytes := by
  fun_induction decodeFrom place done bytes with
  | case1 place done =>
    obtain rfl : done.reverse = cs := by simpa using h
    exact ⟨[], by simp, rfl⟩
  | case2 place done a rest value rest' hscalar _ ih =>
    obtain ⟨read, rfl, hread⟩ := ih h
    refine ⟨Char.ofNat value :: read, by simp, ?_⟩
    rw [eq_of_decodeScalar hscalar, ← hread]
    rfl
  | case3 => exact absurd h (by simp)

/-- **The bytes of a text that was read are those it is written as.** -/
theorem encode_of_decode {cs : List Char} {bytes : Bytes} (h : decode bytes = .ok cs) :
    encode cs = bytes := by
  obtain ⟨read, rfl, hread⟩ := encode_of_decodeFrom h
  simpa using hread

end Utf8

/-! ### Texts and runs -/

/-- Whether a reader accepts a text. -/
def Fits (s : String) : Prop := (Utf8.encode s.toList).length ≤ textLimit

instance (s : String) : Decidable (Fits s) := inferInstanceAs (Decidable (_ ≤ _))

/-- What comes back of a text. -/
def textBack (s : String) : Option String := if Fits s then some s else none

theorem text_readsBack : text.ReadsBack textBack := by
  intro s bytes hs rest
  obtain ⟨front, hfront, hs⟩ := Codec.ok_of_bind hs
  obtain rfl : front ++ Utf8.encode s.toList = bytes := by simpa [pure, Except.pure] using hs
  simp only [text, List.append_assoc, length_exact.some_eq hfront rfl, bind, Except.bind, textBack]
  by_cases h : Fits s
  · rw [if_pos h, if_neg (Nat.not_lt.2 h), Bytes.split?_append]
    simp only [Utf8.decode_encode, String.ofList_toList]
    rfl
  · rw [if_neg h, if_pos (Nat.lt_of_not_le h)]
    exact ⟨_, rfl⟩

theorem byteRun_exact : byteRun.Exact := by
  intro run bytes hrun rest
  obtain ⟨front, hfront, hrun⟩ := Codec.ok_of_bind hrun
  obtain rfl : front ++ run = bytes := by simpa [pure, Except.pure] using hrun
  simp only [byteRun, List.append_assoc, length_exact.some_eq hfront rfl, bind, Except.bind,
    takeRun, Bytes.split?_append]

end Playhead.Wire
