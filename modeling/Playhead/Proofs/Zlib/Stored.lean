import Playhead.Proofs.Wire.Number
import Playhead.Wire.Frame
import Playhead.Zlib.Deflate

/-!
# A compressed payload unpacks to itself

A stream that the compressor hands out has been read back by it, unless it is a stream of stored
blocks. So all there is to show is that stored blocks unpack to the payload
(`Playhead.Zlib.inflate_storedStream`); nothing is needed about pieces, codes and matches. With that
the compressor is one that frames can use (`Playhead.Zlib.compression`).
-/

namespace Playhead.Zlib

-- powers are those of the core library, whatever else is in scope
attribute [local instance(1100)] instPowNat

namespace Bits

/-! ### Numbers and bytes in a bit string -/

/-- Two numbers in a row are one number of as many bits. -/
theorem number?_append {a b x y : Nat} {bits rest rest' : Bits}
    (hx : number? a bits = some (x, rest)) (hy : number? b rest = some (y, rest')) :
    number? (a + b) bits = some (x + 2 ^ a * y, rest') := by
  induction a generalizing x bits with
  | zero =>
    simp only [number?, Option.some.injEq, Prod.mk.injEq] at hx
    obtain ⟨rfl, rfl⟩ := hx
    simpa using hy
  | succ a ih =>
    cases bits with
    | nil => exact absurd hx (by simp [number?])
    | cons bit bits =>
      simp only [number?] at hx
      split at hx
      · next x' rest'' hx' =>
        simp only [Option.some.injEq, Prod.mk.injEq] at hx
        obtain ⟨rfl, rfl⟩ := hx
        rw [show a + 1 + b = a + b + 1 by omega]
        simp only [number?, ih hx']
        rw [Nat.pow_succ]
        simp only [Option.some.injEq, Prod.mk.injEq, and_true, Nat.mul_add, Nat.mul_comm (2 ^ a) 2,
          Nat.mul_assoc]
        omega
      · exact absurd hx (by simp)

theorem ofNumber_succ (width n : Nat) :
    ofNumber (width + 1) n = n.testBit 0 :: ofNumber width (n / 2) := by
  simp only [ofNumber, List.range_succ_eq_map, List.map_cons, List.map_map]
  congr 1
  refine List.map_congr_left fun i _ => ?_
  simp [Nat.testBit_succ]

/-- **A number that fits is read back from its bits.** -/
theorem number?_ofNumber {width n : Nat} (h : n < 2 ^ width) (rest : Bits) :
    number? width (ofNumber width n ++ rest) = some (n, rest) := by
  induction width generalizing n with
  | zero =>
    have : n = 0 := by simpa using h
    simp [number?, ofNumber, this]
  | succ width ih =>
    have hdiv : n / 2 < 2 ^ width := by rw [Nat.pow_succ] at h; omega
    simp only [ofNumber_succ, List.cons_append, number?, ih hdiv, Option.some.injEq, Prod.mk.injEq,
      and_true]
    rw [Nat.testBit_zero]
    rcases Nat.mod_two_eq_zero_or_one n with h0 | h0 <;> simp [h0] <;> omega

theorem number?_ofByte (b : UInt8) (rest : Bits) :
    number? 8 (ofByte b ++ rest) = some (b.toNat, rest) :=
  number?_ofNumber b.toNat_lt rest

@[simp] theorem ofBytes_cons (b : UInt8) (bytes : Bytes) :
    ofBytes (b :: bytes) = ofByte b ++ ofBytes bytes := rfl

@[simp] theorem ofBytes_append (front tail : Bytes) :
    ofBytes (front ++ tail) = ofBytes front ++ ofBytes tail := by
  simp [ofBytes]

theorem length_ofBytes (bytes : Bytes) : (ofBytes bytes).length = 8 * bytes.length := by
  induction bytes with
  | nil => rfl
  | cons b bytes ih =>
    have hb : (ofByte b).length = 8 := by simp [ofByte, ofNumber]
    rw [ofBytes_cons, List.length_append, ih, hb, List.length_cons]
    omega

/-- What is left of a byte after some bits is skipped. -/
theorem align_append (padding : Bits) (bytes : Bytes) (h : padding.length < 8) :
    align (padding ++ ofBytes bytes) = ofBytes bytes := by
  rw [align, List.length_append, length_ofBytes, Nat.add_mul_mod_self_left, Nat.mod_eq_of_lt h,
    List.drop_left]

/-- Bytes are read back from their bits, after any that have been read. -/
theorem bytesFrom?_ofBytes (bytes done : Bytes) (rest : Bits) :
    bytesFrom? bytes.length done (ofBytes bytes ++ rest) = some (done.reverse ++ bytes, rest) := by
  induction bytes generalizing done with
  | nil => simp [bytesFrom?, ofBytes]
  | cons b bytes ih =>
    rw [List.length_cons, bytesFrom?, ofBytes_cons, List.append_assoc, number?_ofByte]
    simp only [ih, UInt8.ofNat_toNat]
    simp

theorem bytes?_ofBytes (bytes : Bytes) (rest : Bits) :
    bytes? bytes.length (ofBytes bytes ++ rest) = some (bytes, rest) :=
  bytesFrom?_ofBytes bytes [] rest

end Bits

/-! ### Stored blocks -/

/-- A number of two bytes is read back. -/
theorem readNumber_littleEndian16 {n : Nat} (h : n < 65536) (rest : Bits) :
    readNumber 16 (Bits.ofBytes (littleEndian16 n) ++ rest) = .ok (n, rest) := by
  have hlow := Bits.number?_ofByte (UInt8.ofNat n) (Bits.ofByte (UInt8.ofNat (n / 256)) ++ rest)
  have hhigh := Bits.number?_ofByte (UInt8.ofNat (n / 256)) rest
  have hboth := Bits.number?_append hlow hhigh
  have hvalue : (UInt8.ofNat n).toNat + 2 ^ 8 * (UInt8.ofNat (n / 256)).toNat = n := by
    simp
    omega
  rw [hvalue] at hboth
  rw [readNumber, show Bits.ofBytes (littleEndian16 n) ++ rest =
    Bits.ofByte (UInt8.ofNat n) ++ (Bits.ofByte (UInt8.ofNat (n / 256)) ++ rest) from rfl, hboth]

/-- **A stored piece is unpacked as it is**, and the bits up to the next byte are skipped. -/
theorem inflateStored_storedBody {piece : Bytes} (h : piece.length ≤ storedLimit) (out : Unpacked)
    (padding : Bits) (hp : padding.length < 8) (tail : Bytes) :
    inflateStored out (padding ++ Bits.ofBytes (storedBody piece ++ tail)) =
      .ok (out ++ piece, Bits.ofBytes tail) := by
  have h' : piece.length ≤ 65535 := h
  rw [inflateStored, Bits.align_append padding _ hp]
  simp only [storedBody, List.append_assoc, Bits.ofBytes_append]
  rw [readNumber_littleEndian16 (by omega)]
  simp only [bind, Except.bind]
  rw [readNumber_littleEndian16 (by simp only [storedLimit]; omega)]
  simp only [Bits.bytes?_ofBytes]
  rw [if_neg (by simp only [storedLimit, ne_eq, Decidable.not_not]; omega)]
  rfl

/-- One stored block is unpacked, and then the blocks after it unless it is the last. -/
theorem inflateBlocks_storedBlock {piece : Bytes} (h : piece.length ≤ storedLimit) (last : Bool)
    (bound : Nat) (out : Unpacked) (tail : Bytes) :
    inflateBlocks (bound + 1) out (Bits.ofBytes (storedBlock last piece ++ tail)) =
      if last then .ok (out ++ piece, Bits.ofBytes tail)
      else inflateBlocks bound (out ++ piece) (Bits.ofBytes tail) := by
  have hbits : Bits.ofBytes (storedBlock last piece ++ tail) =
      last :: false :: false :: (List.replicate 5 false ++
        Bits.ofBytes (storedBody piece ++ tail)) := by
    cases last <;> rfl
  have hbody := inflateStored_storedBody h out (List.replicate 5 false) (by simp) tail
  rw [hbits]
  generalize List.replicate 5 false ++ Bits.ofBytes (storedBody piece ++ tail) = body at hbody
  cases last <;> simp [inflateBlocks, readNumber, Bits.number?, inflateBlock, hbody]

/-- **Stored blocks unpack to the payload.** -/
theorem inflateBlocks_storedBlocks (payload : Bytes) {bound : Nat} (hb : payload.length < bound)
    (out : Unpacked) (tail : Bytes) :
    inflateBlocks bound out (Bits.ofBytes (storedBlocks payload ++ tail)) =
      .ok (out ++ payload, Bits.ofBytes tail) := by
  obtain ⟨bound, rfl⟩ : ∃ b, bound = b + 1 := ⟨bound - 1, by omega⟩
  rw [storedBlocks]
  split
  · next h => rw [inflateBlocks_storedBlock h, if_pos rfl]
  · next h =>
    have hlen : (payload.take storedLimit).length ≤ storedLimit := by
      rw [List.length_take]
      exact Nat.min_le_left ..
    have hdrop : (payload.drop storedLimit).length < bound := by
      simp only [List.length_drop, storedLimit] at h ⊢
      omega
    have hall : out ++ payload.take storedLimit ++ payload.drop storedLimit = out ++ payload := by
      rw [← Array.toList_inj]
      simp
    rw [List.append_assoc, inflateBlocks_storedBlock hlen, if_neg Bool.false_ne_true,
      inflateBlocks_storedBlocks (payload.drop storedLimit) hdrop, hall]
termination_by payload.length
decreasing_by
  rename_i h
  simp only [storedLimit, List.length_drop] at h ⊢
  omega

/-- Storing does not make anything shorter. -/
theorem le_length_storedBlocks (payload : Bytes) :
    payload.length ≤ (storedBlocks payload).length := by
  rw [storedBlocks]
  split
  · simp [storedBlock, storedBody]
    omega
  · next h =>
    have ih := le_length_storedBlocks (payload.drop storedLimit)
    simp only [List.length_drop, List.length_append, storedBlock, storedBody, List.length_cons,
      List.length_take] at ih ⊢
    omega
termination_by payload.length
decreasing_by
  rename_i h
  simp only [storedLimit, List.length_drop] at h ⊢
  omega

/-! ### The checksum, and whole streams -/

/-- A checksum has four bytes. -/
theorem checksum_lt (bytes : Bytes) : checksum bytes < 256 ^ (4 : Nat) := by
  have hsums : ∀ sums : Nat × Nat, sums.1 < checksumModulus → sums.2 < checksumModulus →
      (bytes.foldl checksumStep sums).1 < checksumModulus ∧
        (bytes.foldl checksumStep sums).2 < checksumModulus := by
    induction bytes with
    | nil => exact fun sums h h' => ⟨h, h'⟩
    | cons b bytes ih =>
      exact fun sums _ _ => ih _ (Nat.mod_lt _ (by decide)) (Nat.mod_lt _ (by decide))
  obtain ⟨h, h'⟩ := hsums (1, 0) (by decide) (by decide)
  simp only [checksum, checksumModulus] at h h' ⊢
  omega

/-- **What is stored is unpacked as it was.** -/
theorem inflate_storedStream (payload : Bytes) : inflate (storedStream payload) = .ok payload := by
  have hbound : payload.length <
      (Bits.ofBytes (storedBlocks payload ++ Bytes.ofNat 4 (checksum payload))).length + 1 := by
    have := le_length_storedBlocks payload
    rw [Bits.length_ofBytes, List.length_append]
    omega
  have hsum : Bits.bytes? 4 (Bits.ofBytes (Bytes.ofNat 4 (checksum payload))) =
      some (Bytes.ofNat 4 (checksum payload), []) := by
    have := Bits.bytes?_ofBytes (Bytes.ofNat 4 (checksum payload)) []
    rwa [Bytes.length_ofNat, List.append_nil] at this
  have halign := Bits.align_append [] (Bytes.ofNat 4 (checksum payload)) (by decide)
  rw [List.nil_append] at halign
  simp only [storedStream, stream, List.cons_append, List.nil_append, inflate,
    show isHeader 0x78 0x9C = true from by decide, Bool.not_true, Bool.false_eq_true, if_false,
    inflateBlocks_storedBlocks payload hbound, bind, Except.bind, halign, hsum]
  rw [Bytes.toNat_ofNat (checksum_lt payload)]
  simp [pure, Except.pure]

/-- **What is compressed unpacks to the payload.** -/
theorem inflate_deflate (payload : Bytes) : inflate (deflate payload) = .ok payload := by
  simp only [deflate]
  split
  · next unpacked h =>
    split
    · next heq => rw [h, heq]
    · exact inflate_storedStream payload
  · exact inflate_storedStream payload

/-- The compression of payloads from a length on, by the compressor of this library. -/
def compression (limit : Nat) : Compression := ⟨limit, deflate, inflate_deflate⟩

@[simp] theorem deflate_compression (limit : Nat) : (compression limit).deflate = deflate := by
  rw [compression]

end Playhead.Zlib
