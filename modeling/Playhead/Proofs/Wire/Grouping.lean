import Mathlib.Data.Nat.Digits.Lemmas
import Playhead.Proofs.Wire.Spelling

/-!
# Which bytes are a number of variable width

A number is read from a row of bytes that announce another one and the first byte that does not. The
sum of their groups (`Playhead.Wire.Groups.sum`) may be more than fits the type, and the last group
may be zero, so a number has several forms. `Playhead.Wire.Codec.Grouped` tells for every byte
string what a reader makes of it, and which forms are the ones that are written;
`Playhead.Wire.varint_and_varlong_grouped` is the law of both widths.

All of it is a matter of sums: the form that is written is the one whose last group is not zero
(`Playhead.Wire.Groups.encode_sum_eq_iff`), and a sum fits the type when the last group of a form of
full length is not above the bits that are left (`Playhead.Wire.Groups.sum_lt_iff`).
-/

namespace Playhead.Wire

/-- The sum of the groups of a row of bytes, whatever their high bits are. -/
def Groups.sum (bytes : Bytes) : Nat := Nat.ofDigits 128 (bytes.map fun b => b.toNat % 128)

/-- **What a codec of groups makes of any byte string**: `limit` is how many groups it reads,
`modulus` how many numbers there are and `top` the greatest last group of a form of full length that
loses no bits. -/
structure Codec.Grouped {α : Type} (codec : Codec Fault α) (toInt : α → Int)
    (limit modulus : Nat) (top : UInt8) : Prop where
  /-- Every number is written, and read back whatever follows. -/
  back : ∀ v, ∃ text, codec.encode v = .ok text ∧
    ∀ rest, codec.decode (text ++ rest) = .ok (v, rest)
  /-- No form of a number is shorter than the one that is written. -/
  shortest : ∀ v text form rest, codec.encode v = .ok text →
    codec.decode (form ++ rest) = .ok (v, rest) → text.length ≤ form.length
  /-- Too large is exactly what has its first `limit` bytes and no end among them. -/
  oversized : ∀ bytes, codec.decode bytes = .error .oversizedNumber ↔
    limit ≤ bytes.length ∧ ∀ b ∈ bytes.take limit, 128 ≤ b
  /-- Cut off is exactly what ends before, and has no end of a number in it. -/
  cut_off : ∀ bytes, codec.decode bytes = .error .endOfInput ↔
    bytes.length < limit ∧ ∀ b ∈ bytes, 128 ≤ b
  /-- Anything else is the sum of the groups up to the first byte that announces no other, as a
  signed number; and the bytes it was read from are its written form unless they are redundant or
  have lost bits. -/
  otherwise : ∀ bytes,
    codec.decode bytes ≠ .error .oversizedNumber → codec.decode bytes ≠ .error .endOfInput →
    ∃ front last rest v, bytes = front ++ [last] ++ rest ∧
      (∀ b ∈ front, 128 ≤ b) ∧ last < 128 ∧ front.length < limit ∧
      codec.decode bytes = .ok (v, rest) ∧
      toInt v = Int.bmod (Groups.sum (front ++ [last])) modulus ∧
      (codec.encode v = .ok (front ++ [last]) ↔
        (last ≠ 0 ∨ front = []) ∧ (front.length + 1 = limit → last ≤ top))

namespace Groups

variable {front bytes : Bytes} {last : UInt8} {limit n : Nat}

theorem sum_cons (b : UInt8) (bytes : Bytes) :
    sum (b :: bytes) = b.toNat % 128 + 128 * sum bytes := by
  simp [sum, Nat.ofDigits_cons]

theorem sum_singleton (h : last < 128) : sum [last] = last.toNat := by
  rw [UInt8.lt_iff_toNat_lt] at h
  simpa [sum] using h

/-- The sum of the groups is below the bound of their count. -/
theorem sum_lt (bytes : Bytes) : sum bytes < 128 ^ bytes.length := by
  have h := Nat.ofDigits_lt_base_pow_length (b := 128) (l := bytes.map fun b => b.toNat % 128)
    (by decide) (by simp only [List.mem_map]; rintro x ⟨b, -, rfl⟩; exact Nat.mod_lt _ (by decide))
  rwa [List.length_map] at h

theorem sum_concat (h : last < 128) :
    sum (front ++ [last]) = sum front + 128 ^ front.length * last.toNat := by
  rw [← sum_singleton h, sum, List.map_append, Nat.ofDigits_append, List.length_map, sum, sum]

/-- **A sum is as large as its last group**, in units of its place. -/
theorem sum_lt_iff (h : last < 128) (top : Nat) :
    sum (front ++ [last]) < 128 ^ front.length * (top + 1) ↔ last.toNat ≤ top := by
  have hfront := sum_lt front
  rw [sum_concat h]
  constructor
  · intro hlt
    by_contra hle
    have := Nat.mul_le_mul_left (128 ^ front.length) (Nat.lt_of_not_le hle)
    rw [Nat.succ_eq_add_one] at this
    omega
  · intro hle
    have := Nat.mul_le_mul_left (128 ^ front.length) hle
    rw [Nat.mul_add, Nat.mul_one]
    omega

/-! ### Reading -/

/-- What spells a number is its groups, and the last of them is the first that may be. -/
theorem Spells.exists_sum (h : Spells bytes n) : ∃ front last, bytes = front ++ [last] ∧
    (∀ b ∈ front, 128 ≤ b) ∧ last < 128 ∧ n = sum (front ++ [last]) := by
  induction h with
  | @last b hb => exact ⟨[], b, rfl, by simp, hb, (sum_singleton hb).symm⟩
  | @more b text n hb _ ih =>
    obtain ⟨front, last, rfl, hfront, hlast, rfl⟩ := ih
    exact ⟨b :: front, last, rfl, List.forall_mem_cons.2 ⟨UInt8.not_lt.1 hb, hfront⟩, hlast,
      (sum_cons b _).symm⟩

/-- A reader that is refused has met no end of a number: it gives up after as many bytes as it may
read, or where the bytes end. -/
theorem decode_eq_error_iff {fault : Fault} : decode limit bytes = .error fault ↔
    (fault = .oversizedNumber ∧ limit ≤ bytes.length ∧ ∀ b ∈ bytes.take limit, 128 ≤ b) ∨
    (fault = .endOfInput ∧ bytes.length < limit ∧ ∀ b ∈ bytes, 128 ≤ b) := by
  induction limit generalizing bytes with
  | zero => simp [decode, eq_comm]
  | succ limit ih =>
    cases bytes with
    | nil => simp [decode, eq_comm]
    | cons b bytes =>
      rw [decode]
      split
      · next hb => simp [UInt8.not_le.2 hb]
      · next hb =>
        -- one byte less to read, and one group less to read it in
        refine Iff.trans ?_ ((@ih bytes).trans (by simp [UInt8.not_lt.1 hb]))
        cases decode limit bytes <;> simp

/-! ### Writing -/

/-- **Groups are the written ones just when the last is not zero**, or there is only one. -/
theorem encode_sum_eq_iff (hfront : ∀ b ∈ front, 128 ≤ b) (hlast : last < 128) :
    encode (sum (front ++ [last])) = front ++ [last] ↔ last ≠ 0 ∨ front = [] := by
  induction front with
  | nil =>
    have hlt : last.toNat < 128 := UInt8.lt_iff_toNat_lt.1 hlast
    rw [List.nil_append, sum_singleton hlast, encode, if_pos hlt]
    simp
  | cons b front ih =>
    obtain ⟨hb, hfront⟩ := List.forall_mem_cons.1 hfront
    have hgroup : UInt8.ofNat (b.toNat % 128 + 128) = b := by
      have hlow : 128 ≤ b.toNat := UInt8.le_iff_toNat_le.1 hb
      have hhigh := b.toNat_lt
      rw [← UInt8.toNat_inj, UInt8.toNat_ofNat']
      omega
    have hnil : b :: front ≠ [] := List.cons_ne_nil _ _
    have hmod : (b.toNat % 128 + 128 * sum (front ++ [last])) % 128 = b.toNat % 128 := by omega
    have hdiv : (b.toNat % 128 + 128 * sum (front ++ [last])) / 128 = sum (front ++ [last]) := by
      omega
    have hzero : last ≠ 0 → sum (front ++ [last]) ≠ 0 := by
      intro hne h
      have hlast0 : ¬ last.toNat = 0 := fun h => hne (UInt8.toNat_inj.1 h)
      rw [sum_concat hlast, Nat.add_eq_zero_iff, Nat.mul_eq_zero] at h
      exact h.2.elim (Nat.pow_pos (by decide)).ne' hlast0
    rw [List.cons_append, sum_cons, encode, hmod, hdiv, hgroup]
    split
    · next hlt =>
      -- the groups after the first are worth nothing: they would not be written
      have hsum : sum (front ++ [last]) = 0 := by omega
      simp only [hnil, or_false]
      exact iff_of_false (by simp) fun hne => hzero hne hsum
    · next hlt =>
      rw [List.cons.injEq, eq_self, true_and, ih hfront]
      refine ⟨?_, fun h => .inl (h.resolve_right hnil)⟩
      rintro (hne | rfl)
      · exact .inl hne
      · refine .inl fun h => hlt ?_
        rw [List.nil_append, sum_singleton hlast, h]
        exact Nat.mod_lt _ (by decide)

/-- **The groups of a number add up to it.** -/
theorem sum_encode (n : Nat) : sum (encode n) = n := by
  induction n using encode.induct with
  | case1 n hlt =>
    rw [encode, if_pos hlt, sum_singleton (by rw [UInt8.lt_iff_toNat_lt]; simp; omega)]
    simp
    omega
  | case2 n hlt ih =>
    have hlow : (UInt8.ofNat (n % 128 + 128)).toNat % 128 = n % 128 := by simp
    rw [encode, if_neg hlt, sum_cons, ih, hlow, Nat.mod_add_div]

/-- **Groups are the written ones of what is left of their sum** just when the last is not zero and
nothing is lost. -/
theorem encode_sum_mod_eq_iff (hfront : ∀ b ∈ front, 128 ≤ b) (hlast : last < 128)
    (hlength : front.length ≤ limit) (top : UInt8) :
    encode (sum (front ++ [last]) % (128 ^ limit * (top.toNat + 1))) = front ++ [last] ↔
      (last ≠ 0 ∨ front = []) ∧ (front.length = limit → last ≤ top) := by
  have hfits : sum (front ++ [last]) < 128 ^ limit * (top.toNat + 1) ↔
      (front.length = limit → last ≤ top) := by
    rcases Nat.lt_or_eq_of_le hlength with hshort | rfl
    · have hroom : 128 ^ (front ++ [last]).length ≤ 128 ^ limit * (top.toNat + 1) := by
        rw [List.length_append, List.length_singleton]
        exact (Nat.pow_le_pow_right (by decide) hshort).trans
          (Nat.le_mul_of_pos_right _ top.toNat.succ_pos)
      exact iff_of_true ((sum_lt _).trans_le hroom) fun h => absurd h hshort.ne
    · rw [sum_lt_iff hlast, ← UInt8.le_iff_toNat_le]
      simp
  constructor
  · intro h
    have hsum : sum (front ++ [last]) % (128 ^ limit * (top.toNat + 1)) =
        sum (front ++ [last]) := by
      rw [← sum_encode (_ % _), h]
    rw [hsum] at h
    refine ⟨(encode_sum_eq_iff hfront hlast).1 h, hfits.1 ?_⟩
    rw [← hsum]
    exact Nat.mod_lt _ (Nat.mul_pos (Nat.pow_pos (by decide)) top.toNat.succ_pos)
  · rintro ⟨hne, htop⟩
    rw [Nat.mod_eq_of_lt (hfits.2 htop)]
    exact (encode_sum_eq_iff hfront hlast).2 hne

end Groups

/-! ### Both widths -/

section Width

variable {α : Type} {codec : Codec Fault α} {toInt : α → Int} {limit modulus : Nat} {top : UInt8}

/-- **A codec of groups whose numbers are told by their bits**: `top` fills the bits that are left
when all groups but the last are full. -/
theorem Codec.Grouped.of_bits (bits : α → Nat) (number : Nat → α)
    (hencode : ∀ v, codec.encode v = .ok (Groups.encode (bits v)))
    (hdecode : ∀ bytes, codec.decode bytes =
      (Groups.decode (limit + 1) bytes).map fun (n, rest) => (number n, rest))
    (hnumber : ∀ v, number (bits v) = v) (hbits : ∀ n, bits (number n) = n % modulus)
    (hint : ∀ n, toInt (number n) = Int.bmod n modulus)
    (hmodulus : modulus = 128 ^ limit * (top.toNat + 1)) (htop : top < 128) :
    codec.Grouped toInt (limit + 1) modulus top := by
  have hpos : 0 < modulus := by
    rw [hmodulus]
    exact Nat.mul_pos (Nat.pow_pos (by decide)) (Nat.succ_pos _)
  have hlt : ∀ v, bits v < 128 ^ (limit + 1) := by
    intro v
    have hle : top.toNat + 1 ≤ 128 := UInt8.lt_iff_toNat_lt.1 htop
    have hroom : modulus ≤ 128 ^ (limit + 1) := by
      rw [hmodulus, Nat.pow_succ]
      exact Nat.mul_le_mul_left _ hle
    rw [← hnumber v, hbits]
    exact Nat.lt_of_lt_of_le (Nat.mod_lt _ hpos) hroom
  -- the codec reads groups and gives their number a name, so both read and refuse the same bytes
  have herror : ∀ bytes fault, codec.decode bytes = .error fault ↔
      Groups.decode (limit + 1) bytes = .error fault := by
    intro bytes fault
    rw [hdecode]
    cases Groups.decode (limit + 1) bytes <;> simp [Except.map]
  have hok : ∀ bytes v rest, codec.decode bytes = .ok (v, rest) ↔
      ∃ n, Groups.decode (limit + 1) bytes = .ok (n, rest) ∧ number n = v := by
    intro bytes v rest
    rw [hdecode]
    cases Groups.decode (limit + 1) bytes with
    | ok read => obtain ⟨n, rest'⟩ := read; simp [Except.map, and_comm]
    | error => simp [Except.map]
  refine ⟨?back, ?shortest, ?oversized, ?cut_off, ?otherwise⟩
  case back =>
    intro v
    refine ⟨_, hencode v, fun rest => (hok _ _ _).2 ⟨bits v, ?_, hnumber v⟩⟩
    exact Groups.decode_encode (hlt v) rest
  case shortest =>
    intro v text form rest hv hread
    obtain ⟨n, hn, rfl⟩ := (hok _ _ _).1 hread
    obtain ⟨form', hform, hspells, -⟩ := Groups.decode_eq_ok_iff.1 hn
    obtain rfl := List.append_cancel_right hform
    rw [hencode, hbits, Except.ok.injEq] at hv
    rw [← hv]
    exact hspells.length_encode_le (Nat.mod_le _ _)
  case oversized =>
    intro bytes
    rw [herror, Groups.decode_eq_error_iff]
    simp
  case cut_off =>
    intro bytes
    rw [herror, Groups.decode_eq_error_iff]
    simp
  case otherwise =>
    intro bytes hlarge hend
    rw [Ne, herror] at hlarge hend
    cases hread : Groups.decode (limit + 1) bytes with
    | error fault =>
      rcases Groups.decode_eq_error_iff.1 hread with ⟨rfl, -⟩ | ⟨rfl, -⟩
      · exact absurd hread hlarge
      · exact absurd hread hend
    | ok read =>
      -- a text that is read is a row of full groups and a last one
      obtain ⟨n, rest⟩ := read
      obtain ⟨text, rfl, hspells, hlength⟩ := Groups.decode_eq_ok_iff.1 hread
      obtain ⟨front, last, rfl, hfront, hlast, rfl⟩ := hspells.exists_sum
      have hshort : front.length < limit + 1 := by simpa using hlength
      refine ⟨front, last, rest, _, rfl, hfront, hlast, hshort, (hok _ _ _).2 ⟨_, hread, rfl⟩,
        hint _, ?_⟩
      rw [hencode, hbits, hmodulus, Except.ok.injEq, Nat.add_right_cancel_iff]
      exact Groups.encode_sum_mod_eq_iff hfront hlast (Nat.le_of_lt_succ hshort) top

end Width

/-- **The forms of signed numbers of variable width**: 32 bits in at most five groups, the last of
which has room for four bits, and 64 bits in at most ten, the last of which has room for one. -/
theorem varint_and_varlong_grouped :
    varint.Grouped Int32.toInt 5 (2 ^ 32) 0x0F ∧ varlong.Grouped Int64.toInt 10 (2 ^ 64) 0x01 := by
  constructor
  · refine .of_bits (fun v => v.toUInt32.toNat) (fun n => (UInt32.ofNat n).toInt32)
      (fun v => rfl) (fun bytes => ?_) (fun v => ?_) (fun n => ?_) (fun n => ?_)
      (by decide) (by decide)
    · simp only [varint]
      cases Groups.decode 5 bytes <;> rfl
    · simp
    · simp
    · simp
  · refine .of_bits (fun v => v.toUInt64.toNat) (fun n => (UInt64.ofNat n).toInt64)
      (fun v => rfl) (fun bytes => ?_) (fun v => ?_) (fun n => ?_) (fun n => ?_)
      (by decide) (by decide)
    · simp only [varlong]
      cases Groups.decode 10 bytes <;> rfl
    · simp
    · simp
    · simp

/-- A form of full length whose last group has a bit too many: the bit is lost. -/
example : varint.decode [0xFF, 0xFF, 0xFF, 0xFF, 0x1F, 7] = .ok (-1, [7]) ∧
    varint.encode (-1) = .ok [0xFF, 0xFF, 0xFF, 0xFF, 0x0F] := by
  decide +kernel

end Playhead.Wire
