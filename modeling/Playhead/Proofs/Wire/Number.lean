import Playhead.Proofs.Wire.Codec
import Playhead.Wire.Number
import Playhead.Wire.Varint

/-!
# Numbers are read back

The codecs of numbers are exact: a number of fixed width is the value of its digits
(`Playhead.Bytes.toNat_ofNat`), and a number of variable width is the sum of its groups
(`Playhead.Wire.Groups.decode_encode`), as long as the reader accepts as many groups as the writer
needs.
-/

namespace Playhead

-- powers are those of the core library, whatever else is in scope
attribute [local instance(1100)] instPowNat

namespace Bytes

/-- Digits are read on from a number that is moved up. -/
theorem foldl_digits (bytes : Bytes) (n : Nat) :
    bytes.foldl (fun n b => n * 256 + b.toNat) n = n * 256 ^ bytes.length + toNat bytes := by
  induction bytes generalizing n with
  | nil => simp [toNat]
  | cons b bytes ih =>
    simp only [List.foldl_cons, toNat, List.length_cons]
    rw [ih, ih (0 * 256 + b.toNat), Nat.zero_mul, Nat.zero_add, Nat.add_mul, Nat.pow_succ,
      Nat.mul_comm (256 ^ _) 256, Nat.mul_assoc, Nat.add_assoc]

/-- **The digits of a number spell its remainder.** -/
theorem toNat_ofNat_mod (width n : Nat) : toNat (ofNat width n) = n % 256 ^ width := by
  induction width with
  | zero => simp [ofNat, toNat, Nat.mod_one]
  | succ width ih =>
    have hdigit : (UInt8.ofNat (n / Nat.pow 256 width)).toNat = n / 256 ^ width % 256 := by
      simp
    rw [ofNat, toNat, List.foldl_cons, foldl_digits, ih, length_ofNat, Nat.zero_mul, Nat.zero_add,
      hdigit, Nat.pow_succ, Nat.mod_mul, Nat.mul_comm]
    omega

/-- **A number that fits is that of its bytes.** -/
theorem toNat_ofNat {width n : Nat} (h : n < 256 ^ width) : toNat (ofNat width n) = n := by
  rw [toNat_ofNat_mod, Nat.mod_eq_of_lt h]

/-- The number of some bytes is below the bound of their count. -/
theorem toNat_lt (bytes : Bytes) : toNat bytes < 256 ^ bytes.length := by
  induction bytes with
  | nil => exact Nat.one_pos
  | cons b bytes ih =>
    have hb := Nat.mul_le_mul_right (256 ^ bytes.length) (Nat.le_of_lt_succ b.toNat_lt)
    rw [toNat, List.foldl_cons, foldl_digits, List.length_cons, Nat.pow_succ, Nat.zero_mul,
      Nat.zero_add]
    omega

/-- Digits do not depend on what is above them. -/
theorem ofNat_add_mul (width n k : Nat) : ofNat width (n + k * 256 ^ width) = ofNat width n := by
  induction width generalizing k with
  | zero => rfl
  | succ width ih =>
    have hk : k * 256 ^ (width + 1) = 256 * k * 256 ^ width := by
      rw [Nat.pow_succ, Nat.mul_comm (256 ^ width) 256, ← Nat.mul_assoc, Nat.mul_comm k 256]
    have hdigit : UInt8.ofNat ((n + 256 * k * 256 ^ width) / Nat.pow 256 width) =
        UInt8.ofNat (n / Nat.pow 256 width) := by
      rw [← UInt8.toNat_inj, UInt8.toNat_ofNat', UInt8.toNat_ofNat']
      change (n + 256 * k * 256 ^ width) / 256 ^ width % 256 = n / 256 ^ width % 256
      rw [Nat.add_mul_div_right _ _ (Nat.pow_pos (by decide)), Nat.add_mul_mod_self_left]
    rw [hk, ofNat, ofNat, hdigit, ih]

/-- **Bytes are the digits of the number that they spell.** -/
theorem ofNat_toNat (bytes : Bytes) : ofNat bytes.length (toNat bytes) = bytes := by
  induction bytes with
  | nil => rfl
  | cons b bytes ih =>
    have hlt := toNat_lt bytes
    have hsplit : toNat (b :: bytes) = toNat bytes + b.toNat * 256 ^ bytes.length := by
      rw [toNat, List.foldl_cons, foldl_digits, Nat.zero_mul, Nat.zero_add, Nat.add_comm]
    have hfirst : toNat (b :: bytes) / Nat.pow 256 bytes.length = b.toNat := by
      change _ / 256 ^ bytes.length = _
      rw [hsplit, Nat.add_mul_div_right _ _ (Nat.pow_pos (by decide)), Nat.div_eq_of_lt hlt,
        Nat.zero_add]
    rw [List.length_cons, ofNat, hfirst, UInt8.ofNat_toNat, hsplit, ofNat_add_mul, ih]

end Bytes

namespace Wire

/-! ### Fixed width -/

/-- A number that is read of its own width is the one that was written. -/
theorem fixedWidth_exact (width : Nat) : (fixedWidth width).Exact := by
  intro n bytes hn rest
  simp only [fixedWidth] at hn ⊢
  split at hn
  · next h =>
    obtain rfl : Bytes.ofNat width n = bytes := by simpa using hn
    have hsplit := Bytes.split?_append (Bytes.ofNat width n) rest
    rw [Bytes.length_ofNat] at hsplit
    simp only [hsplit, Bytes.toNat_ofNat h]
  · exact absurd hn (by simp)

theorem u8_exact : u8.Exact := (fixedWidth_exact 1).iso fun v => by simp

theorem i32_exact : i32.Exact := (fixedWidth_exact 4).iso fun v => by simp

theorem i64_exact : i64.Exact := (fixedWidth_exact 8).iso fun v => by simp

theorem u32_exact : u32.Exact := (fixedWidth_exact 4).iso fun v => by simp

theorem u64_exact : u64.Exact := (fixedWidth_exact 8).iso fun v => by simp

theorem bool_exact : bool.Exact := u8_exact.iso fun v => by cases v <;> decide

/-! ### Variable width -/

namespace Groups

/-- **The groups of a number are read back**, by a reader that accepts as many. -/
theorem decode_encode {limit n : Nat} (h : n < 128 ^ (limit + 1)) (rest : Bytes) :
    decode (limit + 1) (encode n ++ rest) = .ok (n, rest) := by
  induction limit generalizing n with
  | zero =>
    have hn : n < 128 := by simpa using h
    have hb : UInt8.ofNat n < 128 := by rw [UInt8.lt_iff_toNat_lt]; simp; omega
    rw [encode, if_pos hn]
    simp only [List.cons_append, List.nil_append, decode, if_pos hb]
    simp
    omega
  | succ limit ih =>
    rw [encode]
    split
    · next hn =>
      have hb : UInt8.ofNat n < 128 := by rw [UInt8.lt_iff_toNat_lt]; simp; omega
      simp only [List.cons_append, List.nil_append, decode, if_pos hb]
      simp
      omega
    · next hn =>
      -- the group says that there is more, and the others are those of the number without its low
      -- bits
      have hb : ¬ UInt8.ofNat (n % 128 + 128) < 128 := by
        rw [UInt8.lt_iff_toNat_lt]; simp; omega
      have hdiv : n / 128 < 128 ^ (limit + 1) := by
        rw [Nat.div_lt_iff_lt_mul (by decide), ← Nat.pow_succ]
        exact h
      have hlow : (UInt8.ofNat (n % 128 + 128)).toNat % 128 = n % 128 := by simp
      rw [List.cons_append, decode, if_neg hb, ih hdiv]
      simp only [hlow]
      rw [Nat.mod_add_div]

end Groups

theorem varint_exact : varint.Exact := by
  intro v bytes hv rest
  obtain rfl : Groups.encode v.toUInt32.toNat = bytes := by simpa [varint] using hv
  have hlt : v.toUInt32.toNat < 128 ^ (4 + 1) :=
    Nat.lt_trans v.toUInt32.toNat_lt (by decide)
  simp only [varint, Groups.decode_encode hlt, bind, Except.bind]
  simp [pure, Except.pure]

theorem varlong_exact : varlong.Exact := by
  intro v bytes hv rest
  obtain rfl : Groups.encode v.toUInt64.toNat = bytes := by simpa [varlong] using hv
  have hlt : v.toUInt64.toNat < 128 ^ (9 + 1) :=
    Nat.lt_trans v.toUInt64.toNat_lt (by decide)
  simp only [varlong, Groups.decode_encode hlt, bind, Except.bind]
  simp [pure, Except.pure]

theorem length_exact : length.Exact := by
  intro n bytes hn rest
  simp only [length] at hn ⊢
  split at hn
  · next h =>
    have hint : (Int32.ofNat n).toInt = n := Int32.toInt_ofNat_of_lt (by omega)
    have hneg : ¬ Int32.ofNat n < 0 := by
      rw [Int32.lt_iff_toInt_lt, hint]
      exact Int.not_lt.2 (Int.natCast_nonneg n)
    simp only [varint_exact.some_eq hn rfl, bind, Except.bind, if_neg hneg, hint,
      Int.toNat_natCast]
    rfl
  · exact absurd hn (by simp)

theorem listOf_readsBack {α : Type} {codec : Codec Fault α} {back : α → Option α}
    (h : codec.ReadsBack back) : (listOf codec).ReadsBack fun vs => vs.mapM back :=
  length_exact.listBack h

theorem listOf_exact {α : Type} {codec : Codec Fault α} (h : codec.Exact) : (listOf codec).Exact :=
  length_exact.list h

end Wire

end Playhead
