import Mathlib.Data.List.Forall2
import Playhead.Proofs.Wire.Faithful

/-!
# What the bytes of a number are

A reader is described by its **texts**: `Playhead.Wire.Codec.Accepts` says that what it reads from
the front of a byte string are the texts of some relation and nothing else, whatever follows them.
The texts of a number of variable width are its groups (`Playhead.Wire.Groups.Spells`); redundant
ones are texts as well, so a number has several. Among them is the one that is written
(`Playhead.Wire.Writes`), and no other has fewer groups
(`Playhead.Wire.Groups.Spells.length_encode_le`).
-/

namespace Playhead.Wire

namespace Codec

variable {ε α : Type} {codec : Codec ε α} {spells : Bytes → α → Prop}

/-- **A reader accepts the texts of a relation and nothing else**, and it stops where they end. -/
def Accepts (codec : Codec ε α) (spells : Bytes → α → Prop) : Prop :=
  ∀ bytes v rest, codec.decode bytes = .ok (v, rest) ↔ ∃ text, bytes = text ++ rest ∧ spells text v

/-- A text is read, whatever follows. -/
theorem Accepts.decode_append (h : codec.Accepts spells) {text : Bytes} {v : α}
    (htext : spells text v) (rest : Bytes) : codec.decode (text ++ rest) = .ok (v, rest) :=
  (h _ _ _).2 ⟨text, rfl, htext⟩

/-- What is written is a text, if it is read back. -/
theorem Accepts.of_encode (h : codec.Accepts spells) (hexact : codec.Exact) {v : α} {text : Bytes}
    (hv : codec.encode v = .ok text) : spells text v := by
  obtain ⟨text', htext, hspells⟩ := (h _ _ _).1 (hexact.some_eq hv rfl [])
  obtain rfl := List.append_cancel_right htext
  exact hspells

/-- **Values in a row are texts in a row.** -/
theorem Accepts.decodeMany (h : codec.Accepts spells) {n : Nat} {done vs : List α}
    {bytes rest : Bytes} :
    codec.decodeMany n done bytes = .ok (vs, rest) ↔ ∃ texts ws, bytes = texts.flatten ++ rest ∧
      vs = done.reverse ++ ws ∧ ws.length = n ∧ List.Forall₂ spells texts ws := by
  induction n generalizing done bytes with
  | zero =>
    simp only [Codec.decodeMany, Except.ok.injEq, Prod.mk.injEq]
    constructor
    · rintro ⟨rfl, rfl⟩
      exact ⟨[], [], rfl, (List.append_nil _).symm, rfl, .nil⟩
    · rintro ⟨texts, ws, rfl, rfl, hlength, htexts⟩
      obtain rfl := List.eq_nil_of_length_eq_zero hlength
      obtain rfl := List.forall₂_nil_right_iff.1 htexts
      exact ⟨(List.append_nil _).symm, rfl⟩
  | succ n ih =>
    simp only [Codec.decodeMany]
    constructor
    · intro hread
      split at hread
      · next a rest' ha =>
        obtain ⟨text, rfl, htext⟩ := (h _ _ _).1 ha
        obtain ⟨texts, ws, rfl, rfl, rfl, htexts⟩ := ih.1 hread
        refine ⟨text :: texts, a :: ws, ?_, ?_, rfl, .cons htext htexts⟩
        · rw [List.flatten_cons, List.append_assoc]
        · rw [List.reverse_cons, List.append_assoc, List.singleton_append]
      · exact absurd hread (by simp)
    · rintro ⟨texts, ws, rfl, rfl, hlength, htexts⟩
      cases htexts with
      | nil => exact absurd hlength (by simp)
      | @cons text a texts ws htext htexts =>
        rw [List.flatten_cons, List.append_assoc, h.decode_append htext]
        refine ih.2 ⟨texts, ws, rfl, ?_, Nat.succ.inj hlength, htexts⟩
        rw [List.reverse_cons, List.append_assoc, List.singleton_append]

/-- Values are written one by one. -/
theorem mapM_eq_ok_iff {f : α → Except ε Bytes} {vs : List α} {texts : List Bytes} :
    vs.mapM f = .ok texts ↔ List.Forall₂ (fun text v => f v = .ok text) texts vs := by
  induction vs generalizing texts with
  | nil => simp [pure, Except.pure, eq_comm]
  | cons v vs ih =>
    rw [List.mapM_cons]
    constructor
    · intro h
      obtain ⟨text, htext, h⟩ := ok_of_bind h
      obtain ⟨texts', htexts, h⟩ := ok_of_bind h
      obtain rfl : text :: texts' = texts := by simpa [pure, Except.pure] using h
      exact .cons htext (ih.1 htexts)
    · intro h
      cases h with
      | cons htext htexts =>
        simp only [bind, Except.bind, htext, ih.2 htexts]
        rfl

end Codec

/-! ### Numbers of variable width -/

namespace Groups

/-- **The groups of a number**: seven bits a byte, least significant first; the high bit is set in
every byte but the last. -/
inductive Spells : Bytes → Nat → Prop
  | last {b : UInt8} (h : b < 128) : Spells [b] b.toNat
  | more {b : UInt8} {text : Bytes} {n : Nat} (h : ¬ b < 128) (rest : Spells text n) :
      Spells (b :: text) (b.toNat % 128 + 128 * n)

theorem Spells.length_pos {text : Bytes} {n : Nat} (h : Spells text n) : 0 < text.length := by
  cases h <;> exact Nat.succ_pos _

/-- A number is below the bound of any of its spellings. -/
theorem Spells.lt {text : Bytes} {n : Nat} (h : Spells text n) : n < 128 ^ text.length := by
  induction h with
  | @last b hb =>
    rw [UInt8.lt_iff_toNat_lt] at hb
    simpa using hb
  | @more b text n _ _ ih =>
    have hmod := Nat.mod_lt b.toNat (by decide : 0 < 128)
    rw [List.length_cons, Nat.pow_succ]
    omega

/-- A number takes no more groups than there is room for it in. -/
theorem length_encode_le {n k : Nat} (h : n < 128 ^ (k + 1)) : (encode n).length ≤ k + 1 := by
  induction k generalizing n with
  | zero =>
    rw [encode, if_pos (by omega)]
    exact Nat.le_refl 1
  | succ k ih =>
    rw [encode]
    split
    · exact Nat.succ_le_succ (Nat.zero_le _)
    · have hdiv : n / 128 < 128 ^ (k + 1) := by
        rw [Nat.div_lt_iff_lt_mul (by decide), ← Nat.pow_succ]
        exact h
      exact Nat.succ_le_succ (ih hdiv)

/-- **No groups of a number are fewer than those that are written**, for it or for a smaller one. -/
theorem Spells.length_encode_le {text : Bytes} {n k : Nat} (h : Spells text n) (hk : k ≤ n) :
    (encode k).length ≤ text.length := by
  obtain ⟨room, hroom⟩ := Nat.exists_eq_add_of_lt h.length_pos
  rw [Nat.zero_add] at hroom
  have hlt := h.lt
  rw [hroom] at hlt ⊢
  exact Groups.length_encode_le (Nat.lt_of_le_of_lt hk hlt)

/-- **A reader of groups accepts as many as it may.** -/
theorem decode_eq_ok_iff {limit : Nat} {bytes rest : Bytes} {n : Nat} :
    decode limit bytes = .ok (n, rest) ↔
      ∃ text, bytes = text ++ rest ∧ Spells text n ∧ text.length ≤ limit := by
  induction limit generalizing bytes n with
  | zero =>
    refine ⟨fun h => absurd h (by simp [decode]), ?_⟩
    rintro ⟨text, -, htext, hlength⟩
    exact absurd htext.length_pos (Nat.not_lt_of_le hlength)
  | succ limit ih =>
    constructor
    · intro h
      cases bytes with
      | nil => exact absurd h (by simp [decode])
      | cons b bytes =>
        rw [decode] at h
        split at h
        · next hb =>
          simp only [Except.ok.injEq, Prod.mk.injEq] at h
          obtain ⟨rfl, rfl⟩ := h
          exact ⟨[b], rfl, .last hb, Nat.succ_le_succ (Nat.zero_le _)⟩
        · next hb =>
          split at h
          · next m rest' hm =>
            simp only [Except.ok.injEq, Prod.mk.injEq] at h
            obtain ⟨rfl, rfl⟩ := h
            obtain ⟨text, rfl, htext, hlength⟩ := ih.1 hm
            exact ⟨b :: text, rfl, .more hb htext, Nat.succ_le_succ hlength⟩
          · exact absurd h (by simp)
    · rintro ⟨text, rfl, htext, hlength⟩
      cases htext with
      | last hb => rw [List.singleton_append, decode, if_pos hb]
      | more hb htext =>
        rw [List.cons_append, decode, if_neg hb,
          ih.2 ⟨_, rfl, htext, Nat.le_of_succ_le_succ hlength⟩]

end Groups

/-- **The texts of a signed 32-bit number**: at most five groups whose sum is the number, modulo the
width. -/
def Spells (text : Bytes) (v : Int32) : Prop :=
  ∃ n, Groups.Spells text n ∧ text.length ≤ 5 ∧ v = (UInt32.ofNat n).toInt32

/-- The text of a number that is written, of as few groups as possible. -/
def Writes (text : Bytes) (v : Int32) : Prop := varint.encode v = .ok text

theorem Spells.length_pos {text : Bytes} {v : Int32} (h : Spells text v) : 0 < text.length := by
  obtain ⟨n, hn, -⟩ := h
  exact hn.length_pos

theorem varint_accepts : varint.Accepts Spells := by
  intro bytes v rest
  simp only [varint]
  constructor
  · intro h
    obtain ⟨⟨n, rest'⟩, hn, h⟩ := Codec.ok_of_bind h
    simp only [pure, Except.pure, Except.ok.injEq, Prod.mk.injEq] at h
    obtain ⟨rfl, rfl⟩ := h
    obtain ⟨text, rfl, htext, hlength⟩ := Groups.decode_eq_ok_iff.1 hn
    exact ⟨text, rfl, n, htext, hlength, rfl⟩
  · rintro ⟨text, rfl, n, htext, hlength, rfl⟩
    rw [Groups.decode_eq_ok_iff.2 ⟨text, rfl, htext, hlength⟩]
    rfl

theorem Writes.spells {text : Bytes} {v : Int32} (h : Writes text v) : Spells text v :=
  varint_accepts.of_encode varint_exact h

/-- A length is a number that is not negative. -/
theorem length_accepts : length.Accepts fun text n => ∃ v, Spells text v ∧ v.toInt = n := by
  intro bytes n rest
  simp only [length]
  constructor
  · intro hread
    obtain ⟨⟨v, rest'⟩, hv, h⟩ := Codec.ok_of_bind hread
    obtain ⟨text, rfl, htext⟩ := (varint_accepts _ _ _).1 hv
    simp only at h
    split at h
    · exact absurd h (by simp)
    · next hneg =>
      simp only [pure, Except.pure, Except.ok.injEq, Prod.mk.injEq] at h
      obtain ⟨rfl, rfl⟩ := h
      rw [Int32.lt_iff_toInt_lt, Int.not_lt] at hneg
      exact ⟨text, rfl, v, htext, (Int.toNat_of_nonneg hneg).symm⟩
  · rintro ⟨text, rfl, v, htext, hv⟩
    have hneg : ¬ v < 0 := by
      rw [Int32.lt_iff_toInt_lt, hv, Int.not_lt]
      exact Int.natCast_nonneg n
    rw [varint_accepts.decode_append htext]
    simp only [bind, Except.bind, if_neg hneg, hv, Int.toNat_natCast]
    rfl

/-- No length is written as nothing. -/
theorem length_pos_of_encode_length {n : Nat} {text : Bytes} (h : length.encode n = .ok text) :
    0 < text.length := by
  obtain ⟨v, hspells, -⟩ := length_accepts.of_encode length_exact h
  exact hspells.length_pos

/-- A length is written as the number that it is. -/
theorem encode_length_eq_ok_iff {n : Nat} {v : Int32} (h : v.toInt = n) {text : Bytes} :
    length.encode n = .ok text ↔ Writes text v := by
  have hlt : n < 0x80000000 := by
    have := v.toInt_lt
    omega
  have hv : Int32.ofNat n = v := by
    rw [← Int32.toInt_inj, Int32.toInt_ofNat_of_lt (by omega), h]
  simp only [Writes, length, if_pos hlt, hv]

end Playhead.Wire
