import Playhead.Wire.Codec

/-!
# What a codec reads back

A writer and a reader that belong together obey one law, `Playhead.Wire.Codec.ReadsBack`: reading
the bytes of a value, whatever follows them, gives a value `back v` and leaves what follows – or
fails, where `back v` is nothing. For most codecs what comes back is the value itself
(`Playhead.Wire.Codec.Exact`); there are two exceptions, and the law says what becomes of them: a
coordinate that does not fit its place loses its high bits, and a text that is too long is refused.

Every combinator preserves the law, so the law of a record is put together from the laws of its
fields in the way in which its codec is.
-/

namespace Playhead.Wire

namespace Codec

variable {ε ε' α β : Type}

/-- **What is written is read back as `back` says**, and nothing that follows it is touched. -/
def ReadsBack (codec : Codec ε α) (back : α → Option α) : Prop :=
  ∀ v bytes, codec.encode v = .ok bytes → ∀ rest,
    match back v with
    | some w => codec.decode (bytes ++ rest) = .ok (w, rest)
    | none => ∃ e, codec.decode (bytes ++ rest) = .error e

/-- Every value that can be written is read back as it is. -/
abbrev Exact (codec : Codec ε α) : Prop := codec.ReadsBack some

namespace ReadsBack

variable {codec : Codec ε α} {back back' : α → Option α}

/-- What comes back is what is read, whatever follows. -/
theorem some_eq (h : codec.ReadsBack back) {v w : α} {bytes : Bytes}
    (hv : codec.encode v = .ok bytes) (hb : back v = some w) (rest : Bytes) :
    codec.decode (bytes ++ rest) = .ok (w, rest) := by
  have := h v bytes hv rest
  rwa [hb] at this

/-- What does not come back is refused, whatever follows. -/
theorem none_eq (h : codec.ReadsBack back) {v : α} {bytes : Bytes}
    (hv : codec.encode v = .ok bytes) (hb : back v = none) (rest : Bytes) :
    ∃ e, codec.decode (bytes ++ rest) = .error e := by
  have := h v bytes hv rest
  rwa [hb] at this

theorem congr (h : codec.ReadsBack back) (hb : ∀ v, back v = back' v) :
    codec.ReadsBack back' := by
  rwa [← funext hb]

end ReadsBack

/-! ### Steps of a computation -/

@[simp]
theorem mapError_ok (f : ε → ε') (a : α) : (Except.ok a).mapError f = .ok a := rfl

/-- Naming the failure otherwise changes nothing about the successes. -/
@[simp]
theorem mapError_eq_ok_iff {x : Except ε α} {f : ε → ε'} {a : α} :
    x.mapError f = .ok a ↔ x = .ok a := by
  cases x with
  | error e => exact iff_of_false nofun nofun
  | ok b => simp only [mapError_ok, Except.ok.injEq]

/-- Splits a computation that succeeded in two steps. -/
theorem ok_of_bind {γ δ : Type} {x : Except ε γ} {f : γ → Except ε δ} {b : δ}
    (h : (x >>= f) = .ok b) : ∃ a, x = .ok a ∧ f a = .ok b := by
  cases x with
  | error e => exact absurd h (by simp [bind, Except.bind])
  | ok a => exact ⟨a, rfl, h⟩

/-- What is in order has a value. -/
theorem exists_of_isOk {γ : Type} {x : Except ε γ} (h : x.isOk = true) : ∃ a, x = .ok a := by
  cases x with
  | error => exact absurd h Bool.false_ne_true
  | ok a => exact ⟨a, rfl⟩

/-! ### Records -/

/-- A pair is read back if both of its parts are. -/
theorem ReadsBack.pair {first : Codec ε α} {second : Codec ε β} {back : α → Option α}
    {back' : β → Option β} (h : first.ReadsBack back) (h' : second.ReadsBack back') :
    (first.pair second).ReadsBack fun v =>
      (back v.1).bind fun a => (back' v.2).map fun b => (a, b) := by
  rintro ⟨a, b⟩ bytes hv rest
  obtain ⟨front, hfront, hv⟩ := ok_of_bind hv
  obtain ⟨tail, htail, hv⟩ := ok_of_bind hv
  obtain rfl : front ++ tail = bytes := by simpa [pure, Except.pure] using hv
  simp only [Codec.pair, List.append_assoc]
  cases ha : back a with
  | none =>
    obtain ⟨e, he⟩ := h.none_eq hfront ha (tail ++ rest)
    exact ⟨e, by rw [he]; rfl⟩
  | some a' =>
    rw [h.some_eq hfront ha]
    cases hb : back' b with
    | none =>
      obtain ⟨e, he⟩ := h'.none_eq htail hb rest
      exact ⟨e, by simp only [bind, Except.bind, he]⟩
    | some b' =>
      simp only [Option.bind_some, Option.map_some, bind, Except.bind, h'.some_eq htail hb]
      rfl

theorem Exact.pair {first : Codec ε α} {second : Codec ε β} (h : first.Exact) (h' : second.Exact) :
    (first.pair second).Exact :=
  (ReadsBack.pair h h').congr fun _ => rfl

/-- A codec of fields reads back what it builds from them. -/
theorem ReadsBack.iso {codec : Codec ε α} {back : α → Option α} (h : codec.ReadsBack back)
    (build : α → β) (fields : β → α) :
    (codec.iso build fields).ReadsBack fun v => (back (fields v)).map build := by
  intro v bytes hv rest
  simp only [Codec.iso] at hv ⊢
  cases ha : back (fields v) with
  | none =>
    obtain ⟨e, he⟩ := h.none_eq hv ha rest
    exact ⟨e, by rw [he]; rfl⟩
  | some a =>
    rw [h.some_eq hv ha]
    rfl

theorem Exact.iso {codec : Codec ε α} (h : codec.Exact) {build : α → β} {fields : β → α}
    (hb : ∀ v, build (fields v) = v) : (codec.iso build fields).Exact :=
  (ReadsBack.iso h build fields).congr fun v => by simp [hb]

/-- How errors are named does not matter to what is read back. -/
theorem ReadsBack.mapError {codec : Codec ε α} {back : α → Option α} (h : codec.ReadsBack back)
    (f : ε → ε') : (codec.mapError f).ReadsBack back := by
  intro v bytes hv rest
  simp only [Codec.mapError] at hv ⊢
  cases hc : codec.encode v with
  | error e => rw [hc] at hv; exact absurd hv (by simp)
  | ok bytes' =>
    rw [hc] at hv
    obtain rfl : bytes' = bytes := by simpa using hv
    have := h v bytes' hc rest
    split at this
    · rw [this]
      rfl
    · obtain ⟨e, he⟩ := this
      exact ⟨f e, by rw [he]; rfl⟩

/-! ### Lists -/

/-- Members in a row are read back one by one, up to the first that is refused. -/
theorem ReadsBack.decodeMany {codec : Codec ε α} {back : α → Option α} (h : codec.ReadsBack back)
    {vs : List α} {parts : List Bytes} (hv : vs.mapM codec.encode = .ok parts) (done : List α)
    (rest : Bytes) :
    match vs.mapM back with
    | some ws => codec.decodeMany vs.length done (parts.flatten ++ rest) =
        .ok (done.reverse ++ ws, rest)
    | none => ∃ e, codec.decodeMany vs.length done (parts.flatten ++ rest) = .error e := by
  induction vs generalizing parts done with
  | nil =>
    obtain rfl : parts = [] := by simpa [pure, Except.pure] using hv.symm
    simp [Codec.decodeMany]
  | cons v vs ih =>
    rw [List.mapM_cons] at hv
    obtain ⟨part, hpart, hv⟩ := ok_of_bind hv
    obtain ⟨parts', hparts, hv⟩ := ok_of_bind hv
    obtain rfl : part :: parts' = parts := by simpa [pure, Except.pure] using hv
    simp only [List.mapM_cons, List.flatten_cons, List.append_assoc, List.length_cons,
      Codec.decodeMany]
    cases hw : back v with
    | none =>
      obtain ⟨e, he⟩ := h.none_eq hpart hw (parts'.flatten ++ rest)
      exact ⟨e, by rw [he]⟩
    | some w =>
      have := ih hparts (w :: done)
      rw [h.some_eq hpart hw]
      cases hws : vs.mapM back with
      | none => simpa [hws] using this
      | some ws => simpa [hws, pure] using this

/-- **A list is read back if its members are.** -/
theorem Exact.listBack {length : Codec ε Nat} {codec : Codec ε α} {back : α → Option α}
    (hl : length.Exact) (h : codec.ReadsBack back) :
    (Codec.list length codec).ReadsBack fun vs => vs.mapM back := by
  intro vs bytes hv rest
  obtain ⟨count, hcount, hv⟩ := ok_of_bind hv
  obtain ⟨parts, hparts, hv⟩ := ok_of_bind hv
  obtain rfl : count ++ parts.flatten = bytes := by simpa [pure, Except.pure] using hv
  have := h.decodeMany hparts [] rest
  simp only [Codec.list, List.append_assoc, hl.some_eq hcount rfl, bind, Except.bind]
  cases hws : vs.mapM back <;> simpa [hws] using this

theorem mapM_some_comp {γ : Type} (f : α → γ) (vs : List α) :
    (vs.mapM fun v => some (f v)) = some (vs.map f) := by
  induction vs with
  | nil => rfl
  | cons v vs ih => simp [ih, List.mapM_cons]

/-- Members that come back as they are make a list that does. -/
theorem mapM_eq_self {f : α → Option α} {vs : List α} (h : ∀ v ∈ vs, f v = some v) :
    vs.mapM f = some vs := by
  induction vs with
  | nil => rfl
  | cons v vs ih =>
    rw [List.mapM_cons, h v List.mem_cons_self, ih fun w hw => h w (List.mem_cons_of_mem _ hw)]
    rfl

theorem Exact.list {length : Codec ε Nat} {codec : Codec ε α} (hl : length.Exact)
    (h : codec.Exact) : (Codec.list length codec).Exact :=
  (hl.listBack h).congr fun vs => by simpa using mapM_some_comp id vs

/-! ### Variants -/

/-- A value that is written belongs to a variant, and stands behind the number of that variant. -/
theorem encodeFrom_eq {tagCodec : Codec Fault Int32} {variants : List (Variant α)} {v : α}
    {bytes : Bytes} {tag : Int32}
    (h : Variant.encodeFrom tagCodec v tag variants = .ok bytes) :
    ∃ (n : Nat) (variant : Variant α) (payload : variant.Payload) (front tail : Bytes),
      variants[n]? = some variant ∧ variant.project v = some payload ∧
      tagCodec.encode (tag + Int32.ofNat n) = .ok front ∧
      variant.codec.encode payload = .ok tail ∧ bytes = front ++ tail := by
  induction variants generalizing tag with
  | nil => exact absurd h (by simp [Variant.encodeFrom])
  | cons variant others ih =>
    simp only [Variant.encodeFrom] at h
    cases hp : variant.project v with
    | some payload =>
      rw [hp] at h
      obtain ⟨front, hfront, h⟩ := ok_of_bind h
      obtain ⟨tail, htail, h⟩ := ok_of_bind h
      refine ⟨0, variant, payload, front, tail, rfl, hp, by simpa using hfront, htail, ?_⟩
      simpa [pure, Except.pure] using h.symm
    | none =>
      rw [hp] at h
      obtain ⟨n, found, payload, front, tail, hn, hproj, hfront, htail, hbytes⟩ := ih h
      refine ⟨n + 1, found, payload, front, tail, by simpa using hn, hproj, ?_, htail, hbytes⟩
      rw [← hfront]
      congr 1
      rw [Int32.ofNat_add, Int32.add_assoc, Int32.add_comm (Int32.ofNat n)]
      rfl

/-- **A value of one of several variants is read back by its own variant.** -/
theorem ReadsBack.oneOf {tagCodec : Codec Fault Int32} {variants : List (Variant α)}
    {back : α → Option α} (ht : tagCodec.Exact) (hlen : variants.length < 0x80000000)
    (h : ∀ variant ∈ variants, ∃ payloadBack, variant.codec.ReadsBack payloadBack ∧
      ∀ v payload, variant.project v = some payload →
        back v = (payloadBack payload).map variant.inject) :
    (Codec.oneOf tagCodec variants).ReadsBack back := by
  intro v bytes hv rest
  obtain ⟨n, variant, payload, front, tail, hn, hproj, hfront, htail, rfl⟩ := encodeFrom_eq hv
  obtain ⟨payloadBack, hpayload, hback⟩ := h variant (List.mem_of_getElem? hn)
  rw [Int32.zero_add] at hfront
  have hlt : n < variants.length := (List.getElem?_eq_some_iff.1 hn).1
  have hint : (Int32.ofNat n).toInt = n := Int32.toInt_ofNat_of_lt (by omega)
  have hneg : ¬ Int32.ofNat n < 0 := by
    rw [Int32.lt_iff_toInt_lt, hint]
    exact Int.not_lt.2 (Int.natCast_nonneg n)
  have hfound : (if Int32.ofNat n < 0 then none
      else variants[(Int32.ofNat n).toInt.toNat]?) = some variant := by
    rw [if_neg hneg, hint, Int.toNat_natCast, hn]
  simp only [Codec.oneOf, List.append_assoc, ht.some_eq hfront rfl, bind, Except.bind, hfound,
    hback v payload hproj]
  cases hp : payloadBack payload with
  | none =>
    obtain ⟨e, he⟩ := hpayload.none_eq htail hp rest
    exact ⟨e, by rw [he]⟩
  | some payload' =>
    simp only [Option.map_some, hpayload.some_eq htail hp rest]
    rfl

end Codec

end Playhead.Wire
