import Playhead.Proofs.SortedMap
import Playhead.Proofs.Wire.Number
import Playhead.Timeline.Basic

/-!
# Floors, spans and stored timelines

A timeline is used in two ways. As **snapshots**, only the floor of a moment counts: it is the entry
with the greatest key not after the moment (`Playhead.Timeline.floor?_eq_some_iff`), it stays the
floor until the next key (`Playhead.Timeline.floor?_eq_of_le`), and an entry put at the end is the
floor from then on (`Playhead.Timeline.floor?_insert`). As **changes**, the entries up to a moment
count in order (`Playhead.Timeline.upTo`), and those up to a later moment are the same ones followed
by those in between (`Playhead.Timeline.upTo_append_between`).

A stored timeline is read back with its keys and with what comes back of its values
(`Playhead.Timeline.decode_encode`), as long as no distance between keys overflows.
-/

namespace Playhead

namespace Timeline

open Wire (Codec)

variable {V W : Type}

/-! ### Floors -/

theorem before_iff {s t : Time} : KeyOrder.before s t = true ↔ s < t := decide_eq_true_iff

theorem sorted_lt (line : Timeline V) : line.entries.Pairwise fun a b => a.1 < b.1 :=
  line.sorted.imp before_iff.1

/-- The last entry of a list in order of time is the one with the greatest key. -/
theorem getLast?_eq_some_iff {l : List (Time × V)} (h : l.Pairwise fun a b => a.1 < b.1)
    {e : Time × V} : l.getLast? = some e ↔ e ∈ l ∧ ∀ e' ∈ l, e'.1 ≤ e.1 := by
  rcases List.eq_nil_or_concat l with rfl | ⟨init, x, rfl⟩
  · simp
  · rw [List.concat_eq_append] at h ⊢
    obtain ⟨-, -, hlt⟩ := List.pairwise_append.1 h
    replace hlt : ∀ e' ∈ init, e'.1 < x.1 := fun e' he' => hlt e' he' x List.mem_cons_self
    rw [List.getLast?_append]
    simp only [List.getLast?_singleton, Option.some_or, Option.some.injEq, List.mem_append,
      List.mem_singleton]
    constructor
    · rintro rfl
      refine ⟨.inr rfl, ?_⟩
      rintro e' (he' | rfl)
      · exact Int.le_of_lt (hlt e' he')
      · exact Int.le_refl _
    · rintro ⟨he | rfl, hmax⟩
      · exact absurd (hlt e he) (Int.not_lt.2 (hmax x (.inr rfl)))
      · rfl

/-- **The floor is the entry with the greatest key not after the moment.** -/
theorem floor?_eq_some_iff {line : Timeline V} {t k : Time} {v : V} :
    line.floor? t = some (k, v) ↔
      (k, v) ∈ line.entries ∧ k ≤ t ∧ ∀ e ∈ line.entries, e.1 ≤ t → e.1 ≤ k := by
  rw [floor?, getLast?_eq_some_iff (line.sorted_lt.filter _)]
  simp only [List.mem_filter, decide_eq_true_eq]
  exact ⟨fun ⟨⟨h, hk⟩, hmax⟩ => ⟨h, hk, fun e he het => hmax e ⟨he, het⟩⟩,
    fun ⟨h, hk, hmax⟩ => ⟨⟨h, hk⟩, fun e he => hmax e he.1 he.2⟩⟩

/-- There is no floor just before the first entry. -/
theorem floor?_eq_none_iff {line : Timeline V} {t : Time} :
    line.floor? t = none ↔ ∀ e ∈ line.entries, t < e.1 := by
  rw [floor?, List.getLast?_eq_none_iff, List.filter_eq_nil_iff]
  simp only [decide_eq_true_eq, Int.not_le]

theorem floorKey?_eq_some_iff {line : Timeline V} {t k : Time} :
    line.floorKey? t = some k ↔ ∃ v, line.floor? t = some (k, v) := by
  simp [floorKey?]

/-- **A floor stays in effect up to the next key.** -/
theorem floor?_eq_of_le {line : Timeline V} {s t k : Time} {v : V}
    (h : line.floor? t = some (k, v)) (hks : k ≤ s) (hst : s ≤ t) :
    line.floor? s = some (k, v) := by
  obtain ⟨hmem, -, hmax⟩ := floor?_eq_some_iff.1 h
  exact floor?_eq_some_iff.2 ⟨hmem, hks, fun e he hes => hmax e he (by lia)⟩

/-- The key of the floor says what the floor is. -/
theorem floor?_eq_of_floorKey?_eq {line : Timeline V} {s t : Time}
    (h : line.floorKey? s = line.floorKey? t) : line.floor? s = line.floor? t := by
  cases hs : line.floor? s with
  | none =>
    cases ht : line.floor? t with
    | none => rfl
    | some e => simp [floorKey?, hs, ht] at h
  | some e =>
    cases ht : line.floor? t with
    | none => simp [floorKey?, hs, ht] at h
    | some e' =>
      obtain ⟨k, v⟩ := e
      obtain ⟨k', v'⟩ := e'
      obtain rfl : k = k' := by simpa [floorKey?, hs, ht] using h
      rw [line.eq_of_mem_of_mem (floor?_eq_some_iff.1 hs).1 (floor?_eq_some_iff.1 ht).1]

/-- From an entry on there is a floor, and it is not earlier than the entry. -/
theorem exists_floor? {line : Timeline V} {e : Time × V} (he : e ∈ line.entries) {t : Time}
    (h : e.1 ≤ t) : ∃ k v, line.floor? t = some (k, v) ∧ e.1 ≤ k := by
  cases hf : line.floor? t with
  | none => exact absurd (floor?_eq_none_iff.1 hf e he) (Int.not_lt.2 h)
  | some e' => exact ⟨e'.1, e'.2, rfl, (floor?_eq_some_iff.1 hf).2.2 e he h⟩

/-- **An entry put at the end is in effect from then on**, and nothing changes before. -/
theorem floor?_insert {line : Timeline V} {k : Time} (h : ∀ e ∈ line.entries, e.1 ≤ k) (v : V)
    (t : Time) : floor? (line.insert k v) t = if k ≤ t then some (k, v) else line.floor? t := by
  split
  · next hk =>
    refine floor?_eq_some_iff.2 ⟨SortedMap.mem_insert_iff.2 (.inl rfl), hk, fun e he _ => ?_⟩
    rcases SortedMap.mem_insert_iff.1 he with rfl | ⟨he, -⟩
    · exact Int.le_refl _
    · exact h e he
  · next hk =>
    cases hf : line.floor? t with
    | none =>
      refine floor?_eq_none_iff.2 fun e he => ?_
      rcases SortedMap.mem_insert_iff.1 he with rfl | ⟨he, -⟩
      · exact Int.not_le.1 hk
      · exact floor?_eq_none_iff.1 hf e he
    | some e' =>
      obtain ⟨hmem, hle, hmax⟩ := floor?_eq_some_iff.1 hf
      refine floor?_eq_some_iff.2 ⟨SortedMap.mem_insert_iff.2 (.inr ⟨hmem, ?_⟩), hle,
        fun e he het => ?_⟩
      · exact fun hke => hk (hke ▸ hle)
      · rcases SortedMap.mem_insert_iff.1 he with rfl | ⟨he, -⟩
        · exact absurd het hk
        · exact hmax e he het

/-- A change of all values changes that of the floor. -/
theorem floor?_map (line : Timeline V) (f : Time → V → W) (t : Time) :
    floor? (line.map f) t = (line.floor? t).map fun e => (e.1, f e.1 e.2) := by
  simp only [floor?, SortedMap.map, List.filter_map, List.getLast?_map]
  rfl

/-- A change of all values leaves the keys of floors. -/
theorem floorKey?_map (line : Timeline V) (f : Time → V → W) (t : Time) :
    floorKey? (line.map f) t = line.floorKey? t := by
  simp only [floorKey?, floor?_map, Option.map_map]
  rfl

theorem floor?_ofList_singleton (k t : Time) (v : V) :
    floor? (SortedMap.ofList [(k, v)]) t = if k ≤ t then some (k, v) else none := by
  simp only [floor?, SortedMap.entries_ofList_singleton, List.filter_cons, List.filter_nil,
    decide_eq_true_eq]
  split <;> rfl

/-- The last entry is in effect at the end. -/
theorem floor?_eq_last? {line : Timeline V} {t : Time} (h : ∀ e ∈ line.entries, e.1 ≤ t) :
    line.floor? t = line.last? := by
  rw [floor?, SortedMap.last?, List.filter_eq_self.2 fun e he => decide_eq_true (h e he)]

/-! ### Spans -/

/-- The entries that are not after a moment. -/
def upTo (line : Timeline V) (t : Time) : List (Time × V) := line.entries.filter fun e => e.1 ≤ t

/-- In order of time, what is not after a moment comes before what is. -/
theorem eq_filter_append_filter {l : List (Time × V)} (h : l.Pairwise fun a b => a.1 < b.1)
    (t : Time) : l = (l.filter fun e => e.1 ≤ t) ++ l.filter fun e => t < e.1 := by
  induction l with
  | nil => rfl
  | cons e l ih =>
    obtain ⟨he, hl⟩ := List.pairwise_cons.1 h
    have ih := ih hl
    by_cases het : e.1 ≤ t
    · have hte : ¬ t < e.1 := by lia
      rw [List.filter_cons, List.filter_cons, if_pos (decide_eq_true het),
        if_neg (by simpa using hte), List.cons_append, ← ih]
    · -- nothing after `e` is in the first part either
      have hnil : (l.filter fun e => e.1 ≤ t) = [] := by
        refine List.filter_eq_nil_iff.2 fun e' he' => ?_
        have := he e' he'
        simp only [decide_eq_true_eq]
        lia
      have hte : t < e.1 := by lia
      rw [hnil, List.nil_append] at ih
      rw [List.filter_cons, List.filter_cons, if_neg (by simpa using het),
        if_pos (decide_eq_true hte), hnil, List.nil_append, ← ih]

/-- The entries of a timeline are those up to a moment and those after it. -/
theorem entries_eq_upTo_append (line : Timeline V) (t : Time) :
    line.entries = line.upTo t ++ line.entries.filter fun e => t < e.1 :=
  eq_filter_append_filter line.sorted_lt t

/-- **The entries up to a later moment are those up to an earlier one and those in between.** -/
theorem upTo_append_between (line : Timeline V) {s t : Time} (h : s ≤ t) :
    line.upTo t = line.upTo s ++ line.between s t := by
  have hsplit := eq_filter_append_filter (line.sorted_lt.filter fun e => e.1 ≤ t) s
  rw [List.filter_filter, List.filter_filter] at hsplit
  rw [upTo, hsplit, upTo, between]
  congr 1
  · refine List.filter_congr fun e _ => ?_
    rw [← Bool.decide_and, decide_eq_decide]
    exact ⟨fun hs => hs.1, fun hs => ⟨hs, Int.le_trans hs h⟩⟩
  · exact List.filter_congr fun e _ => by rw [← Bool.decide_and]

/-- All entries are up to a moment that none is after. -/
theorem upTo_eq_entries {line : Timeline V} {t : Time} (h : ∀ e ∈ line.entries, e.1 ≤ t) :
    line.upTo t = line.entries :=
  List.filter_eq_self.2 fun e he => by simpa using h e he

/-! ### Entries at the end -/

/-- An entry put at the end comes after the earlier ones, in place of one with the same key. -/
theorem entries_insert {line : Timeline V} {k : Time} (h : ∀ e ∈ line.entries, e.1 ≤ k) (v : V) :
    (line.insert k v).entries = (line.entries.filter fun e => e.1 < k) ++ [(k, v)] := by
  have hall : ∀ l : List (Time × V), (l.Pairwise fun a b => a.1 < b.1) → (∀ e ∈ l, e.1 ≤ k) →
      SortedMap.insertEntry k v l = (l.filter fun e => e.1 < k) ++ [(k, v)] := by
    intro l hl hle
    induction l with
    | nil => rfl
    | cons e l ih =>
      obtain ⟨he, hl⟩ := List.pairwise_cons.1 hl
      have hek := hle e List.mem_cons_self
      have ih := ih hl fun e' he' => hle e' (List.mem_cons_of_mem _ he')
      have hbefore : ¬ KeyOrder.before k e.1 = true := by
        rw [before_iff]
        lia
      by_cases hlt : e.1 < k
      · simp only [SortedMap.insertEntry, hbefore, if_false, before_iff.2 hlt, if_true, ih,
          Bool.false_eq_true]
        simp [hlt]
      · -- an entry that is not earlier has the key itself, and is the last one
        have hnil : l = [] := by
          refine List.eq_nil_iff_forall_not_mem.2 fun e' he' => ?_
          have := he e' he'
          have := hle e' (List.mem_cons_of_mem _ he')
          lia
        subst hnil
        have hbefore' : ¬ KeyOrder.before e.1 k = true := by
          rw [before_iff]
          exact hlt
        simp [SortedMap.insertEntry, hbefore, hbefore', hlt]
  exact hall line.entries line.sorted_lt h

/-- An entry with a new key at the end comes behind all others. -/
theorem entries_insert_of_lt {line : Timeline V} {k : Time} (h : ∀ e ∈ line.entries, e.1 < k)
    (v : V) : (line.insert k v).entries = line.entries ++ [(k, v)] := by
  rw [entries_insert fun e he => Int.le_of_lt (h e he),
    List.filter_eq_self.2 fun e he => decide_eq_true (h e he)]

/-- An entry put at the end changes nothing of what is before. -/
theorem upTo_insert_of_lt {line : Timeline V} {k t : Time} (h : ∀ e ∈ line.entries, e.1 ≤ k)
    (v : V) (ht : t < k) : upTo (line.insert k v) t = line.upTo t := by
  have hlast : ([(k, v)].filter fun e => decide (e.1 ≤ t)) = [] := by
    simp [Int.not_le.2 ht]
  rw [upTo, entries_insert h, List.filter_append, hlast, List.append_nil, List.filter_filter, upTo]
  refine List.filter_congr fun e _ => ?_
  rw [← Bool.decide_and, decide_eq_decide]
  exact ⟨fun he => he.1, fun he => ⟨he, Int.lt_of_le_of_lt he ht⟩⟩

/-- A timeline is what is before a moment not before its end, and what is at that moment. -/
theorem entries_eq_append {line : Timeline V} {k : Time} (h : ∀ e ∈ line.entries, e.1 ≤ k) :
    line.entries = (line.entries.filter fun e => e.1 < k) ++
      ((line.get? k).toList.map fun v => (k, v)) := by
  cases hk : line.get? k with
  | none =>
    rw [List.filter_eq_self.2]
    · simp
    · intro e he
      have := h e he
      have := SortedMap.get?_eq_none_iff.1 hk e he
      exact decide_eq_true (by lia)
  | some v =>
    have hself : line.insert k v = line := SortedMap.ext_get? fun k' => by
      rw [SortedMap.get?_insert]
      split
      · next he => rw [he, hk]
      · rfl
    have := entries_insert h v
    rw [hself] at this
    exact this

/-! ### Stored timelines -/

/-- Whether the distances between the keys have a place on the 64-bit clock, the first counted from
`previous`. -/
def StepsFit : Time → List (Time × V) → Prop
  | _, [] => True
  | previous, (t, _) :: rest =>
    (t - previous).isRepresentable ∧ t.isRepresentable ∧ StepsFit t rest

instance decidableStepsFit :
    (previous : Time) → (entries : List (Time × V)) → Decidable (StepsFit previous entries)
  | _, [] => inferInstanceAs (Decidable True)
  | _, (t, _) :: rest =>
    have := decidableStepsFit t rest
    inferInstanceAs (Decidable (_ ∧ _ ∧ _))

/-- Times that are not negative are at distances that fit. -/
theorem stepsFit_of_nonneg {l : List (Time × V)} {previous : Time} (hp : 0 ≤ previous)
    (hlast : previous ≤ Time.last) (h : ∀ e ∈ l, 0 ≤ e.1 ∧ e.1 ≤ Time.last) :
    StepsFit previous l := by
  induction l generalizing previous with
  | nil => trivial
  | cons e l ih =>
    obtain ⟨he, he'⟩ := h e List.mem_cons_self
    refine ⟨?_, ?_, ih he he' fun e' h' => h e' (List.mem_cons_of_mem _ h')⟩
    all_goals
      simp only [Time.isRepresentable, Time.last, Bool.and_eq_true, decide_eq_true_eq]
        at hlast he' ⊢
      lia

/-- A time that has a place on the clock is not changed by being put there. -/
theorem toInt_ofInt_of_isRepresentable {t : Time} (h : t.isRepresentable = true) :
    (Int64.ofInt t).toInt = t := by
  simp only [Time.isRepresentable, Time.last, Bool.and_eq_true, decide_eq_true_eq] at h
  rw [Int64.toInt_ofInt_of_le] <;> lia

/-- Entries are written one behind the other: a distance, a value, and what is written of the
others. -/
theorem exists_of_encodeEntries {value : Codec Failure V} {previous t : Time} {v : V}
    {entries : List (Time × V)} {bytes : Bytes}
    (h : encodeEntries value previous ((t, v) :: entries) = .ok bytes) :
    ∃ key front tail, Wire.varlong.encode (Int64.ofInt (t - previous)) = .ok key ∧
      value.encode v = .ok front ∧ encodeEntries value t entries = .ok tail ∧
        bytes = key ++ (front ++ tail) := by
  simp only [encodeEntries] at h
  obtain ⟨key, hkey, h⟩ := Codec.ok_of_bind h
  obtain ⟨front, hfront, h⟩ := Codec.ok_of_bind h
  obtain ⟨tail, htail, h⟩ := Codec.ok_of_bind h
  obtain rfl : key ++ front ++ tail = bytes := by simpa [pure, Except.pure] using h
  exact ⟨key, front, tail, Codec.mapError_eq_ok_iff.1 hkey, hfront, htail, List.append_assoc ..⟩

/-- A timeline is written as the number of its entries and the entries. -/
theorem exists_of_encode {value : Codec Failure V} {line : Timeline V} {bytes : Bytes}
    (h : (Timeline.codec value).encode line = .ok bytes) :
    ∃ count entries, Wire.length.encode line.size = .ok count ∧
      encodeEntries value 0 line.entries = .ok entries ∧ bytes = count ++ entries := by
  obtain ⟨count, hcount, h⟩ := Codec.ok_of_bind h
  obtain ⟨entries, hentries, h⟩ := Codec.ok_of_bind h
  obtain rfl : count ++ entries = bytes := by simpa [pure, Except.pure] using h
  exact ⟨count, entries, Codec.mapError_eq_ok_iff.1 hcount, hentries, rfl⟩

/-- Behind a number as many entries are read. -/
theorem decode_of_count {value : Codec Failure V} {n : Nat} {count : Bytes}
    (h : Wire.length.encode n = .ok count) (rest : Bytes) :
    (Timeline.codec value).decode (count ++ rest) = decodeEntries value n true 0 .empty rest := by
  simp only [codec, Wire.length_exact.some_eq h rfl, Codec.mapError_ok, bind, Except.bind]

/-- **What is written of the entries is read back**, after any entries with earlier keys. -/
theorem decodeEntries_encodeEntries {value : Codec Failure V} {back : V → Option V}
    (hv : value.ReadsBack back) {f : V → V} {entries : List (Time × V)} {previous : Time}
    (hfit : StepsFit previous entries) (hsorted : entries.Pairwise fun a b => a.1 < b.1)
    (hback : ∀ e ∈ entries, back e.2 = some (f e.2)) {bytes : Bytes}
    (henc : encodeEntries value previous entries = .ok bytes) (isFirst : Bool)
    (hfirst : isFirst = false → ∀ e ∈ entries, previous < e.1) (line : Timeline V)
    (hline : ∀ d ∈ line.entries, ∀ e ∈ entries, d.1 < e.1) (rest : Bytes) :
    ∃ line', decodeEntries value entries.length isFirst previous line (bytes ++ rest) =
      .ok (line', rest) ∧ line'.entries = line.entries ++ entries.map fun e => (e.1, f e.2) := by
  induction entries generalizing previous bytes isFirst line with
  | nil =>
    obtain rfl : ([] : Bytes) = bytes := by simpa [encodeEntries] using henc
    exact ⟨line, by simp [decodeEntries]⟩
  | cons e entries ih =>
    obtain ⟨t, v⟩ := e
    obtain ⟨hstep, ht, hfit⟩ := hfit
    obtain ⟨hlt, hsorted⟩ := List.pairwise_cons.1 hsorted
    obtain ⟨key, front, tail, hkey, hfront, htail, rfl⟩ := exists_of_encodeEntries henc
    -- the time is found by its distance from the one before
    have htime : previous + (Int64.ofInt (t - previous)).toInt = t := by
      rw [toInt_ofInt_of_isRepresentable hstep]
      lia
    -- only the first entry may be as early as the one before
    have horder : ¬ ((!isFirst && decide (t ≤ previous)) = true) := by
      cases isFirst with
      | true => simp
      | false =>
        have := hfirst rfl (t, v) List.mem_cons_self
        simp only [Bool.not_false, Bool.true_and, decide_eq_true_eq]
        lia
    have hend : ∀ d ∈ line.entries, d.1 < t := fun d hd => hline d hd _ List.mem_cons_self
    obtain ⟨line', hdec, hentries⟩ := ih hfit hsorted
      (fun e he => hback e (List.mem_cons_of_mem _ he)) htail false (fun _ => hlt)
      (line.insert t (f v)) fun d hd e he => by
        rcases SortedMap.mem_insert_iff.1 hd with rfl | ⟨hd, -⟩
        · exact hlt e he
        · exact hline d hd e (List.mem_cons_of_mem _ he)
    refine ⟨line', ?_, ?_⟩
    · simp only [List.length_cons, decodeEntries, List.append_assoc,
        Wire.varlong_exact.some_eq hkey rfl, htime, ht, Bool.not_true, Bool.false_eq_true,
        if_false, if_neg horder, hv.some_eq hfront (hback _ List.mem_cons_self), hdec]
    · rw [hentries, entries_insert_of_lt hend]
      simp

/-- **A stored timeline is read back**, with its keys and what comes back of its values. -/
theorem decode_encode {value : Codec Failure V} {back : V → Option V} (hv : value.ReadsBack back)
    {f : V → V} {line : Timeline V} (hfit : StepsFit 0 line.entries)
    (hback : ∀ e ∈ line.entries, back e.2 = some (f e.2)) {bytes : Bytes}
    (henc : (Timeline.codec value).encode line = .ok bytes) (rest : Bytes) :
    (Timeline.codec value).decode (bytes ++ rest) = .ok (line.map fun _ v => f v, rest) := by
  obtain ⟨count, entries, hcount, hentries, rfl⟩ := exists_of_encode henc
  obtain ⟨line', hdecode, hline'⟩ := decodeEntries_encodeEntries hv hfit line.sorted_lt hback
    hentries true (fun h => absurd h (by simp)) .empty (by simp) rest
  have hmap : line' = line.map fun _ v => f v := by
    obtain ⟨_, _⟩ := line'
    simp only [SortedMap.entries_empty, List.nil_append] at hline'
    subst hline'
    rfl
  rw [List.append_assoc, decode_of_count hcount, ← hmap]
  exact hdecode

/-- A timeline with a value that is refused is refused. -/
theorem decodeEntries_error {value : Codec Failure V} {back : V → Option V}
    (hv : value.ReadsBack back) {entries : List (Time × V)} {previous : Time} {e : Time × V}
    (he : e ∈ entries) (hback : back e.2 = none) {bytes : Bytes}
    (henc : encodeEntries value previous entries = .ok bytes) (before : Time) (isFirst : Bool)
    (line : Timeline V) (rest : Bytes) :
    ∃ failure, decodeEntries value entries.length isFirst before line (bytes ++ rest) =
      .error failure := by
  induction entries generalizing previous before bytes isFirst line with
  | nil => exact absurd he List.not_mem_nil
  | cons head entries ih =>
    obtain ⟨t, v⟩ := head
    obtain ⟨key, front, tail, hkey, hfront, htail, rfl⟩ := exists_of_encodeEntries henc
    simp only [List.length_cons, decodeEntries, List.append_assoc,
      Wire.varlong_exact.some_eq hkey rfl]
    -- it is refused for its time, or for the value
    split
    · exact ⟨_, rfl⟩
    split
    · exact ⟨_, rfl⟩
    cases hw : back v with
    | none =>
      obtain ⟨failure, hfail⟩ := hv.none_eq hfront hw (tail ++ rest)
      exact ⟨failure, by rw [hfail]⟩
    | some w =>
      rw [hv.some_eq hfront hw]
      have htail' : e ∈ entries := by
        rcases List.mem_cons.1 he with rfl | he
        · exact absurd (hw.symm.trans hback) (by simp)
        · exact he
      exact ih htail' htail _ _ _

/-- A value that cannot be read back makes the timeline unreadable. -/
theorem decode_error {value : Codec Failure V} {back : V → Option V} (hv : value.ReadsBack back)
    {line : Timeline V} {e : Time × V} (he : e ∈ line.entries) (hback : back e.2 = none)
    {bytes : Bytes} (henc : (Timeline.codec value).encode line = .ok bytes) (rest : Bytes) :
    ∃ failure, (Timeline.codec value).decode (bytes ++ rest) = .error failure := by
  obtain ⟨count, entries, hcount, hentries, rfl⟩ := exists_of_encode henc
  rw [List.append_assoc, decode_of_count hcount]
  exact decodeEntries_error hv he hback hentries 0 true .empty rest

/-- Values that are stored as others are written like these. -/
theorem encodeEntries_iso (value : Codec Failure V) (build : V → W) (fields : W → V)
    (entries : List (Time × W)) (previous : Time) :
    encodeEntries (value.iso build fields) previous entries =
      encodeEntries value previous (entries.map fun e => (e.1, fields e.2)) := by
  induction entries generalizing previous with
  | nil => rfl
  | cons e entries ih =>
    simp only [List.map_cons, encodeEntries, ih]
    rfl

/-- The same bytes for another form of the values are the same bytes for the timeline. -/
theorem encode_iso (value : Codec Failure V) (build : V → W) (fields : W → V)
    (line : Timeline W) :
    (Timeline.codec (value.iso build fields)).encode line =
      (Timeline.codec value).encode (line.map fun _ w => fields w) := by
  simp only [codec, encodeEntries_iso, SortedMap.map, SortedMap.size, List.length_map]

end Timeline

end Playhead
