import Playhead.Proofs.Log
import Playhead.Stored

/-!
# Loading bytes that nobody has checked

The bytes under a handle can be anything: the handle may be wrong, the count too great, a distance
zero, negative or too far, and a value may break off in the middle. Main statement:
`Playhead.load_all_or_nothing`. A track either stays as it was, or it has **exactly** the entries
that are stored.

What is stored is said without the reader (`Playhead.Timeline.StoredAs`): a count, then as many
distances and values (`Playhead.Timeline.Listed`), whose running sums (`Playhead.Timeline.keysFrom`)
are moments of the clock and increase. The reader puts entries into a map one by one, where a key
that came a second time would take the place of the first; since the sums increase, every entry is
put behind all earlier ones and none gets lost (`Playhead.Timeline.decodeEntries_eq_ok_iff`).
-/

namespace Playhead

open Wire (Codec)

namespace Timeline

variable {V : Type} {value : Codec Failure V}

/-! ### What is stored -/

/-- Entries that are stored one behind the other: a distance and a value each, and the bytes that
are left. -/
inductive Listed (value : Codec Failure V) : Bytes → List (Int64 × V) → Bytes → Prop
  | nil (rest : Bytes) : Listed value rest [] rest
  | cons {bytes afterKey afterValue rest : Bytes} {distance : Int64} {v : V}
      {stored : List (Int64 × V)} (key : Wire.varlong.decode bytes = .ok (distance, afterKey))
      (val : value.decode afterKey = .ok (v, afterValue))
      (others : Listed value afterValue stored rest) :
      Listed value bytes ((distance, v) :: stored) rest

/-- The entries that distances give, with their running sums from `previous` on as keys. -/
def keysFrom (previous : Time) : List (Int64 × V) → List (Time × V)
  | [] => []
  | (distance, v) :: stored =>
    (previous + distance.toInt, v) :: keysFrom (previous + distance.toInt) stored

/-- There are as many keys as stored entries. -/
@[simp] theorem length_keysFrom (previous : Time) (stored : List (Int64 × V)) :
    (keysFrom previous stored).length = stored.length := by
  induction stored generalizing previous with
  | nil => rfl
  | cons e stored ih => rw [keysFrom, List.length_cons, List.length_cons, ih]

/-- The moment to which distances lead from `previous`: their sum. -/
def reached (previous : Time) (stored : List (Int64 × V)) : Time :=
  stored.foldl (fun t e => t + e.1.toInt) previous

/-- An entry keeps its value and its place; its key is the sum of all distances up to it. -/
theorem getElem?_keysFrom (previous : Time) (stored : List (Int64 × V)) (i : Nat) :
    (keysFrom previous stored)[i]? =
      stored[i]?.map fun e => (reached previous (stored.take (i + 1)), e.2) := by
  induction stored generalizing previous i with
  | nil => rfl
  | cons e stored ih =>
    cases i with
    | zero => rfl
    | succ i =>
      rw [keysFrom, List.getElem?_cons_succ, List.getElem?_cons_succ, ih]
      rfl

/-- What is listed in some bytes depends on the number of entries alone. -/
theorem Listed.unique {bytes rest rest' : Bytes} {stored stored' : List (Int64 × V)}
    (h : Listed value bytes stored rest) (h' : Listed value bytes stored' rest')
    (hlength : stored.length = stored'.length) : stored = stored' ∧ rest = rest' := by
  induction h generalizing stored' with
  | nil =>
    obtain rfl := List.eq_nil_of_length_eq_zero hlength.symm
    cases h'
    exact ⟨rfl, rfl⟩
  | cons key val _ ih =>
    cases h' with
    | nil => exact absurd hlength (by simp)
    | cons key' val' others' =>
      obtain ⟨rfl, rfl⟩ := Prod.mk.inj (Except.ok.inj (key.symm.trans key'))
      obtain ⟨rfl, rfl⟩ := Prod.mk.inj (Except.ok.inj (val.symm.trans val'))
      obtain ⟨rfl, rfl⟩ := ih others' (Nat.succ.inj hlength)
      exact ⟨rfl, rfl⟩

/-- **What makes bytes a stored timeline**: a count, and as many entries whose keys, added up from
their distances, have a place on the clock and increase. -/
structure StoredAs (value : Codec Failure V) (bytes : Bytes) (stored : List (Int64 × V))
    (rest : Bytes) : Prop where
  listed : ∃ entries, Wire.length.decode bytes = .ok (stored.length, entries) ∧
    Listed value entries stored rest
  representable : ∀ e ∈ keysFrom 0 stored, e.1.isRepresentable = true
  increasing : (keysFrom 0 stored).Pairwise fun e e' => e.1 < e'.1

/-- **Bytes store one timeline at most.** -/
theorem StoredAs.unique {bytes rest rest' : Bytes} {stored stored' : List (Int64 × V)}
    (h : StoredAs value bytes stored rest) (h' : StoredAs value bytes stored' rest') :
    stored = stored' ∧ rest = rest' := by
  obtain ⟨entries, hcount, hlisted⟩ := h.listed
  obtain ⟨entries', hcount', hlisted'⟩ := h'.listed
  obtain ⟨hlength, rfl⟩ := Prod.mk.inj (Except.ok.inj (hcount.symm.trans hcount'))
  exact hlisted.unique hlisted' hlength

/-! ### What is read -/

/-- **Reading one entry and the others**: a distance that leads to a moment of the clock, one that
is later unless the entry is the first, and a value. -/
theorem decodeEntries_succ_eq_ok_iff {count : Nat} {isFirst : Bool} {previous : Time}
    {line line' : Timeline V} {bytes rest : Bytes} :
    decodeEntries value (count + 1) isFirst previous line bytes = .ok (line', rest) ↔
      ∃ distance afterKey v afterValue, Wire.varlong.decode bytes = .ok (distance, afterKey) ∧
        (previous + distance.toInt).isRepresentable = true ∧
        (isFirst = false → previous < previous + distance.toInt) ∧
        value.decode afterKey = .ok (v, afterValue) ∧
        decodeEntries value count false (previous + distance.toInt)
          (line.insert (previous + distance.toInt) v) afterValue = .ok (line', rest) := by
  simp only [decodeEntries]
  constructor
  · intro hread
    -- each step of the reader succeeded
    split at hread
    · exact absurd hread (by simp)
    next distance afterKey hkey =>
    split at hread
    · exact absurd hread (by simp)
    next hrange =>
    split at hread
    · exact absurd hread (by simp)
    next horder =>
    split at hread
    · exact absurd hread (by simp)
    next v afterValue hval =>
    refine ⟨distance, afterKey, v, afterValue, hkey, by simpa using hrange, ?_, hval, hread⟩
    rintro rfl
    simpa using horder
  · rintro ⟨distance, afterKey, v, afterValue, hkey, hrange, hlater, hval, hread⟩
    have horder : ¬ ((!isFirst && decide (previous + distance.toInt ≤ previous)) = true) := by
      cases isFirst with
      | true => simp
      | false => simpa using hlater rfl
    simp only [hkey, hrange, Bool.not_true, Bool.false_eq_true, if_false, if_neg horder, hval,
      hread]

/-- **Reading entries adds exactly those that are listed**, behind the ones that are there. The
first of all may have any key. -/
theorem decodeEntries_eq_ok_iff {count : Nat} {isFirst : Bool} {previous : Time}
    {line line' : Timeline V} {bytes rest : Bytes}
    (hline : ∀ e ∈ line.entries, isFirst = false ∧ e.1 ≤ previous) :
    decodeEntries value count isFirst previous line bytes = .ok (line', rest) ↔
      ∃ stored, Listed value bytes stored rest ∧ stored.length = count ∧
        (∀ e ∈ keysFrom previous stored, e.1.isRepresentable = true) ∧
        (isFirst = false → ∀ e ∈ keysFrom previous stored, previous < e.1) ∧
        (keysFrom previous stored).Pairwise (fun e e' => e.1 < e'.1) ∧
        line'.entries = line.entries ++ keysFrom previous stored := by
  induction count generalizing isFirst previous line bytes with
  | zero =>
    simp only [decodeEntries, Except.ok.injEq, Prod.mk.injEq]
    constructor
    · rintro ⟨rfl, rfl⟩
      exact ⟨[], .nil _, rfl, by simp [keysFrom], by simp [keysFrom], .nil,
        (List.append_nil _).symm⟩
    · rintro ⟨stored, hlisted, hlength, -, -, -, hentries⟩
      obtain rfl := List.eq_nil_of_length_eq_zero hlength
      cases hlisted
      exact ⟨SortedMap.ext_entries (by rw [hentries, keysFrom, List.append_nil]), rfl⟩
  | succ count ih =>
    -- with a later key, every earlier entry is before the new one
    have hlast : ∀ t, (isFirst = false → previous < t) → ∀ e ∈ line.entries, e.1 < t :=
      fun t ht e he => Int.lt_of_le_of_lt (hline e he).2 (ht (hline e he).1)
    have hnext : ∀ t v, (isFirst = false → previous < t) →
        ∀ e ∈ (line.insert t v).entries, false = false ∧ e.1 ≤ t := by
      intro t v ht e he
      rw [entries_insert_of_lt (hlast t ht), List.mem_append, List.mem_singleton] at he
      rcases he with he | rfl
      · exact ⟨rfl, Int.le_of_lt (hlast t ht e he)⟩
      · exact ⟨rfl, Int.le_refl t⟩
    rw [decodeEntries_succ_eq_ok_iff]
    constructor
    · rintro ⟨distance, afterKey, v, afterValue, hkey, hrange, ht, hval, hread⟩
      obtain ⟨stored, hlisted, rfl, hrep, hafter, hinc, hentries⟩ := (ih (hnext _ v ht)).1 hread
      refine ⟨(distance, v) :: stored, .cons hkey hval hlisted, rfl, ?_, ?_, ?_, ?_⟩
      · exact List.forall_mem_cons.2 ⟨hrange, hrep⟩
      · exact fun hfirst => List.forall_mem_cons.2
          ⟨ht hfirst, fun e he => Int.lt_trans (ht hfirst) (hafter rfl e he)⟩
      · exact List.pairwise_cons.2 ⟨hafter rfl, hinc⟩
      · rw [hentries, entries_insert_of_lt (hlast _ ht), List.append_assoc]
        rfl
    · rintro ⟨stored, hlisted, hlength, hrep, hfirst, hinc, hentries⟩
      cases hlisted with
      | nil => exact absurd hlength (by simp)
      | @cons _ afterKey afterValue _ distance v stored hkey hval hlisted =>
        obtain ⟨hrange, hrep⟩ := List.forall_mem_cons.1 hrep
        obtain ⟨hafter, hinc⟩ := List.pairwise_cons.1 hinc
        have ht : isFirst = false → previous < previous + distance.toInt := fun h =>
          hfirst h _ List.mem_cons_self
        refine ⟨distance, afterKey, v, afterValue, hkey, hrange, ht, hval, (ih (hnext _ v ht)).2
          ⟨stored, hlisted, Nat.succ.inj hlength, hrep, fun _ => hafter, hinc, ?_⟩⟩
        rw [hentries, entries_insert_of_lt (hlast _ ht), List.append_assoc]
        rfl

/-- **A timeline is read from bytes just when they store it.** -/
theorem decode_eq_ok_iff {bytes rest : Bytes} {line : Timeline V} :
    (Timeline.codec value).decode bytes = .ok (line, rest) ↔
      ∃ stored, StoredAs value bytes stored rest ∧ line.entries = keysFrom 0 stored := by
  have hempty : ∀ e ∈ (SortedMap.empty : Timeline V).entries, true = false ∧ e.1 ≤ 0 := by simp
  constructor
  · intro hread
    obtain ⟨⟨count, entries⟩, hcount, hread⟩ := Codec.ok_of_bind hread
    obtain ⟨stored, hlisted, rfl, hrep, -, hinc, hentries⟩ :=
      (decodeEntries_eq_ok_iff hempty).1 hread
    exact ⟨stored, ⟨⟨entries, Codec.mapError_eq_ok_iff.1 hcount, hlisted⟩, hrep, hinc⟩, hentries⟩
  · rintro ⟨stored, ⟨⟨entries, hcount, hlisted⟩, hrep, hinc⟩, hentries⟩
    simp only [codec, hcount, Codec.mapError_ok, bind, Except.bind]
    exact (decodeEntries_eq_ok_iff hempty).2
      ⟨stored, hlisted, rfl, hrep, fun h => absurd h (by simp), hinc, hentries⟩

/-- No entry is lost: the map that has the entries of some bytes gives each value under its key. -/
theorem get?_of_entries {line : Timeline V} {stored : List (Int64 × V)}
    (h : line.entries = keysFrom 0 stored) {i : Nat} (hi : i < stored.length) :
    line.get? (reached 0 (stored.take (i + 1))) = some (stored[i]).2 := by
  have hentry := getElem?_keysFrom 0 stored i
  rw [List.getElem?_eq_getElem hi, Option.map_some, ← h] at hentry
  exact SortedMap.get?_eq_some_iff.2 (List.mem_of_getElem? hentry)

end Timeline

/-! ### Tracks -/

variable {V : Type}

/-- The timeline of a track can be read just when one is stored under its handle. -/
theorem Track.stored_eq_ok_iff {value : Codec Failure V} {track : Track V} {log : Log}
    {line : Timeline V} :
    track.stored value log = .ok line ↔ track.handle ≤ log.length ∧ ∃ stored rest,
      Timeline.StoredAs value (log.contents.drop track.handle) stored rest ∧
        line.entries = Timeline.keysFrom 0 stored := by
  constructor
  · intro hline
    obtain ⟨bytes, hbytes, hline⟩ := Codec.ok_of_bind hline
    obtain ⟨⟨line', rest⟩, hread, hline⟩ := Codec.ok_of_bind hline
    obtain rfl : line' = line := by simpa [pure, Except.pure] using hline
    replace hbytes := Codec.mapError_eq_ok_iff.1 hbytes
    simp only [Log.since] at hbytes
    split at hbytes
    · exact absurd hbytes (by simp)
    next hhandle =>
    obtain rfl := Except.ok.inj hbytes
    obtain ⟨stored, hstored, hentries⟩ := Timeline.decode_eq_ok_iff.1 hread
    exact ⟨Nat.not_lt.1 hhandle, stored, rest, hstored, hentries⟩
  · rintro ⟨hhandle, stored, rest, hstored, hentries⟩
    have hread := Timeline.decode_eq_ok_iff.2 ⟨stored, hstored, hentries⟩
    simp only [Track.stored, Log.since, if_neg (Nat.not_lt.2 hhandle), Codec.mapError_ok,
      bind, Except.bind, hread, pure, Except.pure]

/-- **Loading is all or nothing**, for values of every form, at every handle of every log, whether
or not the track was loaded before. It fails and leaves the track as it was, and then no timeline is
stored there; or it gives the track the one timeline that is stored there. That one has as many
entries as the count says: the keys are the running sums of the distances, none of them too great
for the clock and each greater than the one before, and under each of them is the value that was
stored with it. -/
theorem load_all_or_nothing (value : Codec Failure V) (track : Track V) (log : Log) :
    (∃ failure, track.load value log = .fail track failure ∧
      ∀ stored rest, ¬ (track.handle ≤ log.length ∧
        Timeline.StoredAs value (log.contents.drop track.handle) stored rest)) ∨
    ∃ stored rest line,
      track.load value log = .done ⟨track.handle, some line⟩ ∧
      track.handle ≤ log.length ∧
      Timeline.StoredAs value (log.contents.drop track.handle) stored rest ∧
      (∀ stored' rest', Timeline.StoredAs value (log.contents.drop track.handle) stored' rest' →
        stored' = stored) ∧
      line.entries = Timeline.keysFrom 0 stored ∧ line.size = stored.length ∧
      ∀ (i : Nat) (hi : i < stored.length),
        line.get? (Timeline.reached 0 (stored.take (i + 1))) = some (stored[i]).2 := by
  cases h : track.stored value log with
  | error failure =>
    refine .inl ⟨failure, Track.load_of_error h, ?_⟩
    rintro stored rest ⟨hhandle, hstored⟩
    have hsorted := hstored.increasing.imp Timeline.before_iff.2
    have hok := Track.stored_eq_ok_iff.2
      ⟨hhandle, stored, rest, hstored, show (⟨_, hsorted⟩ : Timeline V).entries = _ from rfl⟩
    exact absurd (hok.symm.trans h) (by simp)
  | ok line =>
    obtain ⟨hhandle, stored, rest, hstored, hentries⟩ := Track.stored_eq_ok_iff.1 h
    refine .inr ⟨stored, rest, line, Track.load_of_stored h, hhandle, hstored,
      fun _ _ h' => (h'.unique hstored).1, hentries, ?_, fun i hi => ?_⟩
    · rw [SortedMap.size, hentries, Timeline.length_keysFrom]
    · exact Timeline.get?_of_entries hentries hi

/-- Two levels at one moment are refused, although a map would take them both. -/
example : ((Track.atHandle 0).load Stored.level
    (.ofBytes none [2, 5, 0, 0, 0, 0, 0, 0, 0, 0, 0])).isOk = false := by decide +kernel

end Playhead
