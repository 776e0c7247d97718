import Playhead.Log.Basic
import Playhead.Proofs.Outcome
import Playhead.Proofs.Timeline
import Playhead.Timeline.Track

/-!
# What a log holds

A region is written once and read many times, with more and more behind it. `Playhead.Log.Holds`
says that a value can be read under a handle, whatever follows it in the log; so it survives every
growth of the log (`Playhead.Log.Holds.grow`), and a region that has just been written holds what
its codec reads back (`Playhead.Log.holds_commit`). What the codec would not read back is refused
just as lastingly (`Playhead.Log.Refuses`); what can be said of both is that the bytes are there
(`Playhead.Log.Has`). For timelines that is
`Playhead.Log.holds_commitTimeline`, and a track at such a handle loads
(`Playhead.Log.Holds.load_track`).
-/

namespace Playhead

open Wire (Codec)

/-! ### Loading a track -/

namespace Track

variable {V : Type} {track track' : Track V} {value : Codec Failure V} {log : Log}

theorem load_of_stored {line : Timeline V} (h : track.stored value log = .ok line) :
    track.load value log = .done ⟨track.handle, some line⟩ := by
  rw [load, h]

/-- **A track that does not load is as it was.** -/
theorem load_of_error {failure : Failure} (h : track.stored value log = .error failure) :
    track.load value log = .fail track failure := by
  rw [load, h]

/-- A track loads just when its timeline can be read. -/
theorem load_eq_done_iff : track.load value log = .done track' ↔
    ∃ line, track.stored value log = .ok line ∧ track' = ⟨track.handle, some line⟩ := by
  cases h : track.stored value log with
  | error failure => simp [load_of_error h]
  | ok line => simp [load_of_stored h, eq_comm]

/-- What is loaded already makes no difference to a track that loads. -/
theorem load_reload {handle : Handle} {loaded : Option (Timeline V)}
    (h : (Track.mk handle loaded).load value log = .done track') (loaded' : Option (Timeline V)) :
    (Track.mk handle loaded').load value log = .done track' := by
  obtain ⟨line, hline, htrack⟩ := load_eq_done_iff.1 h
  exact load_eq_done_iff.2 ⟨line, hline, htrack⟩

/-- Loading shows nothing to the client. -/
theorem emitted_load (track : Track V) (value : Codec Failure V) (log : Log) :
    (track.load value log).emitted = [] := by
  rw [load]
  split <;> rfl

/-- Loading keeps the handle, whether or not it succeeds. -/
theorem handle_load (track : Track V) (value : Codec Failure V) (log : Log) :
    (track.load value log).state.handle = track.handle := by
  rw [load]
  split <;> rfl

end Track

namespace Log

variable {ε α V : Type}

/-! ### Growth -/

/-- A log that has been written to: nothing that was there is gone. -/
structure GrowsTo (log log' : Log) : Prop where
  compression : log'.compression = log.compression
  faithful : log'.Faithful
  contents : ∃ more, log'.contents = log.contents ++ more

namespace GrowsTo

variable {log log' log'' : Log}

theorem refl (h : log.Faithful) : log.GrowsTo log :=
  ⟨rfl, h, [], (List.append_nil _).symm⟩

theorem trans (h : log.GrowsTo log') (h' : log'.GrowsTo log'') : log.GrowsTo log'' := by
  obtain ⟨more, hmore⟩ := h.contents
  obtain ⟨more', hmore'⟩ := h'.contents
  refine ⟨h'.compression.trans h.compression, h'.faithful, more ++ more', ?_⟩
  rw [hmore', hmore, List.append_assoc]

end GrowsTo

/-- A commit is an addition to the log. -/
theorem growsTo_commit {log : Log} (h : log.Faithful) (bytes : Bytes) :
    log.GrowsTo (log.commit bytes).2 where
  compression := by
    obtain ⟨storage, compression⟩ := log
    cases storage <;> rfl
  faithful := by
    rw [Faithful, contents_commit log h, length_commit, List.length_append, h]
  contents := ⟨bytes, contents_commit log h bytes⟩

/-! ### Held values -/

/-- What is read under a handle has a property, whatever is written later. -/
def Reads (log : Log) (codec : Codec ε α) (handle : Handle)
    (P : Except ε (α × Bytes) → Prop) : Prop :=
  handle ≤ log.length ∧ ∀ more, P (codec.decode (log.contents.drop handle ++ more))

/-- Under a handle there is a value. -/
def Holds (log : Log) (codec : Codec ε α) (handle : Handle) (v : α) : Prop :=
  log.Reads codec handle fun read => ∃ rest, read = .ok (v, rest)

/-- Under a handle there is nothing that can be read. -/
def Refuses (log : Log) (codec : Codec ε α) (handle : Handle) : Prop :=
  log.Reads codec handle fun read => ∃ e, read = .error e

/-- What is read in a log is read in every later one. -/
theorem Reads.grow {log log' : Log} {codec : Codec ε α} {handle : Handle}
    {P : Except ε (α × Bytes) → Prop} (h : log.Reads codec handle P) (hlog : log.Faithful)
    (hgrow : log.GrowsTo log') : log'.Reads codec handle P := by
  obtain ⟨hle, hread⟩ := h
  obtain ⟨more, hmore⟩ := hgrow.contents
  have hlength : handle ≤ log.contents.length := by rw [hlog]; exact hle
  refine ⟨?_, fun more' => ?_⟩
  · rw [← hgrow.faithful, hmore, List.length_append]
    exact Nat.le_add_right_of_le hlength
  · rw [hmore, List.drop_append_of_le_length hlength, List.append_assoc]
    exact hread (more ++ more')

/-- What is held in a log is held in every later one. -/
theorem Holds.grow {log log' : Log} {codec : Codec ε α} {handle : Handle} {v : α}
    (h : log.Holds codec handle v) (hlog : log.Faithful) (hgrow : log.GrowsTo log') :
    log'.Holds codec handle v :=
  Reads.grow h hlog hgrow

/-- Of a region that has been written the bytes are read. -/
theorem reads_commit {log : Log} (hlog : log.Faithful) {codec : Codec ε α} {bytes : Bytes}
    {P : Except ε (α × Bytes) → Prop} (h : ∀ rest, P (codec.decode (bytes ++ rest))) :
    (log.commit bytes).2.Reads codec (log.commit bytes).1 P := by
  rw [handle_commit]
  refine ⟨by rw [length_commit]; exact Nat.le_add_right _ _, fun more => ?_⟩
  rw [contents_commit log hlog, ← hlog, List.drop_left]
  exact h more

/-- A region that has been written holds what its bytes spell. -/
theorem holds_commit {log : Log} (hlog : log.Faithful) {codec : Codec ε α} {bytes : Bytes} {v : α}
    (h : ∀ rest, codec.decode (bytes ++ rest) = .ok (v, rest)) :
    (log.commit bytes).2.Holds codec (log.commit bytes).1 v :=
  reads_commit hlog fun rest => ⟨rest, h rest⟩

/-- What a log holds is there to be read. -/
theorem Holds.read {log : Log} {codec : Codec ε α} {handle : Handle} {v : α}
    (h : log.Holds codec handle v) :
    log.since handle = .ok (log.contents.drop handle) ∧
      ∃ rest, codec.decode (log.contents.drop handle) = .ok (v, rest) := by
  obtain ⟨rest, hrest⟩ := h.2 []
  rw [List.append_nil] at hrest
  exact ⟨by rw [since, if_neg (Nat.not_lt.2 h.1)], rest, hrest⟩

/-- What a log refuses cannot be read. -/
theorem Refuses.read {log : Log} {codec : Codec ε α} {handle : Handle}
    (h : log.Refuses codec handle) : ∃ e, codec.decode (log.contents.drop handle) = .error e := by
  obtain ⟨e, he⟩ := h.2 []
  rw [List.append_nil] at he
  exact ⟨e, he⟩

/-! ### Written values -/

/-- Under a handle there are the bytes of a value, which need not read back as that value. -/
structure Has (log : Log) (codec : Codec ε α) (handle : Handle) (v : α) : Prop where
  le : handle ≤ log.length
  bytes : ∃ bytes, codec.encode v = .ok bytes ∧ bytes <+: log.contents.drop handle

/-- The bytes of a value are in the log to which they were committed. -/
theorem has_commit {log : Log} (hlog : log.Faithful) {codec : Codec ε α} {v : α} {bytes : Bytes}
    (h : codec.encode v = .ok bytes) :
    (log.commit bytes).2.Has codec (log.commit bytes).1 v := by
  rw [handle_commit]
  refine ⟨by rw [length_commit]; exact Nat.le_add_right _ _, bytes, h, [], ?_⟩
  rw [List.append_nil, contents_commit log hlog, ← hlog, List.drop_left]

/-- Bytes that are in a log are in every later one. -/
theorem Has.grow {log log' : Log} {codec : Codec ε α} {handle : Handle} {v : α}
    (h : log.Has codec handle v) (hlog : log.Faithful) (hgrow : log.GrowsTo log') :
    log'.Has codec handle v := by
  obtain ⟨hle, bytes, hbytes, hprefix⟩ := h
  obtain ⟨more, hmore⟩ := hgrow.contents
  have hlength : handle ≤ log.contents.length := by rw [hlog]; exact hle
  refine ⟨?_, bytes, hbytes, ?_⟩
  · rw [← hgrow.faithful, hmore, List.length_append]
    exact Nat.le_add_right_of_le hlength
  · rw [hmore, List.drop_append_of_le_length hlength]
    exact hprefix.trans (List.prefix_append _ _)

/-- What is read of a value that has been written is what its bytes spell. -/
theorem Has.reads {β : Type} {log : Log} {codec : Codec ε α} {handle : Handle} {v : α}
    (h : log.Has codec handle v) {reader : Codec ε β} {P : Except ε (β × Bytes) → Prop}
    (hread : ∀ bytes rest, codec.encode v = .ok bytes → P (reader.decode (bytes ++ rest))) :
    log.Reads reader handle P := by
  obtain ⟨hle, bytes, hbytes, rest, hrest⟩ := h
  refine ⟨hle, fun more => ?_⟩
  rw [← hrest, List.append_assoc]
  exact hread bytes _ hbytes

/-! ### Timelines -/

/-- A timeline that is held is loaded by the track that stands for it. -/
theorem Holds.load_track {log : Log} {value : Codec Failure V} {handle : Handle}
    {line : Timeline V} (h : log.Holds (Timeline.codec value) handle line)
    (loaded : Option (Timeline V)) :
    (Track.mk handle loaded).load value log = .done ⟨handle, some line⟩ := by
  obtain ⟨hsince, rest, hrest⟩ := h.read
  refine Track.load_of_stored ?_
  simp only [Track.stored, hsince, Codec.mapError_ok, bind, Except.bind, hrest, pure, Except.pure]

/-- A timeline that is refused is not loaded, and the track stays as it was. -/
theorem Refuses.load_track {log : Log} {value : Codec Failure V} {handle : Handle}
    (h : log.Refuses (Timeline.codec value) handle) (loaded : Option (Timeline V)) :
    ∃ e, (Track.mk handle loaded).load value log = .fail ⟨handle, loaded⟩ e := by
  obtain ⟨e, he⟩ := h.read
  refine ⟨e, Track.load_of_error ?_⟩
  simp only [Track.stored, since, if_neg (Nat.not_lt.2 h.1), Codec.mapError_ok, bind, Except.bind,
    he]

/-- A timeline that has been written is held, with its values as they are read back. -/
theorem holds_commitTimeline {log log' : Log} (hlog : log.Faithful) {value : Codec Failure V}
    {line : Timeline V} {handle : Handle} (h : log.commitTimeline value line = .ok (handle, log'))
    {back : V → Option V} (hvalue : value.ReadsBack back) {f : V → V}
    (hfit : Timeline.StepsFit 0 line.entries)
    (hback : ∀ e ∈ line.entries, back e.2 = some (f e.2)) :
    log.GrowsTo log' ∧ log'.Holds (Timeline.codec value) handle (line.map fun _ v => f v) := by
  obtain ⟨bytes, hbytes, h⟩ := Codec.ok_of_bind h
  obtain ⟨rfl, rfl⟩ : (log.commit bytes).1 = handle ∧ (log.commit bytes).2 = log' := by
    simpa [pure, Except.pure, Prod.ext_iff] using h
  exact ⟨growsTo_commit hlog bytes,
    holds_commit hlog fun rest => Timeline.decode_encode hvalue hfit hback hbytes rest⟩

/-- A timeline whose values are read back as they are is held as it is. -/
theorem holds_commitTimeline_self {log log' : Log} (hlog : log.Faithful) {value : Codec Failure V}
    {line : Timeline V} {handle : Handle} (h : log.commitTimeline value line = .ok (handle, log'))
    {back : V → Option V} (hvalue : value.ReadsBack back)
    (hfit : Timeline.StepsFit 0 line.entries) (hback : ∀ e ∈ line.entries, back e.2 = some e.2) :
    log.GrowsTo log' ∧ log'.Holds (Timeline.codec value) handle line := by
  have hheld := holds_commitTimeline hlog h hvalue (f := id) hfit hback
  rwa [show (line.map fun _ v => id v) = line from line.map_id] at hheld

end Log

end Playhead
