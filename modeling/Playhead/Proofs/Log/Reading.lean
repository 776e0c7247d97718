import Playhead.Log.Basic

/-!
# What a reader delivers

A reader of a log is known by the bytes that it has still to deliver (`Playhead.LogReader.left`).
For a reader of a file these are the bytes in its buffer and those of its range that it has not
fetched; neither the offset of the file nor the number of reads so far has a part in them. Hence a
read takes bytes off the front and leaves the rest (`Playhead.LogReader.read_delivers`), reading
until enough came takes as many as were asked for (`Playhead.LogReader.take_delivers`), and what
happens to the log in between, by other readers or by writing behind its end, does not matter
(`Playhead.LogReader.left_append`).

All that is asked of the file is that it holds the log and nothing else (`Playhead.Log.Whole`), so
that a reader's range lies in it: a read of a nonempty range gives a byte at least, however few the
file is willing to give.
-/

namespace Playhead

/-! ### Readers of a file -/

namespace FileReader

variable {file : File} {reader : FileReader} {want : Nat}

/-- The bytes that a reader has still to deliver, from a file with the given contents. -/
def unread (contents : Bytes) (reader : FileReader) : Bytes :=
  reader.buffer ++ (contents.take reader.stop).drop reader.position

/-- **What is given is taken off the front**, and the file keeps its contents. -/
structure Delivers (file : File) (reader : FileReader) (result : Bytes × File × FileReader) :
    Prop where
  contents : result.2.1.contents = file.contents
  stop : result.2.2.stop = reader.stop
  unread : result.1 ++ result.2.2.unread file.contents = reader.unread file.contents

/-- No more than `want` bytes are given, and none only if none is wanted or there is none. -/
structure DeliversSome (file : File) (reader : FileReader) (want : Nat)
    (result : Bytes × File × FileReader) : Prop extends Delivers file reader result where
  length_le : result.1.length ≤ want
  progress : result.1 = [] → want = 0 ∨ reader.unread file.contents = []

/-- The range of a reader that has fetched all of it is used up. -/
theorem unread_of_le (contents : Bytes) (h : reader.stop ≤ reader.position) :
    reader.unread contents = reader.buffer := by
  rw [unread, List.drop_eq_nil_of_le, List.append_nil]
  rw [List.length_take]
  exact Nat.le_trans (Nat.min_le_left _ _) h

/-- Bytes from the front of a range, and those of the range behind them. -/
theorem take_append_range {contents : Bytes} {position stop n : Nat} (h : position + n ≤ stop) :
    (contents.drop position).take n ++ (contents.take stop).drop (position + n) =
      (contents.take stop).drop position := by
  have hfront : (contents.drop position).take n = ((contents.take stop).drop position).take n := by
    rw [List.drop_take, List.take_take, Nat.min_eq_left (by omega)]
  rw [hfront, ← List.drop_drop, List.take_append_drop]

/-- Fetching moves the position behind what was given. -/
theorem readThrough_delivers (hstop : reader.stop ≤ file.contents.length)
    (hbuffer : reader.buffer = []) (want : Nat) :
    DeliversSome file reader want (reader.readThrough file want) := by
  simp only [readThrough]
  split
  · next hzero =>
    refine ⟨⟨rfl, rfl, List.nil_append _⟩, Nat.zero_le _, fun _ => ?_⟩
    rcases Nat.eq_zero_or_pos want with hwant | hwant
    · exact .inl hwant
    · exact .inr (by rw [unread_of_le _ (by omega), hbuffer])
  · next hpos =>
    -- the bytes given lie in the range, and there is one at least
    have hlength : ((file.contents.drop reader.position).take (min
        (min want (reader.stop - reader.position)) (file.grant file.reads + 1))).length =
          min (min want (reader.stop - reader.position)) (file.grant file.reads + 1) := by
      rw [List.length_take, List.length_drop]
      omega
    simp only [File.read, File.seek, hlength]
    generalize hn : min (min want (reader.stop - reader.position)) (file.grant file.reads + 1) = n
    have hle : reader.position + n ≤ reader.stop := by omega
    refine ⟨⟨rfl, rfl, ?_⟩, ?_, fun hnil => ?_⟩
    · simp only [unread, hbuffer, List.nil_append]
      exact take_append_range hle
    · rw [List.length_take]
      omega
    · exfalso
      have hzero := congrArg List.length hnil
      rw [List.length_take, List.length_drop, List.length_nil] at hzero
      omega

/-- Reading past the buffer leaves the buffer alone. -/
theorem buffer_readThrough (reader : FileReader) (file : File) (want : Nat) :
    (reader.readThrough file want).2.2.buffer = reader.buffer := by
  simp only [readThrough]
  split <;> rfl

/-- **A read gives bytes off the front**, how many of them is up to the buffer and the file. -/
theorem read_delivers (hstop : reader.stop ≤ file.contents.length) (want : Nat) :
    DeliversSome file reader want (reader.read file want) := by
  simp only [read]
  split
  · next h =>
    simp only [Bool.and_eq_true, List.isEmpty_iff] at h
    exact readThrough_delivers hstop h.1 want
  · -- the buffer holds something, unless there is nothing left
    generalize hfilled : (if reader.buffer.isEmpty then reader.readThrough file capacity
      else (reader.buffer, file, reader)) = filled
    obtain ⟨hcontents, hstop', hunread, hnil⟩ : filled.2.1.contents = file.contents ∧
        filled.2.2.stop = reader.stop ∧
        filled.1 ++ (file.contents.take reader.stop).drop filled.2.2.position =
          reader.unread file.contents ∧
        (filled.1 = [] → reader.unread file.contents = []) := by
      split at hfilled
      · next hbuffer =>
        have hlaw := readThrough_delivers hstop (List.isEmpty_iff.1 hbuffer) capacity
        have hkept := buffer_readThrough reader file capacity
        rw [hfilled] at hlaw hkept
        rw [List.isEmpty_iff.1 hbuffer] at hkept
        refine ⟨hlaw.contents, hlaw.stop, ?_, fun h => (hlaw.progress h).resolve_left (by decide)⟩
        rw [← hlaw.unread, unread, hkept, List.nil_append, hlaw.stop]
      · next hbuffer =>
        subst hfilled
        exact ⟨rfl, rfl, rfl, fun h => absurd (List.isEmpty_iff.2 h) hbuffer⟩
    obtain ⟨buffer, file', reader'⟩ := filled
    simp only at hcontents hstop' hunread hnil ⊢
    refine ⟨⟨hcontents, hstop', ?_⟩, ?_, fun h => ?_⟩
    · simp only [unread, hstop', ← List.append_assoc, List.take_append_drop]
      exact hunread
    · rw [List.length_take]
      exact Nat.min_le_left _ _
    · exact (List.take_eq_nil_iff.1 h).imp_right hnil

/-- **Reading until enough came gives exactly the first bytes**, whatever single reads gave. -/
theorem take_delivers (hstop : reader.stop ≤ file.contents.length) (want : Nat) :
    Delivers file reader (reader.take file want) ∧
      (reader.take file want).1 = (reader.unread file.contents).take want := by
  induction want using Nat.strongRecOn generalizing file reader with
  | ind want ih =>
    have hread := read_delivers hstop want
    rw [take]
    generalize reader.read file want = result at hread ⊢
    obtain ⟨given, file', reader'⟩ := result
    -- the read has given some of what there is, and the rest is still to come
    have hcontents : file'.contents = file.contents := hread.contents
    have hstop' : reader'.stop = reader.stop := hread.stop
    have hunread : given ++ reader'.unread file.contents = reader.unread file.contents :=
      hread.unread
    have hle : given.length ≤ want := hread.length_le
    simp only
    split
    · next hdone =>
      refine ⟨hread.toDelivers, ?_⟩
      rw [Bool.or_eq_true, List.isEmpty_iff, decide_eq_true_eq] at hdone
      rcases hdone with rfl | hfull
      · rcases hread.progress rfl with rfl | hnil
        · rfl
        · rw [hnil, List.take_nil]
      · rw [← hunread, List.take_append_of_le_length hfull, List.take_of_length_le hle]
    · next hmore =>
      rw [Bool.or_eq_true, List.isEmpty_iff, decide_eq_true_eq, not_or] at hmore
      have hpos := List.length_pos_iff.2 hmore.1
      obtain ⟨hlaw, hgiven⟩ := ih (want - given.length) (by omega)
        (show reader'.stop ≤ file'.contents.length by rw [hcontents, hstop']; exact hstop)
      refine ⟨⟨hlaw.contents.trans hcontents, hlaw.stop.trans hstop', ?_⟩, ?_⟩
      · have hrest := hlaw.unread
        rw [hcontents] at hrest
        rw [List.append_assoc, hrest, hunread]
      · rw [hcontents] at hgiven
        rw [hgiven, ← hunread, List.take_append, List.take_of_length_le hle]

end FileReader

/-! ### Logs and their storage -/

namespace Log

/-- The storage holds the log and nothing else. -/
def Whole (log : Log) : Prop :=
  match log.storage with
  | .memory _ => True
  | .file file length => file.contents.length = length

/-- The log is kept in a file. -/
def InFile (log : Log) : Prop :=
  ∃ file length, log.storage = .file file length

namespace Whole

variable {log : Log}

/-- The bytes of the log are those of its file. -/
theorem contents_eq (h : log.Whole) {file : File} {length : Nat}
    (hfile : log.storage = .file file length) : log.contents = file.contents := by
  simp only [Whole, hfile] at h
  simp only [Log.contents, hfile, ← h, List.take_length]

/-- A log that is whole is faithful. -/
theorem faithful (h : log.Whole) : log.Faithful := by
  cases hstorage : log.storage with
  | memory bytes => simp only [Faithful, Log.contents, Log.length, hstorage]
  | file file length =>
    rw [Faithful, h.contents_eq hstorage]
    simp only [Whole, hstorage] at h
    simp only [Log.length, hstorage, h]

/-- A commit leaves a whole log whole. -/
theorem commit (h : log.Whole) (bytes : Bytes) : (log.commit bytes).2.Whole := by
  obtain ⟨storage, compression⟩ := log
  cases storage with
  | memory old => trivial
  | file file length =>
    simp only [Whole] at h
    simp only [Whole, Log.commit, File.write, File.seek, List.length_append, List.length_take,
      List.length_drop]
    omega

theorem reopen (h : log.Whole) : log.reopen.Whole := by
  obtain ⟨storage, compression⟩ := log
  cases storage <;> trivial

/-- Closing a log and opening it again loses nothing. -/
theorem contents_reopen (h : log.Whole) : log.reopen.contents = log.contents := by
  obtain ⟨storage, compression⟩ := log
  cases storage with
  | memory bytes => rfl
  | file file length =>
    rw [h.contents_eq rfl]
    exact List.take_length

end Whole

/-- What becomes of a log: it stays in its storage, and nothing that was there is gone. -/
structure Continues (log log' : Log) : Prop where
  whole : log'.Whole
  inFile : log'.InFile ↔ log.InFile
  grows : log.contents <+: log'.contents

theorem Continues.trans {log log' log'' : Log} (h : log.Continues log')
    (h' : log'.Continues log'') : log.Continues log'' :=
  ⟨h'.whole, h'.inFile.trans h.inFile, h.grows.trans h'.grows⟩

/-- A log goes on when something is committed to it. -/
theorem Whole.continues_commit {log : Log} (h : log.Whole) (bytes : Bytes) :
    log.Continues (log.commit bytes).2 where
  whole := h.commit bytes
  inFile := by
    obtain ⟨storage, compression⟩ := log
    cases storage <;> simp [InFile, Log.commit]
  grows := ⟨bytes, (contents_commit log h.faithful bytes).symm⟩

/-- A log goes on when it is opened anew. -/
theorem Whole.continues_reopen {log : Log} (h : log.Whole) : log.Continues log.reopen where
  whole := h.reopen
  inFile := by
    obtain ⟨storage, compression⟩ := log
    cases storage <;> simp [InFile, Log.reopen]
  grows := ⟨[], by rw [List.append_nil, h.contents_reopen]⟩

end Log

/-! ### Readers of a log -/

namespace LogReader

variable {log log' : Log} {reader : LogReader} {want : Nat}

/-- The bytes that a reader has still to deliver. -/
def left (contents : Bytes) : LogReader → Bytes
  | .memory bytes => bytes
  | .file reader => reader.unread contents

/-- A reader of some log: it reads from the same storage, and its range lies in the log. -/
def Of (log : Log) : LogReader → Prop
  | .memory _ => ¬ log.InFile
  | .file reader => log.InFile ∧ reader.stop ≤ log.contents.length

/-- A reader of a log is a reader of what the log goes on as. -/
theorem Of.continues (h : reader.Of log) (hlog : log.Continues log') : reader.Of log' := by
  cases reader with
  | memory bytes => exact fun hfile => h (hlog.inFile.1 hfile)
  | file reader => exact ⟨hlog.inFile.2 h.1, Nat.le_trans h.2 hlog.grows.length_le⟩

/-- **What is written behind the end of a log is not delivered by a reader that is open.** -/
theorem Of.left_eq (h : reader.Of log) (hlog : log.Continues log') :
    reader.left log'.contents = reader.left log.contents := by
  cases reader with
  | memory bytes => rfl
  | file reader =>
    obtain ⟨more, hmore⟩ := hlog.grows
    simp only [left, FileReader.unread, ← hmore, List.take_append_of_le_length h.2]

/-- A reader begins at its handle and ends where the log ends. -/
theorem openAt_eq (h : log.Whole) (handle : Handle) :
    (log.contents.length < handle ∧
      openAt log handle = .error (.outOfBounds handle log.contents.length)) ∨
    (handle ≤ log.contents.length ∧ ∃ reader, openAt log handle = .ok reader ∧ reader.Of log ∧
      reader.left log.contents = log.contents.drop handle) := by
  rw [openAt, h.faithful]
  by_cases hhandle : log.length < handle
  · exact .inl ⟨hhandle, if_pos hhandle⟩
  rw [if_neg hhandle]
  refine .inr ⟨Nat.not_lt.1 hhandle, ?_⟩
  cases hstorage : log.storage with
  | memory bytes =>
    refine ⟨_, rfl, fun ⟨_, _, hfile⟩ => ?_, ?_⟩
    · rw [hstorage] at hfile
      cases hfile
    · simp only [left, Log.contents, hstorage]
  | file file length =>
    have hlength : log.contents.length = length := by
      rw [h.faithful]
      simp only [Log.length, hstorage]
    refine ⟨_, rfl, ⟨⟨file, length, hstorage⟩, Nat.le_of_eq hlength.symm⟩, ?_⟩
    simp only [left, FileReader.unread, List.nil_append, ← hlength, List.take_length]

/-- One read. From memory it gives all that is asked for; a read of a file moves the file's offset,
so the log comes back changed. -/
def read (reader : LogReader) (log : Log) (want : Nat) : Bytes × Log × LogReader :=
  match reader, log.storage with
  | .memory left, _ => (left.take want, log, .memory (left.drop want))
  | .file reader, .file shared length =>
    let (given, shared, reader) := reader.read shared want
    (given, { log with storage := .file shared length }, .file reader)
  | .file _, .memory _ => ([], log, reader)

/-- **What is given is taken off the front**, and the log keeps its bytes. -/
structure Delivers (log : Log) (reader : LogReader) (result : Bytes × Log × LogReader) :
    Prop where
  continues : log.Continues result.2.1
  contents : result.2.1.contents = log.contents
  reads : result.2.2.Of result.2.1
  left : result.1 ++ result.2.2.left log.contents = reader.left log.contents

/-- A log in memory does not change when it is read. -/
theorem delivers_memory (h : log.Whole) {left : Bytes} (hreader : (memory left).Of log)
    (want : Nat) : Delivers log (.memory left) (left.take want, log, .memory (left.drop want)) where
  continues := ⟨h, Iff.rfl, List.prefix_refl _⟩
  contents := rfl
  reads := hreader
  left := List.take_append_drop want left

/-- A log in a file changes the file's offset alone when it is read. -/
theorem delivers_file (h : log.Whole) {shared : File} {length : Nat}
    (hstorage : log.storage = .file shared length) {reader : FileReader}
    (hreader : (file reader).Of log) {result : Bytes × File × FileReader}
    (hresult : reader.Delivers shared result) :
    Delivers log (.file reader)
      (result.1, { log with storage := .file result.2.1 length }, .file result.2.2) := by
  have hcontents := h.contents_eq hstorage
  have hwhole : Log.Whole { log with storage := .file result.2.1 length } := by
    simp only [Log.Whole, hstorage] at h
    simp only [Log.Whole, hresult.contents, h]
  have hsame : Log.contents { log with storage := .file result.2.1 length } = log.contents := by
    rw [hwhole.contents_eq rfl, hresult.contents, hcontents]
  have hinFile : Log.InFile { log with storage := .file result.2.1 length } := ⟨_, _, rfl⟩
  have hgrows : log.contents <+: Log.contents { log with storage := .file result.2.1 length } :=
    ⟨[], by rw [List.append_nil, hsame]⟩
  refine ⟨⟨hwhole, iff_of_true hinFile hreader.1, hgrows⟩, hsame, ⟨hinFile, ?_⟩, ?_⟩
  · rw [hsame, hresult.stop]
    exact hreader.2
  · simp only [LogReader.left, hcontents]
    exact hresult.unread

/-- **A read gives bytes off the front**: no more than were asked for, and one at least unless none
was asked for or none is left. -/
theorem read_delivers (h : log.Whole) (hreader : reader.Of log) (want : Nat) :
    Delivers log reader (reader.read log want) ∧ (reader.read log want).1.length ≤ want ∧
      ((reader.read log want).1 = [] → want = 0 ∨ reader.left log.contents = []) := by
  cases reader with
  | memory left =>
    refine ⟨delivers_memory h hreader want, ?_, List.take_eq_nil_iff.1⟩
    simp only [read, List.length_take]
    exact Nat.min_le_left _ _
  | file reader =>
    obtain ⟨⟨shared, length, hstorage⟩, hstop⟩ := id hreader
    have hcontents := h.contents_eq hstorage
    have hlaw := FileReader.read_delivers (hcontents ▸ hstop) want
    simp only [read, hstorage]
    refine ⟨delivers_file h hstorage hreader hlaw.toDelivers, hlaw.length_le, ?_⟩
    rw [left, hcontents]
    exact hlaw.progress

/-- **Reading until enough came gives exactly the first bytes** of what is left. -/
theorem take_delivers (h : log.Whole) (hreader : reader.Of log) (want : Nat) :
    Delivers log reader (reader.take log want) ∧
      (reader.take log want).1 = (reader.left log.contents).take want := by
  cases reader with
  | memory left => exact ⟨delivers_memory h hreader want, rfl⟩
  | file reader =>
    obtain ⟨⟨shared, length, hstorage⟩, hstop⟩ := id hreader
    have hcontents := h.contents_eq hstorage
    obtain ⟨hlaw, hgiven⟩ := FileReader.take_delivers (hcontents ▸ hstop) want
    simp only [take, hstorage]
    refine ⟨delivers_file h hstorage hreader hlaw, ?_⟩
    rw [left, hcontents]
    exact hgiven

/-- A log in memory gives all that is asked for at once. -/
theorem read_eq_take (hlog : ¬ log.InFile) (hreader : reader.Of log) (want : Nat) :
    reader.read log want = reader.take log want := by
  cases reader with
  | memory left => rfl
  | file reader => exact absurd hreader.1 hlog

end LogReader

end Playhead
