import Playhead.Failure
import Playhead.Log.File
import Playhead.Wire.Frame

/-!
# The append-only log

An index lives in a log of regions. A region is written whole (`Playhead.Log.commit`), is never
changed afterwards, and is found again under its handle: the number of bytes before it. Loading
reads from a handle on (`Playhead.Log.since`), up to the end the log had when the reader was opened.

There are two storages, bytes in memory and a file. They differ in how bytes are kept and read,
not in what is read: `Playhead.Log.contents` is the view that both implement, and
`Playhead.Log.contents_commit` says so of writing. Readers that are used in turns are
`Playhead.LogReader`s.
-/

namespace Playhead

/-- Where the bytes of a log are kept. -/
inductive Storage where
  | memory (bytes : Bytes)
  /-- A file, of which the first `length` bytes belong to the log. -/
  | file (file : File) (length : Nat)

/-- A log, and how packets written to it are compressed, if they are. -/
structure Log where
  storage : Storage
  compression : Option Compression

/-- What a row of writes leaves that fails: the regions written before stay in the log. -/
structure Unfinished where
  failure : Failure
  log : Log

/-- A region that is being written, and the size from which on packets in it are compressed. -/
structure Region where
  threshold : Option Nat
  bytes : Bytes
  deriving DecidableEq, Repr

/-- A region with more bytes at its end. -/
def Region.write (region : Region) (bytes : Bytes) : Region :=
  { region with bytes := region.bytes ++ bytes }

/-- The size from which on packets are compressed unless something else is asked for. -/
def defaultThreshold : Nat := 256

namespace Log

/-- An empty log in memory. -/
def inMemory (compression : Option Compression) : Log :=
  ⟨.memory [], compression⟩

/-- A log of the given bytes in memory. -/
def ofBytes (compression : Option Compression) (bytes : Bytes) : Log :=
  ⟨.memory bytes, compression⟩

/-- An empty log in a file. -/
def inFile (compression : Option Compression) (grant : Nat → Nat) : Log :=
  ⟨.file (.empty grant) 0, compression⟩

/-- The bytes of all regions. -/
def contents (log : Log) : Bytes :=
  match log.storage with
  | .memory bytes => bytes
  | .file file length => file.contents.take length

/-- The number of bytes in the log. -/
def length (log : Log) : Nat :=
  match log.storage with
  | .memory bytes => bytes.length
  | .file _ length => length

/-- The size from which on packets are compressed. -/
def threshold (log : Log) : Option Nat :=
  log.compression.map (·.limit)

/-- An empty region for this log. -/
def region (log : Log) : Region :=
  ⟨log.threshold, []⟩

/-- Appends a region; its handle and the longer log. -/
def commit (log : Log) (bytes : Bytes) : Handle × Log :=
  match log.storage with
  | .memory old => (old.length, { log with storage := .memory (old ++ bytes) })
  | .file file length =>
    (length, { log with storage := .file ((file.seek length).write bytes) (length + bytes.length) })

/-- The bytes from a handle to the end of the log. -/
def since (log : Log) (handle : Handle) : Except LogFault Bytes :=
  if log.length < handle then .error (.outOfBounds handle log.length)
  else .ok (log.contents.drop handle)

/-- The log after closing and opening its file again; a log in memory has no file. -/
def reopen (log : Log) : Log :=
  match log.storage with
  | .memory _ => log
  | .file file _ =>
    { log with storage := .file { file with offset := 0 } file.contents.length }

end Log

/-- A reader of a log. -/
inductive LogReader where
  | memory (left : Bytes)
  | file (reader : FileReader)

namespace LogReader

/-- A reader from a handle to the end that the log has now. -/
def openAt (log : Log) (handle : Handle) : Except LogFault LogReader :=
  if log.length < handle then .error (.outOfBounds handle log.length)
  else
    match log.storage with
    | .memory bytes => .ok (.memory (bytes.drop handle))
    | .file _ length => .ok (.file ⟨handle, length, []⟩)

/-- Reads until there are `want` bytes or no more come. Reading from a file moves the file's
offset, so the log comes back changed. -/
def take (reader : LogReader) (log : Log) (want : Nat) : Bytes × Log × LogReader :=
  match reader, log.storage with
  | .memory left, _ => (left.take want, log, .memory (left.drop want))
  | .file reader, .file shared length =>
    let (given, shared, reader) := reader.take shared want
    (given, { log with storage := .file shared length }, .file reader)
  | .file _, .memory _ => ([], log, reader)

end LogReader

/-- Readers take turns: each turn names a reader and how much it takes at most. What each turn
gives. A turn of a reader that is not there gives nothing. -/
def Log.takeTurns (log : Log) (readers : Array LogReader) : List (Nat × Nat) → Log × List Bytes
  | [] => (log, [])
  | (i, want) :: turns =>
    match readers[i]? with
    | none =>
      let (log, given) := log.takeTurns readers turns
      (log, [] :: given)
    | some reader =>
      let (bytes, log, reader) := reader.take log want
      let (log, given) := log.takeTurns (readers.setIfInBounds i reader) turns
      (log, bytes :: given)

/-- Opens a reader at each handle and has them take turns. -/
def Log.interleave (log : Log) (handles : List Handle) (turns : List (Nat × Nat)) :
    Except LogFault (Log × List Bytes) := do
  let readers ← handles.mapM fun handle => LogReader.openAt log handle
  return log.takeTurns readers.toArray turns

/-- The bytes from a handle to the end of the log, or exactly `want` of them. -/
def Log.read (log : Log) (handle : Handle) (want : Option Nat) : Except LogFault Bytes := do
  let bytes ← log.since handle
  match want with
  | none => return bytes
  | some n =>
    match Bytes.split? n bytes with
    | some (front, _) => return front
    | none => .error .endOfInput

namespace Log

/-- Whether the storage holds what the log says it holds: all of a file's bytes are the log's. -/
def Faithful (log : Log) : Prop :=
  log.contents.length = log.length

theorem contents_commit (log : Log) (h : log.Faithful) (bytes : Bytes) :
    (log.commit bytes).2.contents = log.contents ++ bytes := by
  obtain ⟨storage, compression⟩ := log
  cases storage with
  | memory old => rfl
  | file file length =>
    simp only [Faithful, contents, Log.length, List.length_take] at h
    have hl : (file.contents.take length).length = length := by simp; omega
    simp only [commit, contents, File.write, File.seek]
    rw [List.take_append_of_le_length (by simp; omega), List.take_of_length_le]
    simp only [List.length_append, List.length_take]
    omega

theorem handle_commit (log : Log) (bytes : Bytes) : (log.commit bytes).1 = log.length := by
  obtain ⟨storage, compression⟩ := log
  cases storage <;> rfl

theorem length_commit (log : Log) (bytes : Bytes) :
    (log.commit bytes).2.length = log.length + bytes.length := by
  obtain ⟨storage, compression⟩ := log
  cases storage <;> simp [commit, Log.length]

end Log

end Playhead
