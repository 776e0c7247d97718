import Playhead.Bytes

/-!
# A file and the readers that share it

A file has **one** offset, and everything that reads or writes it moves that offset. A read may
give fewer bytes than were asked for: `File.grant` says how many the system is willing to give at
the `i`-th read, at least one, and nothing is assumed about it.

A reader (`Playhead.FileReader`) covers a range of the file. It keeps its own position, puts the
file's offset there before each read, and reads ahead into a buffer of its own. What it delivers
is therefore the bytes of its range in order, whatever other readers and writers do in between.
-/

namespace Playhead

/-- A file on disk, opened for reading and writing. -/
structure File where
  contents : Bytes
  /-- Where the next read or write starts. -/
  offset : Nat
  /-- How many reads there were. -/
  reads : Nat
  /-- One less than the most that the `i`-th read gives. -/
  grant : Nat → Nat

namespace File

/-- An empty file. -/
def empty (grant : Nat → Nat) : File where
  contents := []
  offset := 0
  reads := 0
  grant := grant

/-- Moves the offset. -/
def seek (file : File) (offset : Nat) : File :=
  { file with offset }

/-- Writes at the offset, over what is there, and moves the offset behind it. -/
def write (file : File) (bytes : Bytes) : File :=
  { file with
    contents := file.contents.take file.offset ++ bytes ++
      file.contents.drop (file.offset + bytes.length)
    offset := file.offset + bytes.length }

/-- Reads at most `want` bytes at the offset and moves the offset behind them. -/
def read (file : File) (want : Nat) : Bytes × File :=
  let given := (file.contents.drop file.offset).take (min want (file.grant file.reads + 1))
  (given, { file with offset := file.offset + given.length, reads := file.reads + 1 })

end File

/-- A reader of the bytes of a file from `position` up to `stop`, after those in its buffer. -/
structure FileReader where
  position : Nat
  stop : Nat
  buffer : Bytes

namespace FileReader

/-- The size of the buffer. -/
def capacity : Nat := 8192

/-- Reads at most `want` bytes of the range, past the buffer. -/
def readThrough (reader : FileReader) (file : File) (want : Nat) : Bytes × File × FileReader :=
  let want := min want (reader.stop - reader.position)
  if want = 0 then ([], file, reader)
  else
    let (given, file) := (file.seek reader.position).read want
    (given, file, { reader with position := reader.position + given.length })

/-- Reads at most `want` bytes. An empty buffer is filled first, unless as much is asked for as the
buffer could hold. -/
def read (reader : FileReader) (file : File) (want : Nat) : Bytes × File × FileReader :=
  if reader.buffer.isEmpty && capacity ≤ want then reader.readThrough file want
  else
    let (buffer, file, reader) :=
      if reader.buffer.isEmpty then reader.readThrough file capacity
      else (reader.buffer, file, reader)
    (buffer.take want, file, { reader with buffer := buffer.drop want })

/-- Reads until there are `want` bytes or no more come. -/
def take (reader : FileReader) (file : File) (want : Nat) : Bytes × File × FileReader :=
  let (given, file, reader) := reader.read file want
  if given.isEmpty || want ≤ given.length then (given, file, reader)
  else
    let (more, file, reader) := reader.take file (want - given.length)
    (given ++ more, file, reader)
termination_by want
decreasing_by
  rename_i h
  simp only [Bool.or_eq_true, List.isEmpty_iff, decide_eq_true_eq, not_or, Nat.not_le] at h
  have := List.length_pos_iff.2 h.1
  omega

end FileReader

end Playhead
