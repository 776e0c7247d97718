import Playhead.CommandLine

/-!
# The program

Reads the arguments, the settings and the file of the recording, prints what
`Playhead.CommandLine.Request.answer` says, and writes the index to the file that is asked for.
-/

open Playhead CommandLine

/-- The contents of a file; bytes that are no text make up no recording either, so they read as an
empty text. -/
def readRecording (path : String) : IO (Option String) := do
  try
    let bytes ← IO.FS.readBinFile path
    return some ((String.fromUTF8? bytes).getD "")
  catch _ => return none

/-- Says why the program gives up. -/
def giveUp (refusal : Refusal) : IO UInt32 := do
  IO.eprintln s!"Error: {refusal.message}"
  return 1

/-- Prints an answer. -/
def printAnswer (answer : Answer) : IO UInt32 := do
  IO.print answer.printed
  match answer.refusal with
  | some refusal => giveUp refusal
  | none => return 0

def main (arguments : List String) : IO UInt32 := do
  let setting ← IO.getEnv "REWIND_COMPRESSION_THRESHOLD"
  let contents ← match arguments with
    | path :: _ => readRecording path
    | [] => pure none
  match Request.ofArguments arguments setting contents with
  | .error refusal => giveUp refusal
  | .ok request =>
    match ← IO.getEnv "REWIND_CACHE" with
    | none => printAnswer request.answer.1
    | some path =>
      let (answer, index) := request.answer
      try
        IO.FS.writeBinFile path (ByteArray.mk index.toArray)
      catch _ => return ← giveUp (.notCreated path)
      printAnswer answer
