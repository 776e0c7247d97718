import Playhead.Proofs.Zlib.Stored
import Playhead.Recording.Json
import Playhead.Report
import Playhead.Text.Digits
import Playhead.Text.Lines
import Playhead.Text.Quoted

/-!
# The command line

The program is given a recording and some times. It builds an index of the recording, seeks to the
times in the order given, and reports after each seek what a client shows.

What the user asks for is checked in a fixed order – the arguments, the compression threshold, the
recording – and the first thing wrong is what the user is told
(`Playhead.CommandLine.Request.ofArguments`). Later failures come from the index itself
(`Playhead.CommandLine.Request.answer`); reports of seeks that went well stay.
-/

namespace Playhead.CommandLine

/-- Why the program gave up. -/
inductive Refusal where
  /-- No recording was named. -/
  | usage
  | notATime (argument : String)
  | notAThreshold (setting : String)
  | notOpened (path : String)
  | notARecording (path : String)
  | notCreated (path : String)
  | failed (failure : Failure)
  deriving DecidableEq, Repr

/-- The line shown for a refusal. -/
def Refusal.message : Refusal → String
  | usage => "usage: rewind <recording.json> <time-ms>..."
  | notATime argument => s!"seek target {Text.quoted argument} is not a time in milliseconds"
  | notAThreshold setting =>
    s!"REWIND_COMPRESSION_THRESHOLD must be a size or `off`, got {Text.quoted setting}"
  | notOpened path => s!"opening {path}"
  | notARecording path => s!"parsing recording {path}"
  | notCreated path => s!"creating index file {path}"
  | failed failure => failure.message

/-- What the program is to do. -/
structure Request where
  recording : Recording
  targets : List Time
  threshold : Option Nat

/-- The time that an argument names. -/
def timeOf (argument : String) : Except Refusal Time :=
  match Text.integerIn? Int64.minValue.toInt Int64.maxValue.toInt argument with
  | some t => .ok t
  | none => .error (.notATime argument)

/-- The compression threshold of a setting: a size, or the word `off` in letters of any case. -/
def thresholdOf (setting : Option String) : Except Refusal (Option Nat) :=
  match setting with
  | none => .ok (some defaultThreshold)
  | some word =>
    if word.toList.map Char.toLower = ['o', 'f', 'f'] then .ok none
    else
      match Text.integerIn? 0 (UInt64.size - 1) word with
      | some size => .ok (some size.toNat)
      | none => .error (.notAThreshold word)

/-- The recording in a file, of which nothing is known if it cannot be opened. -/
def recordingIn (path : String) (contents : Option String) : Except Refusal Recording :=
  match contents with
  | none => .error (.notOpened path)
  | some text =>
    match Recording.ofText? text with
    | some recording => .ok recording
    | none => .error (.notARecording path)

/-- The request that the arguments, the setting of the threshold and the contents of the file named
first make up. -/
def Request.ofArguments (arguments : List String) (setting : Option String)
    (contents : Option String) : Except Refusal Request :=
  match arguments with
  | [] => .error .usage
  | path :: rest => do
    let targets ← rest.mapM timeOf
    let threshold ← thresholdOf setting
    let recording ← recordingIn path contents
    return ⟨recording, targets, threshold⟩

/-- What the program prints, and why it gave up, if it did. -/
structure Answer where
  lines : List String
  refusal : Option Refusal

/-- An answer that begins with more lines. -/
def Answer.after (answer : Answer) (lines : List String) : Answer :=
  { answer with lines := lines ++ answer.lines }

/-- The text that is printed for an answer. A line may hold a name from the recording, and that name
may hold ends of lines. -/
def Answer.printed (answer : Answer) : String :=
  Text.ofLines answer.lines

/-- The answer to one seek after the other. -/
def visit (log : Log) : Seeker → Client → List Time → Answer
  | _, _, [] => ⟨[], none⟩
  | seeker, client, t :: targets =>
    let o := seeker.seek log t
    match o.failure with
    | some failure => ⟨[], some (.failed failure)⟩
    | none =>
      let client := client.applyAll o.emitted
      (visit log o.state client targets).after (client.report t o.emitted.length)

/-- The answer to a request, and the bytes of the index. -/
def Request.answer (request : Request) : Answer × Bytes :=
  let log : Log := .inMemory (request.threshold.map Zlib.compression)
  match request.recording.index log with
  | .error unfinished => (⟨[], some (.failed unfinished.failure)⟩, unfinished.log.contents)
  | .ok (root, log) =>
    match Seeker.openAt log root with
    | .error failure => (⟨[], some (.failed failure)⟩, log.contents)
    | .ok seeker => (visit log seeker .blank request.targets, log.contents)

/-- The whole run without an index file: the request is made up and answered. -/
def run (arguments : List String) (setting : Option String) (contents : Option String) : Answer :=
  match Request.ofArguments arguments setting contents with
  | .error refusal => ⟨[], some refusal⟩
  | .ok request => request.answer.1

end Playhead.CommandLine
