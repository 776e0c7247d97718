import Playhead.Log.Basic

/-!
# A log told by its bytes

What a log and its readers answer can be told without any storage (`Playhead.LogView.call`): the log
is the bytes written so far, and a reader is the bytes that it has still to deliver, taken from the
log when it was opened. A call may do what is told so, with one exception: a single read may stop
early (`Playhead.LogView.Step`). Even then nothing gets lost or comes twice, since what a reader
delivers is taken off the front of what it has left (`Playhead.LogView.Step.left`).
-/

namespace Playhead

/-! ### Calls and answers -/

/-- What can be asked of a log and of the readers that were opened so far. -/
inductive LogCall where
  | commit (bytes : Bytes)
  | openAt (handle : Handle)
  /-- One read of at most `want` bytes. -/
  | read (reader want : Nat)
  /-- Reads until there are `want` bytes or no more come. -/
  | take (reader want : Nat)
  | reopen
  deriving DecidableEq, Repr

/-- What is answered. -/
inductive LogAnswer where
  | committed (handle : Handle) (length : Nat)
  | opened (reader : Nat)
  | refused (fault : LogFault)
  | given (bytes : Bytes)
  | reopened (length : Nat)
  deriving DecidableEq, Repr

/-- What a call writes. -/
def LogCall.written : LogCall → Bytes
  | .commit bytes => bytes
  | _ => []

/-- The reader that a call reads with. -/
def LogCall.reader? : LogCall → Option Nat
  | .read reader _ => some reader
  | .take reader _ => some reader
  | _ => none

/-- Whether a call is a single read, which may give less than was asked for. -/
def LogCall.isRead : LogCall → Bool
  | .read _ _ => true
  | _ => false

/-- The bytes of an answer. -/
def LogAnswer.bytes : LogAnswer → Bytes
  | .given bytes => bytes
  | _ => []

/-- The bytes that some calls write. -/
def written (calls : List LogCall) : Bytes := calls.flatMap LogCall.written

/-- The bytes that one reader delivers in one call. -/
def LogCall.delivers (reader : Nat) (call : LogCall) (answer : LogAnswer) : Bytes :=
  if call.reader? = some reader then answer.bytes else []

/-- The bytes that one reader delivers in the course of some calls. -/
def delivered (reader : Nat) (trace : List (LogCall × LogAnswer)) : Bytes :=
  trace.flatMap fun entry => entry.1.delivers reader entry.2

/-! ### Views -/

/-- The bytes of a log, and the bytes that each reader has still to deliver. -/
structure LogView where
  contents : Bytes
  left : Array Bytes
  deriving DecidableEq, Repr

namespace LogView

/-- The view in which some reader has certain bytes left. -/
def leave (view : LogView) (i : Nat) (rest : Bytes) : LogView :=
  { view with left := view.left.setIfInBounds i rest }

/-- Takes bytes off the front of what a reader has left. -/
def serve (view : LogView) (i want : Nat) : LogAnswer × LogView :=
  match view.left[i]? with
  | none => (.given [], view)
  | some left => (.given (left.take want), view.leave i (left.drop want))

/-- **The log, told by its bytes.** -/
def call (view : LogView) : LogCall → LogAnswer × LogView
  | .commit bytes =>
    (.committed view.contents.length (view.contents.length + bytes.length),
      { view with contents := view.contents ++ bytes })
  | .openAt handle =>
    if view.contents.length < handle then
      (.refused (.outOfBounds handle view.contents.length), view)
    else
      (.opened view.left.size, { view with left := view.left.push (view.contents.drop handle) })
  | .read i want => view.serve i want
  | .take i want => view.serve i want
  | .reopen => (.reopened view.contents.length, view)

/-- No reader is opened past the end. -/
theorem call_openAt_of_lt {view : LogView} {handle : Handle}
    (h : view.contents.length < handle) :
    view.call (.openAt handle) = (.refused (.outOfBounds handle view.contents.length), view) :=
  if_pos h

/-- A reader that is opened has the rest of the contents left. -/
theorem call_openAt_of_le {view : LogView} {handle : Handle}
    (h : handle ≤ view.contents.length) :
    view.call (.openAt handle) =
      (.opened view.left.size, { view with left := view.left.push (view.contents.drop handle) }) :=
  if_neg (Nat.not_lt.2 h)

theorem serve_of_none {view : LogView} {i : Nat} (h : view.left[i]? = none) (want : Nat) :
    view.serve i want = (.given [], view) := by
  rw [serve, h]

/-- A reader is given the first of what it has left, and keeps the rest. -/
theorem serve_of_some {view : LogView} {i : Nat} {left : Bytes} (h : view.left[i]? = some left)
    (want : Nat) :
    view.serve i want = (.given (left.take want), view.leave i (left.drop want)) := by
  rw [serve, h]

/-- **What one call may do**: what is told by the bytes, except that a single read may stop
early. -/
inductive Step (view : LogView) : LogCall → LogAnswer → LogView → Prop
  | exact (c : LogCall) : Step view c (view.call c).1 (view.call c).2
  | short {i want : Nat} {bytes rest : Bytes} (left : view.left[i]? = some (bytes ++ rest))
      (some : bytes ≠ []) (most : bytes.length ≤ want) :
      Step view (.read i want) (.given bytes) (view.leave i rest)

variable {view view' : LogView} {c : LogCall} {answer : LogAnswer}

theorem Step.of_eq (hanswer : answer = (view.call c).1) (hview : view' = (view.call c).2) :
    view.Step c answer view' := by
  subst hanswer hview
  exact .exact c

/-! ### What one call does -/

/-- Reading does not change the contents. -/
theorem contents_serve (view : LogView) (i want : Nat) :
    (view.serve i want).2.contents = view.contents := by
  rw [serve]
  split <;> rfl

/-- Reading opens no reader. -/
theorem size_serve (view : LogView) (i want : Nat) :
    (view.serve i want).2.left.size = view.left.size := by
  rw [serve]
  split
  · rfl
  · exact Array.size_setIfInBounds ..

/-- The log grows by what is written. -/
theorem Step.contents (h : view.Step c answer view') :
    view'.contents = view.contents ++ c.written := by
  cases h with
  | short => exact (List.append_nil _).symm
  | exact =>
    cases c with
    | commit bytes => rfl
    | openAt handle =>
      simp only [call, LogCall.written, List.append_nil]
      split <;> rfl
    | read i want => exact (contents_serve ..).trans (List.append_nil _).symm
    | take i want => exact (contents_serve ..).trans (List.append_nil _).symm
    | reopen => exact (List.append_nil _).symm

/-- A reader that has some bytes left behind those that it gave; the others have what they had. -/
theorem left_leave {i k : Nat} {bytes rest left : Bytes}
    (hi : view.left[i]? = some (bytes ++ rest)) (hk : view.left[k]? = some left) :
    ∃ left', (view.leave i rest).left[k]? = some left' ∧
      (if some i = some k then bytes else []) ++ left' = left := by
  simp only [leave, Array.getElem?_setIfInBounds]
  by_cases hik : i = k
  · subst hik
    obtain rfl := Option.some.inj (hi.symm.trans hk)
    obtain ⟨hlt, -⟩ := Array.getElem?_eq_some_iff.1 hi
    exact ⟨rest, by rw [if_pos rfl, if_pos hlt], by rw [if_pos rfl]⟩
  · exact ⟨left, by rw [if_neg hik, hk], by rw [if_neg (by simpa using hik), List.nil_append]⟩

/-- What a reader was given and what it has left make up what it had left. -/
theorem left_serve {i k want : Nat} {left : Bytes} (hk : view.left[k]? = some left) :
    ∃ left', (view.serve i want).2.left[k]? = some left' ∧
      (if some i = some k then (view.serve i want).1.bytes else []) ++ left' = left := by
  rw [serve]
  split
  · exact ⟨left, hk, by simp [LogAnswer.bytes]⟩
  · next left' hi =>
    have hsplit : view.left[i]? = some (left'.take want ++ left'.drop want) := by
      rw [hi, List.take_append_drop]
    exact left_leave hsplit hk

/-- **What a reader delivers in a call is taken off the front of what it has left.** -/
theorem Step.left (h : view.Step c answer view') {reader : Nat} {left : Bytes}
    (hleft : view.left[reader]? = some left) :
    ∃ left', view'.left[reader]? = some left' ∧ c.delivers reader answer ++ left' = left := by
  cases h with
  | short hi => exact left_leave hi hleft
  | exact =>
    cases c with
    | commit bytes => exact ⟨left, hleft, rfl⟩
    | openAt handle =>
      refine ⟨left, ?_, rfl⟩
      rw [call]
      split
      · exact hleft
      · obtain ⟨hlt, -⟩ := Array.getElem?_eq_some_iff.1 hleft
        rw [Array.getElem?_push, if_neg (Nat.ne_of_lt hlt), hleft]
    | read i want => exact left_serve hleft
    | take i want => exact left_serve hleft
    | reopen => exact ⟨left, hleft, rfl⟩

/-- Views of the same log, with as many readers. -/
structure Alike (view other : LogView) : Prop where
  contents : view.contents = other.contents
  size : view.left.size = other.left.size

/-- A step has as many readers after it as the view. -/
theorem Step.size (h : view.Step c answer view') :
    view'.left.size = (view.call c).2.left.size := by
  cases h with
  | exact => rfl
  | short => rw [call, size_serve, leave, Array.size_setIfInBounds]

/-- **How far readers have got does not matter** for what is answered to the others' calls. -/
theorem Alike.call {other : LogView} (h : view.Alike other) (c : LogCall) :
    (c.reader? = none → (view.call c).1 = (other.call c).1) ∧
      (view.call c).2.left.size = (other.call c).2.left.size := by
  obtain ⟨hcontents, hsize⟩ := h
  cases c with
  | commit bytes => exact ⟨fun _ => by simp only [LogView.call, hcontents], hsize⟩
  | openAt handle =>
    simp only [LogView.call, hcontents]
    split
    · exact ⟨fun _ => rfl, hsize⟩
    · exact ⟨fun _ => by rw [hsize], by simp only [Array.size_push, hsize]⟩
  | read i want =>
    refine ⟨fun hc => absurd hc (by simp [LogCall.reader?]), ?_⟩
    simp only [LogView.call, size_serve, hsize]
  | take i want =>
    refine ⟨fun hc => absurd hc (by simp [LogCall.reader?]), ?_⟩
    simp only [LogView.call, size_serve, hsize]
  | reopen => exact ⟨fun _ => by simp only [LogView.call, hcontents], hsize⟩

end LogView

end Playhead
