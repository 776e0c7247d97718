import Playhead.Proofs.Log.Reading
import Playhead.Proofs.Log.View

/-!
# Sessions with a log

A session writes regions, opens readers and reads with them, in any order, and may close and open
the log in between. Every call does what can be told from the bytes alone
(`Playhead.LogSession.Sound.steps`), and in a single read of a file only is there a choice
(`Playhead.LogSession.Sound.exact`).

Main statement: `Playhead.storages_alike`. A log in memory and a log in a file give the same handles
and lengths, refuse the same places and deliver the same bytes, whatever the readers of the file do
to its one offset and however few bytes the file gives at a time. The laws that both follow are
those of `Playhead.LogSession.AppendOnly`.

Readers live on here when the log is written to or opened again. The program does not need that, as
it has no reader open then; it costs nothing to show that they would not be disturbed.
-/

namespace Playhead

/-! ### Sessions -/

/-- A log and the readers that were opened so far. -/
structure LogSession where
  log : Log
  readers : Array LogReader

namespace LogSession

/-- Has one reader do something. A reader that is not there gives nothing. -/
def serve (session : LogSession) (i : Nat) (step : LogReader → Log → Bytes × Log × LogReader) :
    LogAnswer × LogSession :=
  match session.readers[i]? with
  | none => (.given [], session)
  | some reader =>
    let (bytes, log, reader) := step reader session.log
    (.given bytes, ⟨log, session.readers.setIfInBounds i reader⟩)

/-- One call: the answer, and the session afterwards. -/
def call (session : LogSession) : LogCall → LogAnswer × LogSession
  | .commit bytes =>
    let (handle, log) := session.log.commit bytes
    (.committed handle log.length, { session with log })
  | .openAt handle =>
    match LogReader.openAt session.log handle with
    | .error fault => (.refused fault, session)
    | .ok reader =>
      (.opened session.readers.size, { session with readers := session.readers.push reader })
  | .read i want => session.serve i fun reader log => reader.read log want
  | .take i want => session.serve i fun reader log => reader.take log want
  | .reopen => (.reopened session.log.reopen.length, { session with log := session.log.reopen })

/-- The session after some calls. -/
def after (session : LogSession) (calls : List LogCall) : LogSession :=
  calls.foldl (fun session c => (session.call c).2) session

/-- The answer to one more call. -/
def answer (session : LogSession) (c : LogCall) : LogAnswer := (session.call c).1

/-- Calls with their answers. -/
def trace (session : LogSession) : List LogCall → List (LogCall × LogAnswer)
  | [] => []
  | c :: calls => (c, session.answer c) :: (session.call c).2.trace calls

/-- A session that begins with a log. -/
def start (log : Log) : LogSession := ⟨log, #[]⟩

/-! ### Sessions and their views -/

variable {session : LogSession}

/-- What can be seen of a session. -/
def view (session : LogSession) : LogView :=
  ⟨session.log.contents, session.readers.map (LogReader.left session.log.contents)⟩

/-- The storage holds the log, and the readers are readers of it. -/
structure Sound (session : LogSession) : Prop where
  whole : session.log.Whole
  readers : ∀ reader ∈ session.readers, reader.Of session.log

/-- **What becomes of a session in one call**: it stays sound, its log goes on, and its view takes a
step. -/
structure Steps (session : LogSession) (c : LogCall) (result : LogAnswer × LogSession) : Prop where
  sound : result.2.Sound
  continues : session.log.Continues result.2.log
  step : session.view.Step c result.1 result.2.view

namespace Sound

/-- The readers of a log have the same bytes left when it has gone on. -/
theorem map_left (h : session.Sound) {log' : Log} (hlog : session.log.Continues log') :
    session.readers.map (LogReader.left log'.contents) =
      session.readers.map (LogReader.left session.log.contents) :=
  Array.map_congr_left fun reader hreader => (h.readers reader hreader).left_eq hlog

/-- Readers stay sound when the log goes on. -/
theorem continues (h : session.Sound) {log' : Log} (hlog : session.log.Continues log') :
    Sound { session with log := log' } where
  whole := hlog.whole
  readers reader hreader := (h.readers reader hreader).continues hlog

/-- When the log goes on, its bytes are seen to change and nothing else. -/
theorem view_continues (h : session.Sound) {log' : Log} (hlog : session.log.Continues log') :
    view { session with log := log' } = { session.view with contents := log'.contents } := by
  simp only [view, h.map_left hlog]

theorem continues_refl (h : session.Sound) : session.log.Continues session.log :=
  ⟨h.whole, Iff.rfl, List.prefix_refl _⟩

/-- A reader that does something takes bytes off the front of what it has left. -/
theorem serve (h : session.Sound) {i : Nat} {reader : LogReader}
    (hi : session.readers[i]? = some reader) {result : Bytes × Log × LogReader}
    (hresult : reader.Delivers session.log result) :
    let next : LogSession := ⟨result.2.1, session.readers.setIfInBounds i result.2.2⟩
    next.Sound ∧ session.view.left[i]? =
        some (result.1 ++ result.2.2.left session.log.contents) ∧
      next.view = session.view.leave i (result.2.2.left session.log.contents) := by
  refine ⟨⟨hresult.continues.whole, fun other hother => ?_⟩, ?_, ?_⟩
  · rcases Array.mem_or_eq_of_mem_setIfInBounds hother with hother | rfl
    · exact (h.readers other hother).continues hresult.continues
    · exact hresult.reads
  · simp only [view, Array.getElem?_map, hi, Option.map_some, hresult.left]
  · simp only [view, LogView.leave, hresult.contents, Array.map_setIfInBounds]

end Sound

/-! ### One call -/

/-- A call of which everything is told by the bytes. -/
structure Exact (session : LogSession) (c : LogCall) (result : LogAnswer × LogSession) : Prop where
  sound : result.2.Sound
  continues : session.log.Continues result.2.log
  answer : result.1 = (session.view.call c).1
  view : result.2.view = (session.view.call c).2

/-- A call that does exactly what the view does is a step of the view. -/
theorem Exact.steps {c : LogCall} {result : LogAnswer × LogSession}
    (h : session.Exact c result) : session.Steps c result :=
  ⟨h.sound, h.continues, .of_eq h.answer h.view⟩

/-- A commit does exactly what the view does. -/
theorem exact_commit (h : session.Sound) (bytes : Bytes) :
    session.Exact (.commit bytes) (session.call (.commit bytes)) := by
  have hlog := h.whole.continues_commit bytes
  have hfaithful : session.view.contents.length = session.log.length := h.whole.faithful
  refine ⟨h.continues hlog, hlog, ?_, ?_⟩
  · simp only [LogView.call, hfaithful, call, Log.handle_commit, Log.length_commit]
  · refine (h.view_continues hlog).trans ?_
    rw [Log.contents_commit session.log h.whole.faithful]
    rfl

/-- Opening a reader does exactly what the view does. -/
theorem exact_openAt (h : session.Sound) (handle : Handle) :
    session.Exact (.openAt handle) (session.call (.openAt handle)) := by
  rcases LogReader.openAt_eq h.whole handle with ⟨hlt, hopen⟩ | ⟨hle, reader, hopen, hreader, hleft⟩
  · have hview : session.view.contents.length < handle := hlt
    simp only [call, hopen]
    refine ⟨h, h.continues_refl, ?_, ?_⟩ <;> rw [LogView.call_openAt_of_lt hview]
    rfl
  · have hview : handle ≤ session.view.contents.length := hle
    simp only [call, hopen]
    refine ⟨⟨h.whole, fun other hother => ?_⟩, h.continues_refl, ?_, ?_⟩
    · rcases Array.mem_push.1 hother with hother | rfl
      · exact h.readers other hother
      · exact hreader
    · rw [LogView.call_openAt_of_le hview, view, Array.size_map]
    · rw [LogView.call_openAt_of_le hview]
      simp only [view, Array.map_push, hleft]

/-- A reader that is not there gives nothing, whatever it is asked. -/
theorem serve_of_none {i : Nat} (hi : session.readers[i]? = none)
    (step : LogReader → Log → Bytes × Log × LogReader) :
    session.serve i step = (.given [], session) ∧ session.view.left[i]? = none := by
  simp only [serve, view, Array.getElem?_map, hi, Option.map_none, and_self]

/-- A reader that there is serves the call. -/
theorem serve_of_some {i : Nat} {reader : LogReader} (hi : session.readers[i]? = some reader)
    (step : LogReader → Log → Bytes × Log × LogReader) :
    session.serve i step = (.given (step reader session.log).1, ⟨(step reader session.log).2.1,
      session.readers.setIfInBounds i (step reader session.log).2.2⟩) := by
  simp only [serve, hi]

/-- Taking bytes is the one call with a choice: the storage may give fewer than were asked for. -/
theorem exact_take (h : session.Sound) (i want : Nat) :
    session.Exact (.take i want) (session.call (.take i want)) := by
  cases hi : session.readers[i]? with
  | none =>
    obtain ⟨hserve, hview⟩ := serve_of_none hi fun reader log => reader.take log want
    rw [call, hserve]
    refine ⟨h, h.continues_refl, ?_, ?_⟩ <;> rw [LogView.call, LogView.serve_of_none hview]
  | some reader =>
    rw [call, serve_of_some hi]
    obtain ⟨hlaw, hgiven⟩ :=
      LogReader.take_delivers h.whole (h.readers reader (Array.mem_of_getElem? hi)) want
    obtain ⟨hsound, hview, hnext⟩ := h.serve hi hlaw
    -- what is left behind the first bytes is known, since they are known
    rw [hlaw.left] at hview
    have hrest : (reader.take session.log want).2.2.left session.log.contents =
        (reader.left session.log.contents).drop want := by
      have hall := hlaw.left.trans
        (List.take_append_drop want (reader.left session.log.contents)).symm
      rw [hgiven] at hall
      exact List.append_cancel_left hall
    refine ⟨hsound, hlaw.continues, ?_, ?_⟩
    · rw [LogView.call, LogView.serve_of_some hview, hgiven]
    · rw [LogView.call, LogView.serve_of_some hview, ← hrest]
      exact hnext

/-- Opening the log anew does exactly what the view does. -/
theorem exact_reopen (h : session.Sound) : session.Exact .reopen (session.call .reopen) := by
  have hlog := h.whole.continues_reopen
  have hfaithful : session.log.reopen.length = session.view.contents.length := by
    rw [← h.whole.reopen.faithful, h.whole.contents_reopen]
    rfl
  refine ⟨h.continues hlog, hlog, ?_, ?_⟩
  · rw [LogView.call, call, hfaithful]
  · refine (h.view_continues hlog).trans ?_
    rw [h.whole.contents_reopen]
    rfl

/-- A single read gives bytes off the front, and stops early at worst. -/
theorem steps_read (h : session.Sound) (i want : Nat) :
    session.Steps (.read i want) (session.call (.read i want)) := by
  cases hi : session.readers[i]? with
  | none =>
    obtain ⟨hserve, hview⟩ := serve_of_none hi fun reader log => reader.read log want
    rw [call, hserve]
    refine ⟨h, h.continues_refl, .of_eq ?_ ?_⟩ <;> rw [LogView.call, LogView.serve_of_none hview]
  | some reader =>
    rw [call, serve_of_some hi]
    obtain ⟨hlaw, hmost, hprogress⟩ :=
      LogReader.read_delivers h.whole (h.readers reader (Array.mem_of_getElem? hi)) want
    obtain ⟨hsound, hview, hnext⟩ := h.serve hi hlaw
    refine ⟨hsound, hlaw.continues, ?_⟩
    rw [hnext]
    by_cases hnil : (reader.read session.log want).1 = []
    · -- nothing was asked for or nothing is left, so that this is all there is to give
      have hzero := hprogress hnil
      rw [← hlaw.left, hnil, List.nil_append] at hzero
      rw [hnil, List.nil_append] at hview
      refine .of_eq ?_ ?_ <;> rw [LogView.call, LogView.serve_of_some hview]
      · rw [hnil, List.take_eq_nil_iff.2 hzero]
      · rcases hzero with rfl | hzero
        · rfl
        · rw [hzero, List.drop_nil]
    · exact .short hview hnil hmost

/-- **One call, of whatever kind.** -/
theorem Sound.steps (h : session.Sound) (c : LogCall) : session.Steps c (session.call c) := by
  cases c with
  | commit bytes => exact (exact_commit h bytes).steps
  | openAt handle => exact (exact_openAt h handle).steps
  | read i want => exact steps_read h i want
  | take i want => exact (exact_take h i want).steps
  | reopen => exact (exact_reopen h).steps

/-- A call that is no single read is told by the bytes; so is every call of a log in memory. -/
theorem Sound.exact (h : session.Sound) {c : LogCall}
    (hc : c.isRead = true → ¬ session.log.InFile) : session.Exact c (session.call c) := by
  cases c with
  | commit bytes => exact exact_commit h bytes
  | openAt handle => exact exact_openAt h handle
  | take i want => exact exact_take h i want
  | reopen => exact exact_reopen h
  | read i want =>
    have hsame : session.call (.read i want) = session.call (.take i want) := by
      cases hi : session.readers[i]? with
      | none => simp only [call, (serve_of_none hi _).1]
      | some reader =>
        have hreader := h.readers reader (Array.mem_of_getElem? hi)
        simp only [call, serve_of_some hi, LogReader.read_eq_take (hc rfl) hreader]
    obtain ⟨hsound, hcontinues, hanswer, hview⟩ := exact_take h i want
    rw [hsame]
    exact ⟨hsound, hcontinues, hanswer, hview⟩

/-! ### Many calls -/

theorem after_cons (session : LogSession) (c : LogCall) (calls : List LogCall) :
    session.after (c :: calls) = (session.call c).2.after calls := rfl

theorem after_append (session : LogSession) (calls more : List LogCall) :
    session.after (calls ++ more) = (session.after calls).after more :=
  List.foldl_append

/-- **What becomes of a session in many calls.** -/
theorem Sound.after (h : session.Sound) (calls : List LogCall) :
    (session.after calls).Sound ∧ session.log.Continues (session.after calls).log ∧
      (session.after calls).view.contents = session.view.contents ++ written calls := by
  induction calls generalizing session with
  | nil => exact ⟨h, h.continues_refl, (List.append_nil _).symm⟩
  | cons c calls ih =>
    obtain ⟨hsound, hcontinues, hstep⟩ := h.steps c
    obtain ⟨hsound', hcontinues', hcontents⟩ := ih hsound
    rw [after_cons]
    refine ⟨hsound', hcontinues.trans hcontinues', ?_⟩
    rw [hcontents, hstep.contents, List.append_assoc]
    rfl

/-- **What a reader delivers in many calls is taken off the front of what it had left.** -/
theorem Sound.delivered_append (h : session.Sound) {reader : Nat} {left : Bytes}
    (hleft : session.view.left[reader]? = some left) (calls : List LogCall) :
    ∃ left', (session.after calls).view.left[reader]? = some left' ∧
      delivered reader (session.trace calls) ++ left' = left := by
  induction calls generalizing session left with
  | nil => exact ⟨left, hleft, rfl⟩
  | cons c calls ih =>
    have hsteps := h.steps c
    obtain ⟨rest, hrest, hgiven⟩ := hsteps.step.left hleft
    obtain ⟨left', hleft', hmore⟩ := ih hsteps.sound hrest
    refine ⟨left', hleft', ?_⟩
    rw [trace, delivered, List.flatMap_cons, List.append_assoc]
    exact (congrArg _ hmore).trans hgiven

/-- Sessions with the same view answer alike, as long as single reads come from memory. -/
theorem Sound.trace_eq {other : LogSession} (h : session.Sound) (hother : other.Sound)
    (hview : session.view = other.view) {calls : List LogCall}
    (hcalls : ∀ c ∈ calls, c.isRead = false) : session.trace calls = other.trace calls := by
  induction calls generalizing session other with
  | nil => rfl
  | cons c calls ih =>
    obtain ⟨hc, hcalls⟩ := List.forall_mem_cons.1 hcalls
    have hexact := h.exact (c := c) fun hread => absurd (hc.symm.trans hread) Bool.false_ne_true
    have hexact' := hother.exact (c := c) fun hread =>
      absurd (hc.symm.trans hread) Bool.false_ne_true
    rw [trace, trace, answer, answer, hexact.answer, hexact'.answer, hview]
    refine congrArg _ (ih hexact.sound hexact'.sound ?_ hcalls)
    rw [hexact.view, hexact'.view, hview]

/-- Sessions with as many bytes and readers keep having as many, whatever is read. -/
theorem Sound.alike_after {other : LogSession} (h : session.Sound) (hother : other.Sound)
    (halike : session.view.Alike other.view) (calls : List LogCall) :
    (session.after calls).view.Alike (other.after calls).view := by
  induction calls generalizing session other with
  | nil => exact halike
  | cons c calls ih =>
    have hsteps := h.steps c
    have hsteps' := hother.steps c
    refine ih hsteps.sound hsteps'.sound ⟨?_, ?_⟩
    · rw [hsteps.step.contents, hsteps'.step.contents, halike.contents]
    · rw [hsteps.step.size, hsteps'.step.size, (halike.call c).2]

/-! ### The laws of an append-only log -/

/-- **An append-only log**, with the given bytes at the beginning. After any calls it holds these
and what was written since, and
* a region is put at its end, under a handle that is the number of bytes before it;
* a place is refused just when it is behind the end;
* what is found at a place is found there ever after, with what was written since behind it;
* whatever is called after a reader was opened, what the reader has delivered and what it has still
  to deliver make up the bytes from its place to the end that the log **had when it was opened**. It
  delivers next what is next: as many bytes as are asked for, and with a single read at least one of
  them, unless none is left. -/
structure AppendOnly (session : LogSession) (contents : Bytes) : Prop where
  commits : ∀ before bytes,
    let held := contents ++ written before
    (session.after before).answer (.commit bytes) =
      .committed held.length (held.length + bytes.length)
  reopens : ∀ before, (session.after before).answer .reopen =
    .reopened (contents ++ written before).length
  refuses : ∀ before handle,
    let held := contents ++ written before
    held.length < handle →
      (session.after before).answer (.openAt handle) =
          .refused (.outOfBounds handle held.length) ∧
        (session.after before).log.since handle = .error (.outOfBounds handle held.length)
  admits : ∀ before handle,
    let held := contents ++ written before
    handle ≤ held.length →
      (∃ reader, (session.after before).answer (.openAt handle) = .opened reader) ∧
        ∀ later, (session.after (before ++ later)).log.since handle =
          .ok (held.drop handle ++ written later)
  delivers : ∀ before handle reader,
    (session.after before).answer (.openAt handle) = .opened reader → ∀ later,
      let opened := session.after (before ++ [.openAt handle])
      ∃ left, delivered reader (opened.trace later) ++ left =
          (contents ++ written before).drop handle ∧
        ∀ want, (opened.after later).answer (.take reader want) = .given (left.take want) ∧
          ∃ bytes, (opened.after later).answer (.read reader want) = .given bytes ∧
            bytes <+: left ∧ bytes.length ≤ want ∧ (bytes = [] → want = 0 ∨ left = [])

/-- Opening a reader that was opened: the log's bytes from its place on are left. -/
theorem Sound.left_of_opened (h : session.Sound) {handle : Handle} {reader : Nat}
    (hopened : session.answer (.openAt handle) = .opened reader) :
    (session.call (.openAt handle)).2.view.left[reader]? =
      some (session.view.contents.drop handle) := by
  obtain ⟨-, -, hanswer, hview⟩ := exact_openAt h handle
  rw [hview]
  replace hopened := hanswer.symm.trans hopened
  by_cases hlt : session.view.contents.length < handle
  · rw [LogView.call_openAt_of_lt hlt] at hopened
    cases hopened
  · rw [LogView.call_openAt_of_le (Nat.not_lt.1 hlt)] at hopened ⊢
    obtain rfl : session.view.left.size = reader := LogAnswer.opened.inj hopened
    rw [Array.getElem?_push, if_pos rfl]

/-- **What a reader delivers next** is what is next of what it has left. -/
theorem Sound.answer_of_left (h : session.Sound) {reader : Nat} {left : Bytes}
    (hleft : session.view.left[reader]? = some left) (want : Nat) :
    session.answer (.take reader want) = .given (left.take want) ∧
      ∃ bytes, session.answer (.read reader want) = .given bytes ∧ bytes <+: left ∧
        bytes.length ≤ want ∧ (bytes = [] → want = 0 ∨ left = []) := by
  constructor
  · refine (exact_take h reader want).answer.trans ?_
    rw [LogView.call, LogView.serve_of_some hleft]
  · have hstep := (steps_read h reader want).step
    simp only [answer]
    generalize (session.call (.read reader want)).1 = given at hstep ⊢
    generalize (session.call (.read reader want)).2.view = next at hstep
    cases hstep with
    | exact =>
      refine ⟨left.take want, ?_, List.take_prefix _ _, ?_, List.take_eq_nil_iff.1⟩
      · rw [LogView.call, LogView.serve_of_some hleft]
      · rw [List.length_take]
        exact Nat.min_le_left _ _
    | @short _ _ bytes rest hshort hsome hmost =>
      obtain rfl := Option.some.inj (hshort.symm.trans hleft)
      exact ⟨bytes, rfl, List.prefix_append _ _, hmost, fun hnil => absurd hnil hsome⟩

/-- **A sound session is an append-only log**, wherever it is kept. -/
theorem Sound.appendOnly (h : session.Sound) : session.AppendOnly session.view.contents := by
  refine ⟨fun before bytes => ?commits, fun before => ?reopens, fun before handle hlt => ?refuses,
    fun before handle hle => ⟨?admits, fun later => ?lasts⟩,
    fun before handle reader hopened later => ?delivers⟩
  case commits =>
    obtain ⟨hsound, -, hcontents⟩ := h.after before
    rw [← hcontents]
    exact (exact_commit hsound bytes).answer
  case reopens =>
    obtain ⟨hsound, -, hcontents⟩ := h.after before
    rw [← hcontents]
    exact (exact_reopen hsound).answer
  case refuses =>
    obtain ⟨hsound, -, hcontents⟩ := h.after before
    rw [← hcontents] at hlt ⊢
    constructor
    · refine (exact_openAt hsound handle).answer.trans ?_
      rw [LogView.call_openAt_of_lt hlt]
    · have hlength : (session.after before).view.contents.length =
          (session.after before).log.length := hsound.whole.faithful
      rw [hlength] at hlt ⊢
      exact if_pos hlt
  case admits =>
    obtain ⟨hsound, -, hcontents⟩ := h.after before
    rw [← hcontents] at hle
    refine ⟨(session.after before).view.left.size, (exact_openAt hsound handle).answer.trans ?_⟩
    rw [LogView.call_openAt_of_le hle]
  case lasts =>
    -- what was committed before and after is what has been written in the end
    obtain ⟨hsound, -, hcontents⟩ := h.after (before ++ later)
    have hall : (session.after (before ++ later)).log.contents =
        session.view.contents ++ written before ++ written later := by
      rw [List.append_assoc, written, written, ← List.flatMap_append]
      exact hcontents
    have hlength := hsound.whole.faithful
    rw [Log.since, if_neg, hall, List.drop_append_of_le_length hle]
    rw [← hlength, hall, List.length_append]
    exact Nat.not_lt.2 (Nat.le_add_right_of_le hle)
  case delivers =>
    obtain ⟨hsound, -, hcontents⟩ := h.after before
    -- the reader has all the rest of the log left, and what it delivers comes out of that
    have hleft := hsound.left_of_opened hopened
    have hsteps := hsound.steps (.openAt handle)
    rw [hcontents] at hleft
    rw [after_append]
    obtain ⟨left, hrest, hall⟩ := hsteps.sound.delivered_append hleft later
    obtain ⟨hsound', -, -⟩ := hsteps.sound.after later
    exact ⟨left, hall, hsound'.answer_of_left hrest⟩

end LogSession

/-! ### Turns -/

/-- Taking turns is a session in which readers are opened first, and then take what they are asked
to. -/
theorem LogSession.takeTurns_eq (session : LogSession) (turns : List (Nat × Nat)) :
    (session.log.takeTurns session.readers turns).2 =
      (session.trace (turns.map fun turn => .take turn.1 turn.2)).map (·.2.bytes) := by
  induction turns generalizing session with
  | nil => rfl
  | cons turn turns ih =>
    obtain ⟨i, want⟩ := turn
    simp only [Log.takeTurns, List.map_cons, trace, answer, call]
    cases hi : session.readers[i]? with
    | none =>
      rw [(serve_of_none hi _).1]
      exact congrArg _ (ih session)
    | some reader =>
      have hlater := ih ⟨(reader.take session.log want).2.1,
        session.readers.setIfInBounds i (reader.take session.log want).2.2⟩
      rw [serve_of_some hi]
      exact congrArg (List.cons (reader.take session.log want).1) hlater

namespace Log

variable {log log' : Log}

/-- Readers are opened at places that are not behind the end. -/
theorem exists_mapM_openAt (h : log.Whole) {handles : List Handle}
    (hle : ∀ handle ∈ handles, handle ≤ log.contents.length) :
    ∃ readers, handles.mapM (LogReader.openAt log) = .ok readers ∧
      (∀ reader ∈ readers, reader.Of log) ∧
        readers.map (LogReader.left log.contents) = handles.map log.contents.drop := by
  induction handles with
  | nil => exact ⟨[], rfl, by simp, rfl⟩
  | cons handle handles ih =>
    obtain ⟨hhandle, hle⟩ := List.forall_mem_cons.1 hle
    obtain ⟨readers, hreaders, hof, hleft⟩ := ih hle
    obtain ⟨hlt, -⟩ | ⟨-, reader, hopen, hreader, hdrop⟩ := LogReader.openAt_eq h handle
    · exact absurd hhandle (Nat.not_le.2 hlt)
    · refine ⟨reader :: readers, ?_, List.forall_mem_cons.2 ⟨hreader, hof⟩, ?_⟩
      · rw [List.mapM_cons, hopen, hreaders]
        rfl
      · rw [List.map_cons, List.map_cons, hdrop, hleft]

/-- The first place behind the end is the one that is named. -/
theorem mapM_openAt_of_find? (h : log.Whole) {handles : List Handle} {handle : Handle}
    (hfind : handles.find? (fun handle => log.contents.length < handle) = some handle) :
    handles.mapM (LogReader.openAt log) = .error (.outOfBounds handle log.contents.length) := by
  induction handles with
  | nil => exact absurd hfind (by simp)
  | cons first handles ih =>
    rw [List.mapM_cons]
    obtain ⟨hlt, hopen⟩ | ⟨hle, reader, hopen, -⟩ := LogReader.openAt_eq h first
    · rw [List.find?_cons_of_pos (by simpa using hlt)] at hfind
      obtain rfl := Option.some.inj hfind
      rw [hopen]
      rfl
    · rw [List.find?_cons_of_neg (by simpa using hle)] at hfind
      rw [hopen, ih hfind]
      rfl

/-- **Readers that take turns give the same**, wherever the log is kept. -/
theorem interleave_eq (h : log.Whole) (h' : log'.Whole) (hsame : log.contents = log'.contents)
    (handles : List Handle) (turns : List (Nat × Nat)) :
    (log.interleave handles turns).map Prod.snd = (log'.interleave handles turns).map Prod.snd := by
  simp only [interleave]
  cases hfind : handles.find? fun handle => log.contents.length < handle with
  | some handle =>
    rw [mapM_openAt_of_find? h hfind]
    rw [hsame] at hfind ⊢
    rw [mapM_openAt_of_find? h' hfind]
    rfl
  | none =>
    -- readers are opened at the same places, and from then on the sessions are alike
    have hle : ∀ handle ∈ handles, handle ≤ log.contents.length := by
      simpa using List.find?_eq_none.1 hfind
    obtain ⟨readers, hreaders, hof, hleft⟩ := exists_mapM_openAt h hle
    obtain ⟨readers', hreaders', hof', hleft'⟩ := exists_mapM_openAt h' (hsame ▸ hle)
    have hsound : LogSession.Sound ⟨log, readers.toArray⟩ := ⟨h, by simpa using hof⟩
    have hsound' : LogSession.Sound ⟨log', readers'.toArray⟩ := ⟨h', by simpa using hof'⟩
    have hview : LogSession.view ⟨log, readers.toArray⟩ =
        LogSession.view ⟨log', readers'.toArray⟩ := by
      simp only [LogSession.view, List.map_toArray]
      rw [hleft, hleft', hsame]
    have hcalls : ∀ c ∈ turns.map fun turn => LogCall.take turn.1 turn.2, c.isRead = false := by
      intro c hc
      obtain ⟨turn, -, rfl⟩ := List.mem_map.1 hc
      rfl
    have htrace := hsound.trace_eq hsound' hview hcalls
    have hturns := LogSession.takeTurns_eq ⟨log, readers.toArray⟩ turns
    have hturns' := LogSession.takeTurns_eq ⟨log', readers'.toArray⟩ turns
    rw [htrace, ← hturns'] at hturns
    rw [hreaders, hreaders']
    exact congrArg Except.ok hturns

end Log

/-! ### The two storages -/

/-- The log in a file that is opened, wherever its offset is. -/
def Log.ofFile (compression : Option Compression) (file : File) : Log :=
  ⟨.file file file.contents.length, compression⟩

/-- **Both storages are the same append-only log.** Begin with some bytes in memory and with a file
that holds them, whatever the offset of the file is and however few bytes it gives at a time. Then
both are append-only logs of these bytes (`Playhead.LogSession.AppendOnly`). After the same calls,
single reads among them, both give the same handles and lengths and refuse the same places; calls
without single reads are answered alike one by one; and readers that take turns get the same. -/
theorem storages_alike (file : File) (compression compression' : Option Compression) :
    let memory := LogSession.start (.ofBytes compression file.contents)
    let onFile := LogSession.start (.ofFile compression' file)
    memory.AppendOnly file.contents ∧ onFile.AppendOnly file.contents ∧
    (∀ (calls : List LogCall) (c : LogCall), c.reader? = none →
      (onFile.after calls).answer c = (memory.after calls).answer c) ∧
    (∀ calls : List LogCall, (∀ c ∈ calls, c.isRead = false) →
      onFile.trace calls = memory.trace calls) ∧
    ∀ (calls : List LogCall) (handles : List Handle) (turns : List (Nat × Nat)),
      ((onFile.after calls).log.interleave handles turns).map Prod.snd =
        ((memory.after calls).log.interleave handles turns).map Prod.snd := by
  intro memory onFile
  have hmemory : memory.Sound := ⟨trivial, by simp [memory, LogSession.start]⟩
  have honFile : onFile.Sound := ⟨rfl, by simp [onFile, LogSession.start]⟩
  have hcontents : onFile.view.contents = file.contents := honFile.whole.contents_eq rfl
  have hview : onFile.view = memory.view := by
    rw [LogSession.view, LogSession.view, LogView.mk.injEq]
    refine ⟨hcontents, ?_⟩
    simp only [memory, onFile, LogSession.start, List.map_toArray, List.map_nil]
  -- both have the same contents and no readers yet
  have halike : onFile.view.Alike memory.view := by
    rw [hview]
    exact ⟨rfl, rfl⟩
  refine ⟨hmemory.appendOnly, hcontents ▸ honFile.appendOnly, fun calls c hc => ?_, fun calls =>
    honFile.trace_eq hmemory hview, fun calls handles turns => ?_⟩
  · -- a call that reads nothing is told by the bytes of the log, not by what readers have left
    obtain ⟨hsound, -⟩ := honFile.after calls
    obtain ⟨hsound', -⟩ := hmemory.after calls
    have hread : c.isRead = true → False := by
      cases c <;> simp_all [LogCall.reader?, LogCall.isRead]
    have hanswer := (hsound.exact fun h => (hread h).elim).answer
    have hanswer' := (hsound'.exact fun h => (hread h).elim).answer
    exact hanswer.trans
      ((((honFile.alike_after hmemory halike calls).call c).1 hc).trans hanswer'.symm)
  · obtain ⟨hsound, -⟩ := honFile.after calls
    obtain ⟨hsound', -⟩ := hmemory.after calls
    exact Log.interleave_eq hsound.whole hsound'.whole
      (honFile.alike_after hmemory halike calls).contents handles turns

/-- Two readers of a file that gives a byte at a time, with writing and opening anew between
them. -/
def sharedCalls : List LogCall :=
  [.openAt 0, .openAt 2, .take 0 1, .take 1 1, .commit [9], .reopen, .take 0 5, .openAt 6]

/-- Two readers of one file take turns, with a commit and a reopening in between. -/
theorem storages_alike_shared :
    (LogSession.start (.ofFile none ⟨[1, 2, 3, 4], 3, 0, fun _ => 0⟩)).trace sharedCalls =
      [(.openAt 0, .opened 0), (.openAt 2, .opened 1), (.take 0 1, .given [1]),
        (.take 1 1, .given [3]), (.commit [9], .committed 4 5), (.reopen, .reopened 5),
        (.take 0 5, .given [2, 3, 4]), (.openAt 6, .refused (.outOfBounds 6 5))] := by
  obtain ⟨-, -, -, htrace, -⟩ := storages_alike ⟨[1, 2, 3, 4], 3, 0, fun _ => 0⟩ none none
  rw [htrace sharedCalls (by decide)]
  decide

end Playhead
