import Playhead.Proofs.Timeline
import Playhead.Thing.Cast

/-!
# What a loaded track shows

A loaded track never fails: a step of it shows `Playhead.Timeline.shown`, which depends on its
entries alone (`Playhead.Track.step_loaded`). A snapshot is shown when another one is in effect at
the target than at the start; changes are shown one by one.

What is shown comes from entries between the two ends of the step: over a span without entries the
same one stays in effect (`Playhead.Timeline.floor?_eq_of_between_eq_nil`).
-/

namespace Playhead

variable {V : Type}

namespace Direction

theorem leads_forward {start target : Time} : forward.leads start target = true ↔ start < target :=
  decide_eq_true_iff

theorem leads_backward {start target : Time} :
    backward.leads start target = true ↔ target < start :=
  decide_eq_true_iff

end Direction

namespace Timeline

/-- What a step shows of a timeline. -/
def shown (line : Timeline V) (discipline : Discipline V) (direction : Direction)
    (start target : Time) : List Packet :=
  if direction.leads start target then
    match discipline, direction with
    | .snapshots emit, _ =>
      if line.floorKey? start = line.floorKey? target then []
      else ((line.floor? target).map fun e => emit e.2).getD []
    | .changes forward _, .forward => (line.between start target).flatMap fun e => forward e.2
    | .changes _ backward, .backward =>
      (line.between target start).reverse.flatMap fun e => backward e.2
  else []

section Shown

variable {line : Timeline V} {direction : Direction} {start target : Time}

theorem shown_of_not_leads {discipline : Discipline V} (h : ¬ direction.leads start target) :
    line.shown discipline direction start target = [] :=
  if_neg h

/-- Of snapshots the one at the target is shown, if another one was in effect. -/
theorem shown_snapshots {emit : V → List Packet} (h : direction.leads start target) :
    line.shown (.snapshots emit) direction start target =
      if line.floorKey? start = line.floorKey? target then []
      else ((line.floor? target).map fun e => emit e.2).getD [] := by
  cases direction <;> exact if_pos h

/-- Forward, changes are shown one by one in order. -/
theorem shown_forward {forward backward : V → List Packet} (h : start ≤ target) :
    line.shown (.changes forward backward) .forward start target =
      (line.between start target).flatMap fun e => forward e.2 := by
  rw [shown]
  split
  · rfl
  · next hlead =>
    rw [Direction.leads_forward] at hlead
    rw [show line.between start target = [] from List.filter_eq_nil_iff.2 fun e _ => by
      simp only [decide_eq_true_eq]
      lia]
    rfl

/-- Backward, changes are undone one by one from the last. -/
theorem shown_backward {forward backward : V → List Packet} (h : target ≤ start) :
    line.shown (.changes forward backward) .backward start target =
      (line.between target start).reverse.flatMap fun e => backward e.2 := by
  rw [shown]
  split
  · rfl
  · next hlead =>
    rw [Direction.leads_backward] at hlead
    rw [show line.between target start = [] from List.filter_eq_nil_iff.2 fun e _ => by
      simp only [decide_eq_true_eq]
      lia]
    rfl

theorem mem_between {s t : Time} {e : Time × V} :
    e ∈ line.between s t ↔ e ∈ line.entries ∧ s < e.1 ∧ e.1 ≤ t := by
  rw [between, List.mem_filter, decide_eq_true_eq]

/-- Without an entry in between, the same entry is in effect. -/
theorem floor?_eq_of_between_eq_nil {s t : Time} (hst : s ≤ t) (h : line.between s t = []) :
    line.floor? s = line.floor? t := by
  have happend := line.upTo_append_between hst
  rw [h, List.append_nil] at happend
  exact congrArg List.getLast? happend.symm

/-- The same entry is in effect at an earlier moment, unless the moment is before its key. -/
theorem floorKey?_eq_iff_of_floor? {e : Time × V} (h : line.floor? target = some e)
    (hle : start ≤ target) : line.floorKey? start = line.floorKey? target ↔ ¬ start < e.1 := by
  rw [floorKey?, floorKey?, h, Option.map_some]
  constructor
  · intro hkey
    obtain ⟨_, he, hfst⟩ := Option.map_eq_some_iff.1 hkey
    exact Int.not_lt.2 (hfst ▸ (floor?_eq_some_iff.1 he).2.1)
  · intro hlate
    rw [floor?_eq_of_le h (Int.not_lt.1 hlate) hle, Option.map_some]

end Shown

end Timeline

namespace Track

section Loaded

variable (handle : Handle) (line : Timeline V) (discipline : Discipline V)

/-- Forward, a snapshot is shown if its key is later than the start. -/
theorem play_loaded (start target : Time) :
    (Track.mk handle (some line)).play discipline start target =
      .ok (line.shown discipline .forward start target) := by
  rw [play]
  split
  · next h =>
    rw [Timeline.shown_of_not_leads (by rw [Direction.leads_forward]; exact Int.not_lt.2 h)]
  · next h =>
    have hlt := Int.not_le.1 h
    cases discipline with
    | changes forward backward =>
      rw [Timeline.shown_forward (Int.le_of_lt hlt)]
      rfl
    | snapshots emit =>
      rw [Timeline.shown_snapshots (Direction.leads_forward.2 hlt)]
      simp only [timeline, bind, Except.bind, pure, Except.pure]
      cases hfloor : line.floor? target with
      | none => simp
      | some e =>
        simp only [Timeline.floorKey?_eq_iff_of_floor? hfloor (Int.le_of_lt hlt), ite_not]
        rfl

/-- Backward, a snapshot is shown if another one was in effect at the start. -/
theorem playBackward_loaded (start target : Time) :
    (Track.mk handle (some line)).playBackward discipline start target =
      .ok (line.shown discipline .backward start target) := by
  rw [playBackward]
  split
  · next h =>
    rw [Timeline.shown_of_not_leads (by rw [Direction.leads_backward]; exact Int.not_lt.2 h)]
  · next h =>
    have hlt := Int.not_le.1 h
    cases discipline with
    | changes forward backward =>
      rw [Timeline.shown_backward (Int.le_of_lt hlt)]
      rfl
    | snapshots emit =>
      rw [Timeline.shown_snapshots (Direction.leads_backward.2 hlt)]
      simp only [timeline, bind, Except.bind, pure, Except.pure]
      cases hfloor : line.floor? target with
      | none => simp
      | some e =>
        rw [show line.floorKey? target = some e.1 by rw [Timeline.floorKey?, hfloor]; rfl]
        rfl

/-- **A loaded track shows what its entries say.** -/
theorem step_loaded (direction : Direction) (start target : Time) :
    (Track.mk handle (some line)).step discipline direction start target =
      .ok (line.shown discipline direction start target) := by
  cases direction with
  | forward => exact play_loaded handle line discipline start target
  | backward => exact playBackward_loaded handle line discipline start target

end Loaded

/-- What a step emits is shown by the entries, and they are there. -/
theorem exists_shown {track : Track V} {discipline : Discipline V} {direction : Direction}
    {start target : Time} {packets : List Packet} {packet : Packet}
    (h : track.step discipline direction start target = .ok packets) (hp : packet ∈ packets) :
    ∃ line, track.loaded = some line ∧ packet ∈ line.shown discipline direction start target := by
  obtain ⟨handle, _ | line⟩ := track
  · -- without entries a step fails or has nothing to do
    cases direction <;> simp only [step, play, playBackward, timeline, bind, Except.bind] at h <;>
      split at h <;> cases h
    all_goals exact absurd hp List.not_mem_nil
  · rw [step_loaded] at h
    cases h
    exact ⟨line, rfl, hp⟩

end Track

end Playhead
