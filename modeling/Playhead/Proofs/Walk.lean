import Playhead.Proofs.Indexer.Chunks

/-!
# Walks along a track

A walk goes from moment to moment, each time in the direction that leads there
(`Playhead.Track.walk`). What a loaded track has shown in the end does not depend on the way:

* along **snapshots**, the one shown last is the one in effect, and a step shows one just when
  another comes into effect (`Playhead.Track.walk_snapshots`). Before the first snapshot none is in
  effect and nothing is shown, so there the one shown last is out of date; it is never taken for the
  current one later, since the first snapshot comes into effect anew when the walk returns to it;
* along **block changes**, a column that takes all updates has, at every moment that is reached,
  just the changes up to then (`Playhead.Track.walk_changes`). The way back is the way there in the
  opposite order, with every change undone.

What a step shows is known from the ends of the step alone (`Playhead.Timeline.fresh?`,
`Playhead.Column.Sound.updateAll_shown`), so both are inductions on the walk, with what has been
shown before general.
-/

namespace Playhead

variable {V : Type}

/-- The direction in which one moment is reached from another. -/
def Direction.toward (start target : Time) : Direction :=
  if target < start then .backward else .forward

/-- A step to another moment leads in its direction. -/
theorem Direction.leads_toward {start target : Time} :
    (toward start target).leads start target = true ↔ start ≠ target := by
  rw [toward]
  split
  · rw [leads_backward]
    lia
  · rw [leads_forward]
    lia

namespace Track

/-- The packets of each step of a walk from a moment through others. -/
def walk (track : Track V) (discipline : Discipline V) (start : Time) (times : List Time) :
    Except Failure (List (List Packet)) :=
  ((start :: times).zip times).mapM fun (a, b) => track.step discipline (.toward a b) a b

/-- **A walk along a loaded track never fails.** -/
theorem walk_loaded (handle : Handle) (line : Timeline V) (discipline : Discipline V)
    (start : Time) (times : List Time) :
    (Track.mk handle (some line)).walk discipline start times =
      .ok (((start :: times).zip times).map fun (a, b) =>
        line.shown discipline (.toward a b) a b) := by
  simp only [walk, step_loaded]
  exact List.mapM_pure

end Track

/-! ### Snapshots -/

namespace Timeline

/-- Whether an entry is in effect at a moment: it is not after it, and no other such entry is
later. -/
def InEffect (line : Timeline V) (t k : Time) (v : V) : Prop :=
  (k, v) ∈ line.entries ∧ k ≤ t ∧ ∀ e ∈ line.entries, e.1 ≤ t → e.1 ≤ k

/-- The snapshot that comes into effect between two moments, if it is another one. -/
def fresh? (line : Timeline V) (start target : Time) : Option V :=
  if line.floorKey? start = line.floorKey? target then none else line.at? target

variable {line : Timeline V} {a b : Time}

/-- A step shows the snapshot that comes into effect, and nothing else. -/
theorem shown_toward (emit : V → List Packet) :
    line.shown (.snapshots emit) (.toward a b) a b = ((line.fresh? a b).map emit).getD [] := by
  rw [fresh?, at?]
  by_cases hab : a = b
  · rw [shown_of_not_leads (by simp [Direction.leads_toward, hab]), if_pos (by rw [hab])]
    rfl
  · rw [shown_snapshots (Direction.leads_toward.2 hab)]
    split
    · rfl
    · rw [Option.map_map]
      rfl

/-- **A snapshot comes into effect** if it is in effect at the target and was not at the start. -/
theorem fresh?_eq_some_iff {v : V} :
    line.fresh? a b = some v ↔ ∃ k, line.InEffect b k v ∧ ¬ ∃ w, line.InEffect a k w := by
  simp only [InEffect, ← floor?_eq_some_iff, ← floorKey?_eq_some_iff]
  rw [fresh?, at?]
  constructor
  · intro h
    split at h
    · exact absurd h (by simp)
    · next hne =>
      obtain ⟨⟨k, w⟩, hfloor, rfl⟩ := Option.map_eq_some_iff.1 h
      exact ⟨k, hfloor, fun hkey => hne (hkey.trans (floorKey?_eq_some_iff.2 ⟨w, hfloor⟩).symm)⟩
  · rintro ⟨k, hfloor, hkey⟩
    rw [floorKey?_eq_some_iff.2 ⟨v, hfloor⟩, if_neg hkey, hfloor]
    rfl

/-- What was shown last is in effect after a step if it was before, or else something is shown. -/
theorem fresh?_or {last : Option V} (hlast : ∀ k v, line.InEffect a k v → last = some v) {k : Time}
    {v : V} (h : line.InEffect b k v) : (line.fresh? a b).or last = some v := by
  by_cases hbefore : ∃ w, line.InEffect a k w
  · obtain ⟨w, hw⟩ := hbefore
    obtain rfl := line.eq_of_mem_of_mem hw.1 h.1
    rw [hlast k w hw]
    cases hfresh : line.fresh? a b with
    | none => rfl
    | some u =>
      -- at the target only one entry is in effect
      obtain ⟨k', hk', hnot⟩ := fresh?_eq_some_iff.1 hfresh
      obtain rfl : k' = k := Int.le_antisymm (h.2.2 _ hk'.1 hk'.2.1) (hk'.2.2 _ h.1 h.2.1)
      exact absurd ⟨w, hw⟩ hnot
  · rw [fresh?_eq_some_iff.2 ⟨k, h, hbefore⟩, Option.some_or]

/-- The snapshot that each step of a walk shows, if it shows one. -/
def applied (line : Timeline V) (start : Time) (times : List Time) : List (Option V) :=
  ((start :: times).zip times).map fun (a, b) => line.fresh? a b

theorem applied_cons (line : Timeline V) (start t : Time) (times : List Time) :
    line.applied start (t :: times) = line.fresh? start t :: line.applied t times := rfl

/-- What is shown last is the last of the rest, or else the first, or else what was shown before. -/
theorem getLast?_filterMap_cons_or (shown : Option V) (rest : List (Option V)) (last : Option V) :
    ((shown :: rest).filterMap id).getLast?.or last =
      (rest.filterMap id).getLast?.or (shown.or last) := by
  cases shown with
  | none => rfl
  | some v =>
    rw [List.filterMap_cons_some (f := id) (b := v) rfl, List.getLast?_cons]
    cases (rest.filterMap id).getLast? <;> rfl

/-- **Along a walk the snapshot shown last is the one in effect**, if it was at the start. -/
theorem getLast?_applied {start : Time} {last : Option V}
    (hlast : ∀ k v, line.InEffect start k v → last = some v) {times : List Time} {i : Nat}
    {t k : Time} {v : V} (ht : times[i]? = some t) (h : line.InEffect t k v) :
    (((line.applied start times).take (i + 1)).filterMap id).getLast?.or last = some v := by
  induction times generalizing start last i with
  | nil => exact absurd ht (by simp)
  | cons t' times ih =>
    rw [applied_cons, List.take_succ_cons, getLast?_filterMap_cons_or]
    cases i with
    | zero =>
      obtain rfl : t' = t := Option.some.inj ht
      rw [List.take_zero]
      exact fresh?_or hlast h
    | succ i => exact ih (fun k v h => fresh?_or hlast h) ht

end Timeline

namespace Track

/-- **Along a walk over snapshots the one shown last is the one in effect, and none is shown in
vain.** Take a loaded track of snapshots, with any entries, and any walk that starts before the
first of them. No step fails, and each shows one snapshot or none, whatever snapshots show. It shows
one just if an entry is in effect at its end that was not at its start, and then it shows that one.
And wherever an entry is in effect, it is the one shown last in the whole walk. -/
theorem walk_snapshots (handle : Handle) {line : Timeline V} {start : Time}
    (hstart : ∀ e ∈ line.entries, start < e.1) (times : List Time) :
    ∃ applied : List (Option V),
      (∀ emit, (Track.mk handle (some line)).walk (.snapshots emit) start times =
        .ok (applied.map fun shown => (shown.map emit).getD [])) ∧
      (∀ (i : Nat) (a b : Time), (start :: times)[i]? = some a → times[i]? = some b →
        ∃ shown, applied[i]? = some shown ∧
          ∀ v, shown = some v ↔ ∃ k, line.InEffect b k v ∧ ¬ ∃ w, line.InEffect a k w) ∧
      ∀ (i : Nat) (t k : Time) (v : V), times[i]? = some t → line.InEffect t k v →
        ((applied.take (i + 1)).filterMap id).getLast? = some v := by
  refine ⟨line.applied start times, fun emit => ?_, fun i a b ha hb => ?_, fun i t k v ht h => ?_⟩
  · rw [walk_loaded, Timeline.applied, List.map_map]
    exact congrArg _ (List.map_congr_left fun e _ => Timeline.shown_toward emit)
  · refine ⟨line.fresh? a b, ?_, fun v => Timeline.fresh?_eq_some_iff⟩
    rw [Timeline.applied, List.getElem?_map,
      (List.getElem?_zip_eq_some (z := (a, b))).2 ⟨ha, hb⟩]
    rfl
  · -- before the first entry there is nothing that could be out of date
    have hnone : ∀ k v, line.InEffect start k v → none = some v := fun k v h =>
      absurd h.2.1 (Int.not_le.2 (hstart _ h.1))
    rw [← Timeline.getLast?_applied hnone ht h, Option.or_none]

/-- The strengths of some showers. -/
def showers : Timeline Float32Bits := .ofList [(3, 1), (5, 2)]

/-- Forth over both showers, back to before the first, where nothing is shown, and forth again. -/
theorem walk_snapshots_showers :
    (∀ e ∈ showers.entries, 1 < e.1) ∧ showers.InEffect 4 3 1 ∧
    ∃ applied : List (Option Float32Bits),
      (Track.mk 0 (some showers)).walk weatherDiscipline 1 [4, 6, 2, 4, 5, 3] =
        .ok (applied.map fun shown => (shown.map fun level => [.rainLevel level]).getD []) ∧
      ((applied.take 4).filterMap id).getLast? = some 1 := by
  have hstart : ∀ e ∈ showers.entries, 1 < e.1 := by decide
  have heffect : showers.InEffect 4 3 1 := ⟨by decide, by decide, by decide⟩
  obtain ⟨applied, hwalk, -, hlast⟩ := walk_snapshots 0 hstart [4, 6, 2, 4, 5, 3]
  exact ⟨hstart, heffect, applied, hwalk _, hlast 3 4 3 1 rfl heffect⟩

end Track

/-! ### Block changes -/

/-- **The entries of a span are those of its two parts.** -/
theorem Timeline.between_append_between (line : Timeline V) {a b c : Time} (hab : a ≤ b)
    (hbc : b ≤ c) : line.between a c = line.between a b ++ line.between b c := by
  have hsplit := line.upTo_append_between (Int.le_trans hab hbc)
  rw [line.upTo_append_between hbc, line.upTo_append_between hab, List.append_assoc] at hsplit
  exact (List.append_cancel_left hsplit).symm

namespace Column

/-- The column after the block updates among some packets. -/
def updateAll (minY : Int32) (column : Column) (packets : List Packet) : Column :=
  packets.foldl (fun column packet => match packet with
    | .blockUpdate position state => column.setBlock minY position state
    | _ => column) column

theorem updateAll_append (minY : Int32) (column : Column) (front back : List Packet) :
    column.updateAll minY (front ++ back) = (column.updateAll minY front).updateAll minY back :=
  List.foldl_append

variable {minY : Int32} {column : Column}

/-- Block updates set blocks in the content. -/
theorem Sound.updateAll_updates (h : column.Sound) (minY : Int32)
    (updates : List (Position × BlockState)) (hrange : ∀ u ∈ updates, IdInRange u.2) :
    (column.updateAll minY (updates.map fun u => .blockUpdate u.1 u.2)).Sound ∧
      (column.updateAll minY (updates.map fun u => .blockUpdate u.1 u.2)).content =
        updates.foldl (fun content u => content.setBlock minY u.1 u.2) column.content := by
  induction updates generalizing column with
  | nil => exact ⟨h, rfl⟩
  | cons u updates ih =>
    have hstate := hrange u List.mem_cons_self
    obtain ⟨hsound, hcontent⟩ := ih (h.setBlock minY u.1 hstate) fun u' hu' =>
      hrange u' (List.mem_cons_of_mem _ hu')
    refine ⟨hsound, hcontent.trans ?_⟩
    rw [h.content_setBlock minY u.1 hstate]
    rfl

/-- Changes that each find the block that they change from are chained in the content. -/
theorem Sound.chained (h : column.Sound) {changes : List BlockChange}
    (hrange : ∀ c ∈ changes, IdInRange c.after)
    (hfind : ∀ done c rest, changes = done ++ c :: rest →
      (column.run minY done).block? minY c.position = some c.before) :
    Content.Chained minY column.content changes := by
  induction changes generalizing column with
  | nil => exact .nil
  | cons c changes ih =>
    have hstate := hrange c List.mem_cons_self
    have hrest := ih (h.setBlock minY c.position hstate)
      (fun c' hc' => hrange c' (List.mem_cons_of_mem _ hc')) fun done c' rest hsplit =>
        hfind (c :: done) c' rest (by rw [hsplit, List.cons_append])
    rw [h.content_setBlock minY c.position hstate] at hrest
    exact .cons ((h.block?_eq minY c.position).symm.trans (hfind [] c changes rfl)) hrest

/-- **A step of a walk takes a column from the changes up to its start to those up to its end.** -/
theorem Sound.updateAll_shown (h : column.Sound) {content : Content}
    {line : Timeline (List BlockChange)} {a : Time}
    (hcontent : column.content = content.run minY (line.changesUpTo a))
    (hchained : Content.Chained minY content (line.entries.flatMap (·.2)))
    (hrange : ∀ c ∈ line.entries.flatMap (·.2), IdInRange c.before ∧ IdInRange c.after)
    (b : Time) :
    (column.updateAll minY (line.shown chunkDiscipline (.toward a b) a b)).Sound ∧
      (column.updateAll minY (line.shown chunkDiscipline (.toward a b) a b)).content =
        content.run minY (line.changesUpTo b) := by
  have hbetween : ∀ {s t : Time}, ∀ c ∈ (line.between s t).flatMap (·.2),
      IdInRange c.before ∧ IdInRange c.after := by
    intro s t c hc
    obtain ⟨e, he, hc⟩ := List.mem_flatMap.1 hc
    exact hrange c (List.mem_flatMap.2 ⟨e, List.mem_of_mem_filter he, hc⟩)
  rw [Direction.toward]
  split
  · next hlt =>
    have hle := Int.le_of_lt hlt
    have hsplit := Life.changesUpTo_append line hle
    obtain ⟨hsound, hundone⟩ := h.updateAll_updates minY
      (((line.between b a).flatMap (·.2)).reverse.map fun c => (c.position, c.before))
      fun u hu => by
        obtain ⟨c, hc, rfl⟩ := List.mem_map.1 hu
        exact (hbetween c (List.mem_reverse.1 hc)).1
    rw [List.map_map] at hsound hundone
    rw [List.foldl_map, hcontent, hsplit, Content.run_append] at hundone
    -- the changes that are taken back are chained, so nothing is left of them
    have hchain := Life.chained_changesUpTo hchained a
    rw [hsplit, Content.chained_append] at hchain
    rw [Life.shown_chunk_backward hle]
    exact ⟨hsound, hundone.trans (Content.undo_run hchain.2)⟩
  · next hlt =>
    have hle := Int.not_lt.1 hlt
    obtain ⟨hsound, hdone⟩ := h.updateAll_updates minY
      (((line.between a b).flatMap (·.2)).map fun c => (c.position, c.after))
      fun u hu => by
        obtain ⟨c, hc, rfl⟩ := List.mem_map.1 hu
        exact (hbetween c hc).2
    rw [List.map_map] at hsound hdone
    rw [List.foldl_map, hcontent] at hdone
    rw [Life.shown_chunk_forward hle, Life.changesUpTo_append line hle, Content.run_append]
    exact ⟨hsound, hdone⟩

/-- **Along a walk a column has just the changes up to the moment that is reached**, if it had at
the start. -/
theorem Sound.updateAll_walk (h : column.Sound) {content : Content}
    {line : Timeline (List BlockChange)} {start : Time}
    (hcontent : column.content = content.run minY (line.changesUpTo start))
    (hchained : Content.Chained minY content (line.entries.flatMap (·.2)))
    (hrange : ∀ c ∈ line.entries.flatMap (·.2), IdInRange c.before ∧ IdInRange c.after)
    {times : List Time} {i : Nat} {t : Time} (ht : times[i]? = some t) :
    (column.updateAll minY ((((start :: times).zip times).map fun (a, b) =>
      line.shown chunkDiscipline (.toward a b) a b).take (i + 1)).flatten).Sound ∧
      (column.updateAll minY ((((start :: times).zip times).map fun (a, b) =>
        line.shown chunkDiscipline (.toward a b) a b).take (i + 1)).flatten).content =
          content.run minY (line.changesUpTo t) := by
  induction times generalizing start column i with
  | nil => exact absurd ht (by simp)
  | cons t' times ih =>
    obtain ⟨hsound, hstep⟩ := h.updateAll_shown hcontent hchained hrange t'
    rw [List.zip_cons_cons, List.map_cons, List.take_succ_cons, List.flatten_cons, updateAll_append]
    cases i with
    | zero =>
      obtain rfl : t' = t := Option.some.inj ht
      exact ⟨hsound, hstep⟩
    | succ i => exact ih hsound hstep ht

end Column

namespace Track

/-- **Along a walk over block changes a column has just the changes up to the moment that is
reached.** Take the loaded track of a chunk, with any entries, and a sound column in which each
change finds the block that it changes from, once those before it have been made. Then no step of a
walk that starts before the first entry fails, and after each of them a column that has taken all
updates so far has the blocks of the column with the changes up to then. Every way back is the way
there in the opposite order, with the blocks from before, and the way to a moment is that to a
moment on the way and on from there. -/
theorem walk_changes (handle : Handle) {line : Timeline (List BlockChange)} {column : Column}
    (hcolumn : column.Sound) (minY : Int32)
    (hrange : ∀ c ∈ line.entries.flatMap (·.2), IdInRange c.before ∧ IdInRange c.after)
    (hfind : ∀ done c rest, line.entries.flatMap (·.2) = done ++ c :: rest →
      (column.run minY done).block? minY c.position = some c.before)
    {start : Time} (hstart : ∀ e ∈ line.entries, start < e.1) (times : List Time) :
    (∃ shown, (Track.mk handle (some line)).walk chunkDiscipline start times = .ok shown ∧
      ∀ (i : Nat) (t : Time), times[i]? = some t →
        (column.updateAll minY (shown.take (i + 1)).flatten).same
          (column.run minY (line.changesUpTo t)) = true) ∧
    (∀ a b, a ≤ b →
      (ThingTrack.chunk ⟨handle, some line⟩).step .forward a b =
        .ok (((line.between a b).flatMap (·.2)).map fun c => .blockUpdate c.position c.after) ∧
      (ThingTrack.chunk ⟨handle, some line⟩).step .backward b a =
        .ok (((line.between a b).flatMap (·.2)).reverse.map fun c =>
          .blockUpdate c.position c.before)) ∧
    ∀ a b c, a ≤ b → b ≤ c → ∃ front back,
      (ThingTrack.chunk ⟨handle, some line⟩).step .forward a b = .ok front ∧
      (ThingTrack.chunk ⟨handle, some line⟩).step .forward b c = .ok back ∧
      (ThingTrack.chunk ⟨handle, some line⟩).step .forward a c = .ok (front ++ back) := by
  -- the way there, which the last part also splits at a moment
  have hforth {a b : Time} (hab : a ≤ b) :
      (ThingTrack.chunk ⟨handle, some line⟩).step .forward a b =
        .ok (((line.between a b).flatMap (·.2)).map fun c => .blockUpdate c.position c.after) :=
    (step_loaded handle line chunkDiscipline .forward a b).trans
      (congrArg _ (Life.shown_chunk_forward hab))
  refine ⟨⟨_, walk_loaded .., fun i t ht => ?_⟩, fun a b hab => ⟨hforth hab, ?_⟩,
    fun a b c hab hbc => ⟨_, _, hforth hab, hforth hbc, ?_⟩⟩
  · -- there are no changes up to the start
    have hnone : line.changesUpTo start = [] := by
      rw [Timeline.changesUpTo, Timeline.upTo, List.filter_eq_nil_iff.2, List.flatMap_nil]
      exact fun e he => by simpa using hstart e he
    have hchained := hcolumn.chained (fun c hc => (hrange c hc).2) hfind
    have hunchanged : column.content = column.content.run minY (line.changesUpTo start) := by
      rw [hnone]
      rfl
    have hafter : ∀ c ∈ line.changesUpTo t, IdInRange c.after := by
      intro c hc
      obtain ⟨e, he, hc⟩ := Life.mem_changesUpTo hc
      exact (hrange c (List.mem_flatMap.2 ⟨e, he, hc⟩)).2
    obtain ⟨hsound, hcontent⟩ := hcolumn.updateAll_walk hunchanged hchained hrange ht
    obtain ⟨hsound', hcontent'⟩ := hcolumn.run minY hafter
    rw [Column.same_iff hsound hsound', hcontent, hcontent']
  · exact (step_loaded handle line chunkDiscipline .backward b a).trans
      (congrArg _ (Life.shown_chunk_backward hab))
  · rw [hforth (Int.le_trans hab hbc), Timeline.between_append_between line hab hbc,
      List.flatMap_append, List.map_append]

/-- A block that changes twice in one millisecond, and back later. -/
def pit : Timeline (List BlockChange) :=
  .ofList [(2, [⟨⟨3, -60, 4⟩, 0, 7⟩, ⟨⟨3, -60, 4⟩, 7, 9⟩]), (5, [⟨⟨3, -60, 4⟩, 9, 0⟩])]

/-- A column of air. -/
def air : Column := ⟨#[.empty 0]⟩

theorem sound_air : air.Sound := by
  rintro s (_ | ⟨_, ⟨⟩⟩)
  have hair : IdInRange 0 := by decide
  exact ⟨⟨rfl, trivial, fun _ _ => hair⟩, rfl⟩

/-- Each change of the pit finds the block that it changes from. -/
theorem pit_finds : ∀ done c rest, pit.entries.flatMap (·.2) = done ++ c :: rest →
    (air.run (-64) done).block? (-64) c.position = some c.before := by
  rintro (_ | ⟨_, _ | ⟨_, _ | ⟨_, done⟩⟩⟩) c rest hsplit
  · cases hsplit
    decide +kernel
  · cases hsplit
    decide +kernel
  · cases hsplit
    decide +kernel
  · -- there are only three changes
    have hlength : (pit.entries.flatMap (·.2)).length = 3 := by decide
    rw [hsplit] at hlength
    simp only [List.cons_append, List.length_cons, List.length_append] at hlength
    omega

/-- Forth and back inside the pit. -/
theorem walk_changes_pit :
    air.Sound ∧ (∀ e ∈ pit.entries, 1 < e.1) ∧
    ∃ shown, (Track.mk 0 (some pit)).walk chunkDiscipline 1 [3, 0, 6, 2, 4, 1] = .ok shown ∧
      (air.updateAll (-64) (shown.take 2).flatten).same air = true ∧
      (air.updateAll (-64) (shown.take 4).flatten).same
        (air.run (-64) [⟨⟨3, -60, 4⟩, 0, 7⟩, ⟨⟨3, -60, 4⟩, 7, 9⟩]) = true := by
  have hstart : ∀ e ∈ pit.entries, 1 < e.1 := by decide
  obtain ⟨⟨shown, hwalk, hcolumns⟩, -, -⟩ :=
    walk_changes 0 sound_air (-64) (by decide) pit_finds hstart [3, 0, 6, 2, 4, 1]
  exact ⟨sound_air, hstart, shown, hwalk, hcolumns 1 0 rfl, hcolumns 3 2 rfl⟩

end Track

end Playhead
