import Playhead.Proofs.Indexer.Ledger

/-!
# The shape of what is recorded

Whatever a recording contains, the lives on a stage begin when the stage has begun, nothing on their
tracks is missing or idle, and a life that is over has nothing on its track after its end
(`Playhead.Stage.Shaped`). Stages follow one another: when one begins, all lives of those before it
are over (`Playhead.Ledger.Successive`).

Two stages can begin at the same time, and then the second takes the place of the first among those
that are over. Nothing is lost by that, for no life of the first can have lasted
(`Playhead.Ledger.Successive.lossless`).
-/

namespace Playhead

namespace Stage

/-- A stage on which every life begins in its time and has its track in shape. -/
structure Shaped (stage : Stage) : Prop where
  past : ∀ life ∈ stage.past,
    stage.start ≤ life.spawn ∧ life.role.FoundedAt life.spawn ∧ life.Within life.despawn
  present : ∀ key life, stage.present key = some life →
    stage.start ≤ life.spawn ∧ life.role.FoundedAt life.spawn

variable {stage stage' : Stage} {t : Time}

theorem shaped_begin (t : Time) (info : WorldInfo) (seeds : Channel → Packet) :
    (begin t info seeds).Shaped :=
  ⟨fun _ h => absurd h List.not_mem_nil, fun _ _ h => absurd h (by simp [begin])⟩

/-- A stage stays in shape when a thing goes. -/
theorem Shaped.retire (h : stage.Shaped) (horder : stage.Orderly t) (key : ThingKey) :
    (stage.retire t key).Shaped where
  past life hlife := by
    rw [start_retire]
    rcases mem_past_retire hlife with hlife | ⟨old, hold, -, rfl⟩
    · exact h.past life hlife
    · obtain ⟨hstart, hfounded⟩ := h.present key old hold
      obtain ⟨-, -, hwithin⟩ := horder.present key old hold
      exact ⟨hstart, hfounded, hwithin.nonneg, hwithin.spawn_le, hwithin.times⟩
  present key' life hlife := by
    rw [start_retire]
    exact h.present key' life (present_of_retire hlife).2

/-- A stage stays in shape when a thing is placed, if that is well founded. -/
theorem Shaped.place (h : stage.Shaped) (hstart : stage.start ≤ t) {role : Role}
    (hfounded : role.FoundedAt t) : (stage.place t role).Shaped where
  past := h.past
  present key life hlife := by
    rcases of_update_eq_some hlife with ⟨-, rfl⟩ | ⟨-, hlife⟩
    · exact ⟨hstart, hfounded⟩
    · exact h.present key life hlife

/-- A stage stays in shape when a thing goes on. -/
theorem Shaped.alter (h : stage.Shaped) (horder : stage.Orderly t) {key : ThingKey}
    {f : Role → Role} (hf : ∀ role, role.key = key → Role.GoesOnAt t role (f role)) :
    (stage.alter key f).Shaped where
  past := h.past
  present key' life hlife := by
    rw [present_alter] at hlife
    split at hlife
    · obtain ⟨old, hold, rfl⟩ := Option.map_eq_some_iff.1 hlife
      obtain ⟨hstart, hfounded⟩ := h.present key old hold
      exact ⟨hstart, (hf old.role (horder.present key old hold).1).founded _ hfounded⟩
    · exact h.present key' life hlife

/-- A stage stays in shape when it closes. -/
theorem Shaped.close (h : stage.Shaped) (horder : stage.Orderly t) (keys : List ThingKey) :
    (stage.close t keys).Shaped := by
  induction keys generalizing stage with
  | nil => exact h
  | cons key keys ih => exact ih (h.retire horder key) (horder.retire key)

/-- **Whatever arrives, the stage stays in shape.** -/
theorem Moves.shaped {packet : Packet} (hmoves : stage.Moves t packet stage')
    (horder : stage.Orderly t) (h : stage.Shaped) : stage'.Shaped := by
  induction hmoves with
  | stay => exact h
  | retire before _ ih => exact ih.retire (before.orderly horder) _
  | place before _ _ _ hfounded _ ih => exact ih.place (before.orderly horder).start_le hfounded
  | alter before _ hgoes _ ih => exact ih.alter (before.orderly horder) hgoes
  | setColumn _ _ _ ih | signal _ _ ih => exact ⟨ih.past, ih.present⟩

end Stage

namespace Ledger

variable {ledger ledger' : Ledger} {recording : Recording} {now t : Time} {packet : Packet}

/-- **All stages of a recording are in shape.** -/
theorem After.shaped (h : After recording now ledger) : ledger.All Stage.Shaped := by
  induction h with
  | blank => exact all_blank _
  | packet hbefore hle hreceives ih =>
    have horder := hbefore.orderly.mono hle
    exact hreceives.all ih
      (fun stage keys _ hcurrent h => h.close (horder.current stage hcurrent).1 keys)
      (fun info seeds _ => Stage.shaped_begin _ info seeds)
      fun stage _ _ hcurrent h =>
        (stage.moves_receive _ _).shaped (horder.current stage hcurrent).1 h

/-- A ledger stays in shape when its stage closes. -/
theorem Closes.shaped (hcloses : ledger.Closes t ledger') (horder : ledger.Orderly t)
    (h : ledger.All Stage.Shaped) : ledger'.All Stage.Shaped :=
  hcloses.all h fun stage keys hcurrent hstage =>
    hstage.close (horder.current stage hcurrent).1 keys

/-! ### One stage after the other -/

/-- When a stage begins, all lives on those before it are over. -/
structure Successive (ledger : Ledger) : Prop where
  closed : ∀ e ∈ ledger.closed.entries, ∀ e' ∈ ledger.closed.entries, e.1 < e'.1 →
    ∀ life ∈ e.2.past, life.despawn ≤ e'.1
  current : ∀ stage, ledger.current = some stage → ∀ e ∈ ledger.closed.entries,
    ∀ life ∈ e.2.past, life.despawn ≤ stage.start

/-- The worlds of a ledger stay one after the other when its stage closes. -/
theorem Closes.successive (hcloses : ledger.Closes t ledger') (horder : ledger.Orderly t)
    (h : ledger.Successive) : ledger'.Successive := by
  cases hcloses with
  | idle => exact h
  | @busy stage keys hcurrent =>
    refine ⟨fun e he e' he' hlt => ?_, fun stage h => absurd h (by simp)⟩
    have hlatest := (horder.current stage hcurrent).2
    rcases SortedMap.mem_insert_iff.1 he' with rfl | ⟨he', -⟩
    · rcases SortedMap.mem_insert_iff.1 he with rfl | ⟨he, -⟩
      · exact absurd hlt (Int.lt_irrefl _)
      · exact h.current stage hcurrent e he
    · rcases SortedMap.mem_insert_iff.1 he with rfl | ⟨he, -⟩
      · -- no stage that is over began after the one that ends now
        exact absurd hlt (Int.not_lt.2 (hlatest e' he'))
      · exact h.closed e he e' he' hlt

/-- A stage begins when all lives before it are over. -/
theorem Successive.open (h : ledger.Successive) (horder : ledger.Orderly t) (info : WorldInfo)
    (seeds : Channel → Packet) :
    ({ ledger with current := some (.begin t info seeds) } : Ledger).Successive where
  closed := h.closed
  current stage hstage e he life hlife := by
    obtain rfl := Option.some.inj hstage
    exact ((horder.closed e he).2.past life hlife).2.2

/-- The worlds of a ledger stay one after the other, whatever it receives. -/
theorem Receives.successive (hreceives : ledger.Receives t packet ledger')
    (horder : ledger.Orderly t) (h : ledger.Successive) : ledger'.Successive := by
  cases hreceives with
  | join hcloses =>
    have hwiped : (ledger.wipe t).Successive := ⟨h.closed, h.current⟩
    exact (hcloses.successive horder.wipe hwiped).open (hcloses.orderly horder.wipe) _ _
  | respawn _ hcloses =>
    exact (hcloses.successive horder h).open (hcloses.orderly horder) _ _
  | stray => exact h
  | correct => exact ⟨h.closed, h.current⟩
  | other =>
    refine ⟨h.closed, fun stage hstage => ?_⟩
    obtain ⟨old, hold, rfl⟩ := Option.map_eq_some_iff.1 hstage
    rw [Stage.start_receive]
    exact h.current old hold

/-- **The stages of a recording follow one another.** -/
theorem After.successive (h : After recording now ledger) : ledger.Successive := by
  induction h with
  | blank =>
    exact ⟨fun e he => absurd he List.not_mem_nil, fun stage h => absurd h (by simp [Ledger.blank])⟩
  | packet hbefore hle hreceives ih =>
    exact hreceives.successive (hbefore.orderly.mono hle) ih

/-- When the stage that lasts takes the place of another among those that are over, there is no life
on the other. -/
def Lossless (ledger : Ledger) : Prop :=
  ∀ stage old, ledger.current = some stage → ledger.closed.get? stage.start = some old →
    old.past = []

/-- **No life is lost** when a stage takes the place of one that began at the same time. -/
theorem Successive.lossless (h : ledger.Successive) (horder : ledger.Orderly t)
    (hshaped : ledger.All Stage.Shaped) : ledger.Lossless := by
  intro stage old hstage hold
  have hmem := SortedMap.get?_eq_some_iff.1 hold
  refine List.eq_nil_iff_forall_not_mem.2 fun life hlife => ?_
  -- the life would begin after its stage and end before the next one, which began with it
  have hbegins := ((hshaped.closed _ hmem).past life hlife).1
  have hends := h.current stage hstage _ hmem life hlife
  obtain ⟨hstart, horderly⟩ := horder.closed _ hmem
  have hlasts := (horderly.past life hlife).2.1
  dsimp only at hbegins hstart
  lia

/-- Nothing that is recorded is lost from a ledger. -/
theorem After.lossless (h : After recording now ledger) : ledger.Lossless :=
  h.successive.lossless h.orderly h.shaped

/-! ### How much is recorded -/

/-- The number of lives on the stages that are over. -/
def recorded (ledger : Ledger) : Nat :=
  (ledger.closed.entries.flatMap fun e => e.2.past).length

/-- **Every life of a stage that ends is recorded**, on top of those before. -/
theorem Lossless.recorded_insert (h : ledger.Lossless) (horder : ledger.Orderly t) {stage : Stage}
    (hstage : ledger.current = some stage) (ended : Stage) :
    recorded { ledger with closed := ledger.closed.insert stage.start ended, current := none } =
      ledger.recorded + ended.past.length := by
  have hlatest := (horder.current stage hstage).2
  have hold : (((ledger.closed.get? stage.start).toList.map fun old => (stage.start, old)).flatMap
      fun e => e.2.past) = [] := by
    cases hget : ledger.closed.get? stage.start with
    | none => rfl
    | some old =>
      rw [Option.toList_some, List.map_singleton, List.flatMap_singleton,
        h stage old hstage hget]
  rw [recorded, recorded, Timeline.entries_insert hlatest, List.flatMap_append, List.length_append]
  conv_rhs => rw [Timeline.entries_eq_append hlatest, List.flatMap_append, hold, List.append_nil]
  rw [List.flatMap_singleton]

end Ledger

end Playhead
