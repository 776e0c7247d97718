import Playhead.Proofs.Thing.Active

/-!
# Calls that fail midway

A call fails only when a member is to enter whose track cannot be read
(`Playhead.Cast.Refuses`). By then others have left and perhaps some have entered, and nothing is
taken back. The moment at which the cast claims to be valid is written once all have entered, so a
failure leaves the claim from before, over members that have moved. It is false then, unless by
chance (`Playhead.Cast.false_claim_after_failure`), although a claim is meant to say that just those
are active who live.

So the claim cannot be relied on after a failure, but nothing else is lost. Whatever a cast claims,
the tracks that are there are those of its active members (`Playhead.Cast.Intact`), no member
that stays or leaves ever fails, and rebuilding, if it succeeds, makes the claim right.
`Playhead.Cast.claim_after_calls` says for each call, after any others, what is claimed and who is
active when it succeeds and when it fails. Both kinds of calls are an **exchange**, in which some
members leave and others are to enter (`Playhead.Cast.Exchanges`).
-/

namespace Playhead

/-! ### One member -/

/-- A loaded track can always make a step. -/
theorem ThingTrack.exists_step {track : ThingTrack} (h : track.isLoaded = true)
    (direction : Direction) (start target : Time) :
    ∃ shown, track.step direction start target = .ok shown := by
  have hloaded {V : Type} {t : Track V} (h : t.isLoaded = true) (discipline : Discipline V) :
      ∃ shown, t.step discipline direction start target = .ok shown := by
    obtain ⟨handle, loaded⟩ := t
    obtain ⟨line, rfl⟩ := Option.isSome_iff_exists.1 h
    exact ⟨_, Track.step_loaded handle line discipline direction start target⟩
  cases track with
  | entity id t => exact hloaded h _
  | chunk t => exact hloaded h _
  | weather t => exact hloaded h _

namespace Thing

variable {thing : Thing} {log : Log}

/-- A thing whose track cannot be read is shown as it appears, and stays without a track. -/
theorem activate_of_fail {failure : Failure}
    (h : thing.track.load log = .fail thing.track failure) (t : Time) :
    thing.activate log t = ⟨thing, thing.record.spawnPackets, some failure⟩ := by
  have hload : thing.load log = ⟨thing, thing.record.spawnPackets, some failure⟩ := by
    rw [load, Outcome.emit_andThen, h, Outcome.fail_map, Outcome.fail, List.append_nil]
  rw [activate, hload]
  rfl

/-- A thing whose track can be loaded can be activated. -/
theorem activate_of_done {track : ThingTrack} (h : thing.track.load log = .done track) (t : Time) :
    ∃ packets, thing.activate log t = .emit ⟨thing.record, track⟩ packets := by
  obtain ⟨shown, hshown⟩ :=
    ThingTrack.exists_step (ThingTrack.isLoaded_of_load h) .forward origin t
  refine ⟨thing.record.spawnPackets ++ shown, ?_⟩
  rw [activate, load_of_done h]
  refine Outcome.emit_andThen_emit ?_
  rw [step, hshown]
  rfl

end Thing

namespace Cast

variable {cast cast' cast'' : Cast} {log : Log} {i : Nat} {m : Member}

/-! ### Casts with stale marks -/

instance (cast : Cast) (t : Time) : Decidable (cast.MarksLiving t) :=
  inferInstanceAs (Decidable (∀ m ∈ cast.members, m.active = true ↔ m.thing.record.AliveAt t))

/-- The records of the members. -/
def records (cast : Cast) : List ThingRecord := cast.members.toList.map (·.thing.record)

/-- A member that is replaced by itself. -/
theorem replace_self (hm : cast.members[i]? = some m) :
    { cast with members := cast.members.setIfInBounds i m } = cast := by
  obtain ⟨hi, rfl⟩ := Array.getElem?_eq_some_iff.1 hm
  rw [Array.setIfInBounds_def, dif_pos hi, Array.set_getElem_self]

/-- **A cast that has been read**, whatever it claims: no life begins before the recording or is
empty, and the tracks that are there are those of the active members. -/
structure Intact (cast : Cast) : Prop where
  loaded : cast.loaded = true
  lives : ∀ r ∈ cast.records, 0 ≤ r.spawn ∧ r.spawn < r.despawn
  tracks : ∀ m ∈ cast.members, m.thing.isLoaded = m.active

/-- **Some members have left, then some have entered**; the others are as they were, and the cast
claims what it claimed. -/
structure Shifts (cast : Cast) (left entered : List Nat) (cast' : Cast) : Prop where
  intact : cast'.Intact
  records : cast'.records = cast.records
  validAt : cast'.validAt = cast.validAt
  active : ∀ i m, cast'.members[i]? = some m →
    (m.active = true ↔ i ∈ entered ∨ i ∉ left ∧ cast.isActive i = true)

/-- **One of those who are to enter has a track that cannot be read**; those before it have
entered. -/
def Refuses (cast : Cast) (log : Log) (entering entered : List Nat) (failure : Failure) : Prop :=
  ∃ i m rest, entering = entered ++ i :: rest ∧ cast.members[i]? = some m ∧
    m.thing.track.load log = .fail m.thing.track failure

/-- Where the loading of one thing is refused it is refused in any longer row. -/
theorem Refuses.cons {entering entered : List Nat} {failure : Failure}
    (h : cast.Refuses log entering entered failure) (i : Nat) :
    cast.Refuses log (i :: entering) (i :: entered) failure := by
  obtain ⟨j, m, rest, rfl, hm, hload⟩ := h
  exact ⟨j, m, rest, rfl, hm, hload⟩

/-- Those that have entered are of those that should. -/
theorem Refuses.mem_entering {entering entered : List Nat} {failure : Failure}
    (h : cast.Refuses log entering entered failure) : ∀ i ∈ entered, i ∈ entering := by
  obtain ⟨_, _, _, rfl, -, -⟩ := h
  exact fun _ => List.mem_append_left _

theorem isActive_of_getElem? (hm : cast.members[i]? = some m) : cast.isActive i = m.active := by
  rw [isActive, hm]

theorem getElem?_records (cast : Cast) (i : Nat) :
    cast.records[i]? = (cast.members[i]?).map (·.thing.record) := by
  rw [records, List.getElem?_map, Array.getElem?_toList]

/-- Casts with the same records have the same members, but for their marks and tracks. -/
theorem exists_of_records (h : cast'.records = cast.records) (hm : cast'.members[i]? = some m) :
    ∃ n, cast.members[i]? = some n ∧ n.thing.record = m.thing.record := by
  have hrecord := cast.getElem?_records i
  rw [← h, getElem?_records, hm, Option.map_some, eq_comm, Option.map_eq_some_iff] at hrecord
  exact hrecord

namespace Shifts

variable {left left' entered entered' : List Nat}

theorem refl (h : cast.Intact) : cast.Shifts [] [] cast :=
  ⟨h, rfl, rfl, fun i m hm => by simp [isActive_of_getElem? hm]⟩

/-- One shift after another, if none of those who entered in the first leaves in the second. -/
theorem trans (h : cast.Shifts left entered cast') (h' : cast'.Shifts left' entered' cast'')
    (hstay : ∀ i ∈ entered, i ∉ left') :
    cast.Shifts (left ++ left') (entered ++ entered') cast'' where
  intact := h'.intact
  records := h'.records.trans h.records
  validAt := h'.validAt.trans h.validAt
  active i m hm := by
    obtain ⟨n, hn, -⟩ := exists_of_records h'.records hm
    have hkept := hstay i
    rw [h'.active i m hm, isActive_of_getElem? hn, h.active i n hn]
    simp only [List.mem_append, not_or]
    tauto

/-- Those who leave do so first. -/
theorem leave_enter (h : cast.Shifts left [] cast') (h' : cast'.Shifts [] entered cast'') :
    cast.Shifts left entered cast'' := by
  simpa using h.trans h' (by simp)

end Shifts

/-- One member is replaced: it has left, or it has entered. -/
theorem Intact.shifts_replace (h : cast.Intact) (hm : cast.members[i]? = some m) (m' : Member)
    (hrecord : m'.thing.record = m.thing.record) (htrack : m'.thing.isLoaded = m'.active) :
    cast.Shifts (if m'.active then [] else [i]) (if m'.active then [i] else [])
      { cast with members := cast.members.setIfInBounds i m' } := by
  have hrecords : records { cast with members := cast.members.setIfInBounds i m' } =
      cast.records := by
    refine List.ext_getElem? fun j => ?_
    rw [getElem?_records, getElem?_records, Array.getElem?_setIfInBounds]
    split
    · next hij => rw [← hij, if_pos (Array.getElem?_eq_some_iff.1 hm).1, hm, Option.map_some,
        Option.map_some, hrecord]
    · rfl
  refine ⟨⟨h.loaded, hrecords ▸ h.lives, fun n hn => ?_⟩, hrecords, rfl, fun j n hn => ?_⟩
  · rcases Array.mem_or_eq_of_mem_setIfInBounds hn with hn | rfl
    · exact h.tracks n hn
    · exact htrack
  · rw [Array.getElem?_setIfInBounds] at hn
    by_cases hij : i = j
    · subst hij
      rw [if_pos rfl, if_pos (Array.getElem?_eq_some_iff.1 hm).1] at hn
      obtain rfl := Option.some.inj hn
      cases m'.active <;> simp
    · rw [if_neg hij] at hn
      rw [isActive_of_getElem? hn]
      cases m'.active <;> simp [Ne.symm hij]

/-- Nothing happens to a member that does not exist. -/
theorem Intact.shifts_absent (h : cast.Intact) (hnone : cast.members[i]? = none)
    {left entered : List Nat} (hleft : ∀ j ∈ left, j = i) (hentered : ∀ j ∈ entered, j = i) :
    cast.Shifts left entered cast := by
  refine ⟨h, rfl, rfl, fun j m hm => ?_⟩
  have hne : j ≠ i := by
    rintro rfl
    exact absurd (hnone.symm.trans hm) (by simp)
  rw [isActive_of_getElem? hm]
  have hleft' : j ∉ left := fun hj => hne (hleft j hj)
  have hentered' : j ∉ entered := fun hj => hne (hentered j hj)
  simp [hleft', hentered']

/-- A member leaves without fail. -/
theorem Intact.leave (h : cast.Intact) (i : Nat) :
    (leave i cast).failure = none ∧ cast.Shifts [i] [] (leave i cast).state := by
  rw [Cast.leave, updateMember]
  cases hm : cast.members[i]? with
  | none => exact ⟨rfl, h.shifts_absent hm (by simp) (by simp)⟩
  | some m =>
    exact ⟨rfl, h.shifts_replace hm ⟨m.thing.release, false⟩ rfl (ThingTrack.isLoaded_unload _)⟩

/-- **A member enters, or its track cannot be read**; then the cast is as it was. -/
theorem Intact.enter (h : cast.Intact) (log : Log) (t : Time) (i : Nat) :
    ((enter log t i cast).failure = none ∧ cast.Shifts [] [i] (enter log t i cast).state) ∨
      ∃ m failure, cast.members[i]? = some m ∧
        m.thing.track.load log = .fail m.thing.track failure ∧
        (enter log t i cast).failure = some failure ∧ (enter log t i cast).state = cast := by
  rw [Cast.enter, updateMember]
  cases hm : cast.members[i]? with
  | none => exact .inl ⟨rfl, h.shifts_absent hm (by simp) (by simp)⟩
  | some m =>
    rcases m.thing.track.load_cases log with ⟨track, hload, hloaded⟩ | ⟨failure, hload⟩
    · obtain ⟨packets, hactivate⟩ := Thing.activate_of_done hload t
      dsimp only
      rw [hactivate]
      exact .inl ⟨rfl, h.shifts_replace hm ⟨⟨m.thing.record, track⟩, true⟩ rfl hloaded⟩
    · -- its spawn packets have been emitted, but neither its track nor its mark has changed
      refine .inr ⟨m, failure, rfl, hload, ?_⟩
      dsimp only
      rw [Thing.activate_of_fail hload]
      exact ⟨rfl, replace_self hm⟩

/-- **A member that stays makes the step without fail**, and is as it was. -/
theorem Intact.stay (h : cast.Intact) (hi : cast.isActive i = true) (direction : Direction)
    (start target : Time) :
    (stay direction start target i cast).failure = none ∧
      (stay direction start target i cast).state = cast := by
  obtain ⟨m, hm, hactive⟩ := isActive_iff.1 hi
  obtain ⟨shown, hshown⟩ := ThingTrack.exists_step
    ((h.tracks m (Array.mem_of_getElem? hm)).trans hactive) direction start target
  rw [Cast.stay, updateMember, hm]
  dsimp only
  rw [Thing.step, hshown]
  have hsame : Member.mk m.thing true = m := by rw [← hactive]
  refine ⟨rfl, ?_⟩
  change { cast with members := cast.members.setIfInBounds i ⟨m.thing, true⟩ } = cast
  rw [hsame, replace_self hm]

/-! ### Many members -/

/-- All who are to leave leave. -/
theorem Intact.forEach_leave (h : cast.Intact) (is : List Nat) :
    (Outcome.forEach cast Cast.leave is).failure = none ∧
      cast.Shifts is [] (Outcome.forEach cast Cast.leave is).state := by
  induction is generalizing cast with
  | nil => exact ⟨rfl, .refl h⟩
  | cons i is ih =>
    obtain ⟨hok, hleave⟩ := h.leave i
    obtain ⟨hrest, hleaves⟩ := ih hleave.intact
    rw [Outcome.forEach, Outcome.andThen_of_ok hok]
    exact ⟨hrest, hleave.trans hleaves (by simp)⟩

/-- **Those who enter do so up to the first whose track cannot be read.** -/
theorem Intact.forEach_enter (h : cast.Intact) (log : Log) (t : Time) (is : List Nat) :
    ((Outcome.forEach cast (Cast.enter log t) is).failure = none ∧
      cast.Shifts [] is (Outcome.forEach cast (Cast.enter log t) is).state) ∨
    ∃ failure entered, (Outcome.forEach cast (Cast.enter log t) is).failure = some failure ∧
      (Outcome.forEach cast (Cast.enter log t) is).state.Refuses log is entered failure ∧
      cast.Shifts [] entered (Outcome.forEach cast (Cast.enter log t) is).state := by
  induction is generalizing cast with
  | nil => exact .inl ⟨rfl, .refl h⟩
  | cons i is ih =>
    rw [Outcome.forEach]
    obtain ⟨hok, henter⟩ | ⟨m, failure, hm, hload, hfailure, hstate⟩ := h.enter log t i
    · rw [Outcome.andThen_of_ok hok]
      obtain ⟨hrest, henters⟩ | ⟨failure, entered, hfailure, hrefuses, henters⟩ := ih henter.intact
      · exact .inl ⟨hrest, henter.trans henters (by simp)⟩
      · exact .inr ⟨failure, i :: entered, hfailure, hrefuses.cons i,
          henter.trans henters (by simp)⟩
    · rw [Outcome.andThen_of_failed (by simp [hfailure]), hstate]
      exact .inr ⟨failure, [], hfailure, ⟨i, m, is, rfl, hm, hload⟩, .refl h⟩

/-- Those who stay make the step. -/
theorem Intact.forEach_stay (h : cast.Intact) {is : List Nat}
    (his : ∀ i ∈ is, cast.isActive i = true) (direction : Direction) (start target : Time) :
    (Outcome.forEach cast (Cast.stay direction start target) is).failure = none ∧
      (Outcome.forEach cast (Cast.stay direction start target) is).state = cast := by
  induction is with
  | nil => exact ⟨rfl, rfl⟩
  | cons i is ih =>
    obtain ⟨hok, hstate⟩ := h.stay (his i List.mem_cons_self) direction start target
    rw [Outcome.forEach, Outcome.andThen_of_ok hok, hstate]
    exact ih fun j hj => his j (List.mem_cons_of_mem _ hj)

/-! ### Calls -/

/-- What a cast claims does not matter. -/
theorem Intact.revalidate (h : cast.Intact) (t : Time) :
    Intact { cast with validAt := some t } :=
  ⟨h.loaded, h.lives, h.tracks⟩

/-- **How a call ends in which some are to leave and others to enter.** If all have entered, the
cast claims to be valid. If one could not, the claim is the one from before. -/
inductive Exchanges (cast : Cast) (log : Log) (leaving entering : List Nat) (t : Time)
    (o : Outcome Cast) : Prop
  | complete {cast' : Cast} (ok : o.failure = none) (shifts : cast.Shifts leaving entering cast')
      (state : o.state = { cast' with validAt := some t })
  | cut {failure : Failure} {entered : List Nat} (failed : o.failure = some failure)
      (refuses : o.state.Refuses log entering entered failure)
      (shifts : cast.Shifts leaving entered o.state)

namespace Exchanges

variable {leaving entering : List Nat} {t : Time} {o : Outcome Cast}

/-- An exchange that succeeds has let all in and claims the target. -/
theorem of_ok (h : cast.Exchanges log leaving entering t o) (hok : o.failure = none) :
    ∃ cast', cast.Shifts leaving entering cast' ∧ o.state = { cast' with validAt := some t } := by
  cases h with
  | complete _ hshifts hstate => exact ⟨_, hshifts, hstate⟩
  | cut hfailed => exact absurd (hok.symm.trans hfailed) (by simp)

/-- **An exchange that fails stops at the first thing that cannot be loaded**, after all have left.
-/
theorem of_failed (h : cast.Exchanges log leaving entering t o) {failure : Failure}
    (hfailed : o.failure = some failure) :
    ∃ entered, o.state.Refuses log entering entered failure ∧
      cast.Shifts leaving entered o.state := by
  cases h with
  | complete hok => exact absurd (hok.symm.trans hfailed) (by simp)
  | cut hfailed' hrefuses hshifts =>
    obtain rfl := Option.some.inj (hfailed'.symm.trans hfailed)
    exact ⟨_, hrefuses, hshifts⟩

/-- What has been emitted does not matter. -/
theorem congr (h : cast.Exchanges log leaving entering t o) {o' : Outcome Cast}
    (hstate : o'.state = o.state) (hfailure : o'.failure = o.failure) :
    cast.Exchanges log leaving entering t o' := by
  cases h with
  | complete hok hshifts hafter =>
    exact .complete (hfailure.trans hok) hshifts (hstate.trans hafter)
  | cut hfailed hrefuses hshifts =>
    rw [← hstate] at hrefuses hshifts
    exact .cut (hfailure.trans hfailed) hrefuses hshifts

/-- An exchange leaves the cast intact, however it ends. -/
theorem intact (h : cast.Exchanges log leaving entering t o) : o.state.Intact := by
  cases h with
  | complete _ hshifts hstate =>
    rw [hstate]
    exact hshifts.intact.revalidate t
  | cut _ _ hshifts => exact hshifts.intact

end Exchanges

/-- **Letting things leave and then enter is an exchange**, for an intact cast. -/
theorem Intact.exchanges (h : cast.Intact) (log : Log) (t : Time) (leaving entering : List Nat) :
    cast.Exchanges log leaving entering t
      ((Outcome.forEach (Outcome.forEach cast Cast.leave leaving).state (Cast.enter log t)
        entering).andThen fun cast => .done { cast with validAt := some t }) := by
  obtain ⟨-, hleaves⟩ := h.forEach_leave leaving
  obtain ⟨hok, henters⟩ | ⟨failure, entered, hfailed, hrefuses, henters⟩ :=
    hleaves.intact.forEach_enter log t entering
  · rw [Outcome.andThen_of_ok hok]
    exact .complete rfl (hleaves.leave_enter henters) rfl
  · rw [Outcome.andThen_of_failed (by simp [hfailed])]
    exact .cut hfailed hrefuses (hleaves.leave_enter henters)

/-- **Rebuilding** sends away who is active, and the living are to enter. -/
theorem Intact.assemble (h : cast.Intact) (log : Log) (t : Time) :
    cast.Exchanges log cast.activeIndices (cast.living t) t (cast.assemble log t) := by
  rw [assemble_of_loaded h.loaded, Outcome.andThen_assoc,
    Outcome.andThen_of_ok (h.forEach_leave _).1]
  exact (h.exchanges log t cast.activeIndices (cast.living t)).congr rfl rfl

/-- What is between two moments is up to the records. -/
theorem indicesWithin_eq_of_records (h : cast'.records = cast.records) (time : ThingRecord → Time)
    (start stop : Time) :
    cast'.indicesWithin time start stop = cast.indicesWithin time start stop := by
  have htimed (cast : Cast) : (cast.members.toList.zipIdx.map fun e =>
      (time e.1.thing.record, e.2)) = cast.records.zipIdx.map fun e => (time e.1, e.2) := by
    rw [records, List.zipIdx_map, List.map_map]
    rfl
  rw [indicesWithin, indicesWithin, htimed cast', htimed cast, h]

/-- What is asked of a record is up to the records. -/
theorem hasRecord_eq_of_records (h : cast'.records = cast.records) (p : ThingRecord → Bool) :
    cast'.hasRecord p = cast.hasRecord p := by
  have hany (cast : Cast) (i : Nat) : cast.hasRecord p i = (cast.records[i]?).any p := by
    rw [hasRecord, getElem?_records]
    cases cast.members[i]? <;> rfl
  funext i
  rw [hany, hany, h]

/-- Who is to enter depends on the records alone. -/
theorem entering_eq_of_records (h : cast'.records = cast.records) (direction : Direction)
    (start target : Time) :
    cast'.entering direction start target = cast.entering direction start target := by
  cases direction <;> simp only [entering, indicesWithin_eq_of_records h, hasRecord_eq_of_records h]

/-- **A step** sends away who leaves on the way, and others are to enter. -/
theorem Intact.advance (h : cast.Intact) (log : Log) (direction : Direction) (start target : Time) :
    cast.Exchanges log (cast.leaving direction start target)
      (cast.entering direction start target) target
      (cast.advance log direction start target) := by
  obtain ⟨hok, hleaves⟩ := h.forEach_leave (cast.leaving direction start target)
  have hexchanges := h.exchanges log target (cast.leaving direction start target)
    (cast.entering direction start target)
  rw [Cast.advance, Outcome.andThen_of_ok hok]
  dsimp only
  rw [entering_eq_of_records hleaves.records]
  cases hexchanges with
  | @complete cast₂ hdone hshifts hstate =>
    -- who was active and has not left is active still
    have hactive : ∀ i ∈ (Outcome.forEach cast Cast.leave
        (cast.leaving direction start target)).state.activeIndices,
        isActive { cast₂ with validAt := some target } i = true := by
      intro i hi
      obtain ⟨m, hm, hm'⟩ := mem_activeIndices.1 hi
      obtain ⟨n, hn, -⟩ := exists_of_records (hleaves.records.trans hshifts.records.symm) hm
      have hstayed := ((hleaves.active i m hm).1 hm').resolve_left List.not_mem_nil
      exact isActive_iff.2 ⟨n, hn, (hshifts.active i n hn).2 (.inr hstayed)⟩
    obtain ⟨hstay, hsame⟩ :=
      (hshifts.intact.revalidate target).forEach_stay hactive direction start target
    rw [Outcome.andThen_of_ok hdone, hstate]
    exact .complete hstay hshifts hsame
  | cut hfailed hrefuses hshifts =>
    rw [Outcome.andThen_of_failed (by simp [hfailed])]
    exact .cut hfailed hrefuses hshifts

/-! ### What is right in the end -/

/-- **A cast stays intact whatever is asked of it**, and whether or not that fails. -/
theorem Intact.perform (h : cast.Intact) (call : Call) : (call.perform cast).state.Intact := by
  cases call with
  | assemble log t => exact (h.assemble log t).intact
  | step log direction start target =>
    rw [Call.perform, step]
    split
    · exact h
    split
    · exact (h.advance log direction start target).intact
    · by_cases hok : (cast.assemble log start).failure = none
      · rw [Outcome.andThen_of_ok hok]
        exact ((h.assemble log start).intact.advance log direction start target).intact
      · rw [Outcome.andThen_of_failed hok]
        exact (h.assemble log start).intact

/-- A step from the moment that the cast claims is an advance. -/
theorem step_of_validAt {direction : Direction} {start target : Time}
    (hlead : direction.leads start target = true) (hclaim : cast.validAt = some start) :
    cast.step log direction start target = cast.advance log direction start target := by
  rw [step, hlead, Bool.not_true, if_neg Bool.false_ne_true, if_pos hclaim]
  rfl

/-- The cast after some calls, whether or not they fail. -/
def after (cast : Cast) (calls : List Call) : Cast :=
  calls.foldl (fun cast call => (call.perform cast).state) cast

/-- Calls leave an intact cast intact. -/
theorem Intact.after (h : cast.Intact) (calls : List Call) : (cast.after calls).Intact := by
  induction calls generalizing cast with
  | nil => exact h
  | cons call calls ih => exact ih (h.perform call)

theorem Intact.nonneg (h : cast.Intact) (hm : cast.members[i]? = some m) :
    0 ≤ m.thing.record.spawn :=
  (h.lives _ (List.mem_map_of_mem (Array.mem_toList_iff.2 (Array.mem_of_getElem? hm)))).1

/-- When all active members have been sent away, just those are active who have entered since. -/
theorem Shifts.active_iff {entered : List Nat} (h : cast.Shifts cast.activeIndices entered cast')
    (hm : cast'.members[i]? = some m) : m.active = true ↔ i ∈ entered := by
  rw [h.active i m hm]
  exact or_iff_left fun hleft => hleft.1 (mem_activeIndices.2 (isActive_iff.1 hleft.2))

/-- A cast that has been rebuilt has just the living active. -/
theorem Shifts.marksLiving_of_assemble {t : Time} (hintact : cast.Intact)
    (h : cast.Shifts cast.activeIndices (cast.living t) cast') : cast'.MarksLiving t := by
  intro m' hm'
  obtain ⟨i, hi⟩ := Array.mem_iff_getElem?.1 hm'
  obtain ⟨m, hm, hrecord⟩ := exists_of_records h.records hi
  rw [h.active_iff hi, mem_living_iff hm (hintact.nonneg hm), hrecord]

section

variable {direction : Direction} {start target : Time} (hlead : direction.leads start target)
  (hmarks : cast.MarksLiving start)

include hlead hmarks

/-- A step that succeeds takes right marks to right marks. -/
theorem Shifts.marksLiving_of_advance
    (h : cast.Shifts (cast.leaving direction start target) (cast.entering direction start target)
      cast') : cast'.MarksLiving target := by
  intro m' hm'
  obtain ⟨i, hi⟩ := Array.mem_iff_getElem?.1 hm'
  obtain ⟨m, hm, hrecord⟩ := exists_of_records h.records hi
  have hmark := hmarks m (Array.mem_of_getElem? hm)
  rw [h.active i m' hi, mem_entering_iff hlead hm, mem_leaving_iff hlead hm hmark,
    isActive_of_getElem? hm, hmark, ← hrecord]
  tauto

/-- **When a step has failed, the marks are right for its start only if nobody has moved.** -/
theorem Shifts.marksLiving_iff {entered : List Nat}
    (h : cast.Shifts (cast.leaving direction start target) entered cast')
    (hentered : ∀ i ∈ entered, i ∈ cast.entering direction start target) :
    cast'.MarksLiving start ↔ cast.leaving direction start target = [] ∧ entered = [] := by
  constructor
  · intro hmarks'
    -- if the marks are right, who is alive has entered or was active and has not left
    have hmark {i : Nat} {m : Member} (hm : cast.members[i]? = some m) :
        m.thing.record.AliveAt start ↔
          i ∈ entered ∨ i ∉ cast.leaving direction start target ∧ cast.isActive i = true := by
      obtain ⟨m', hm', hrecord⟩ := exists_of_records h.records.symm hm
      rw [← h.active i m' hm', hmarks' m' (Array.mem_of_getElem? hm'), hrecord]
    refine ⟨List.eq_nil_iff_forall_not_mem.2 fun i hi => ?_,
      List.eq_nil_iff_forall_not_mem.2 fun i hi => ?_⟩
    · -- who leaves lives at the start but not at the target, where all live who enter
      obtain ⟨m, hm, -⟩ := isActive_iff.1 (List.mem_filter.1 hi).2
      obtain ⟨hstart, htarget⟩ :=
        (mem_leaving_iff hlead hm (hmarks m (Array.mem_of_getElem? hm))).1 hi
      rcases (hmark hm).1 hstart with hin | hout
      · exact htarget ((mem_entering_iff hlead hm).1 (hentered i hin)).1
      · exact hout.1 hi
    · obtain ⟨m, hm⟩ := exists_of_mem_entering (hentered i hi)
      exact ((mem_entering_iff hlead hm).1 (hentered i hi)).2 ((hmark hm).2 (.inl hi))
  · rintro ⟨hleaving, rfl⟩ m' hm'
    obtain ⟨i, hi⟩ := Array.mem_iff_getElem?.1 hm'
    obtain ⟨m, hm, hrecord⟩ := exists_of_records h.records hi
    rw [h.active i m' hi, hleaving, isActive_of_getElem? hm, hmarks m (Array.mem_of_getElem? hm),
      hrecord]
    simp

end

/-- A cast that has just been read is intact. -/
theorem intact_of_load {cast₀ : Cast} (hload : cast₀.load log = .done cast)
    (hlives : ∀ m ∈ cast.members,
      0 ≤ m.thing.record.spawn ∧ m.thing.record.spawn < m.thing.record.despawn) :
    cast.Intact := by
  obtain ⟨records, rfl⟩ := Roster.exists_records_of_load hload
  refine ⟨rfl, fun r hr => ?_, fun m hm => ?_⟩
  · obtain ⟨m, hm, rfl⟩ := List.mem_map.1 hr
    exact hlives m (Array.mem_toList_iff.1 hm)
  · rw [List.mem_toArray, List.mem_map] at hm
    obtain ⟨⟨_, _, key, _, _, _⟩, -, rfl⟩ := hm
    cases key <;> rfl

/-- **A failure leaves the claim of before over members that have moved.** Take a cast that has just
been read, whatever lives its records tell of, and any calls, failed ones included. Just the active
members have their tracks, and:

* if **rebuilding** the cast succeeds, it claims what is right; if it fails, those who live at the
  moment have entered up to one whose track cannot be read, just they are active, and the claim is
  the one from before;
* if a **step** from where the cast claims to be valid succeeds, what it claims is right if it was;
  if the step fails, those who leave on the way have left, those who enter have entered up to one
  whose track cannot be read, the others are as they were, and the claim is the one from before. If
  it was right, it still is just if nobody had to leave and nobody has entered;
* a step from elsewhere rebuilds the cast, and if that succeeds is a step from there. -/
theorem claim_after_calls {cast₀ : Cast} (hload : cast₀.load log = .done cast)
    (hlives : ∀ m ∈ cast.members,
      0 ≤ m.thing.record.spawn ∧ m.thing.record.spawn < m.thing.record.despawn)
    (calls : List Call) :
    let before := cast.after calls
    (∀ m ∈ before.members, m.thing.isLoaded = m.active) ∧
    (∀ log t,
      let o := before.assemble log t
      (o.failure = none → o.state.validAt = some t ∧ o.state.MarksLiving t) ∧
      ∀ failure, o.failure = some failure → o.state.validAt = before.validAt ∧
        ∃ entered, o.state.Refuses log (before.living t) entered failure ∧
          ∀ i m, o.state.members[i]? = some m → (m.active = true ↔ i ∈ entered)) ∧
    (∀ log direction start target, direction.leads start target = true →
      before.validAt = some start →
      let o := before.step log direction start target
      (o.failure = none → o.state.validAt = some target ∧
        (before.MarksLiving start → o.state.MarksLiving target)) ∧
      ∀ failure, o.failure = some failure → o.state.validAt = some start ∧
        ∃ entered, o.state.Refuses log (before.entering direction start target) entered failure ∧
          (∀ i m, o.state.members[i]? = some m → (m.active = true ↔
            i ∈ entered ∨ i ∉ before.leaving direction start target ∧ before.isActive i = true)) ∧
          (before.MarksLiving start → (o.state.MarksLiving start ↔
            before.leaving direction start target = [] ∧ entered = []))) ∧
    ∀ log direction start target, direction.leads start target = true →
      before.validAt ≠ some start →
      before.step log direction start target =
        (before.assemble log start).andThen fun cast => cast.step log direction start target := by
  intro before
  have hintact : before.Intact := (intact_of_load hload hlives).after calls
  refine ⟨hintact.tracks, fun log t => ?_, fun log direction start target hlead hclaim => ?_,
    fun log direction start target hlead hclaim => ?_⟩
  · -- the cast is rebuilt
    have hexchanges := hintact.assemble log t
    refine ⟨fun hok => ?_, fun failure hfailed => ?_⟩
    · obtain ⟨cast₁, hshifts, hstate⟩ := hexchanges.of_ok hok
      have hright := hshifts.marksLiving_of_assemble hintact
      rw [hstate]
      exact ⟨rfl, hright⟩
    · obtain ⟨entered, hrefuses, hshifts⟩ := hexchanges.of_failed hfailed
      exact ⟨hshifts.validAt, entered, hrefuses, fun i m hm => hshifts.active_iff hm⟩
  · -- the cast goes on from the moment that it claims
    have hexchanges := hintact.advance log direction start target
    rw [step_of_validAt hlead hclaim]
    refine ⟨fun hok => ?_, fun failure hfailed => ?_⟩
    · obtain ⟨cast₁, hshifts, hstate⟩ := hexchanges.of_ok hok
      have hright (hmarks : before.MarksLiving start) := hshifts.marksLiving_of_advance hlead hmarks
      rw [hstate]
      exact ⟨rfl, hright⟩
    · obtain ⟨entered, hrefuses, hshifts⟩ := hexchanges.of_failed hfailed
      exact ⟨hshifts.validAt.trans hclaim, entered, hrefuses, hshifts.active, fun hmarks =>
        hshifts.marksLiving_iff hlead hmarks hrefuses.mem_entering⟩
  · -- the cast does not claim the start, so it is rebuilt there first
    rw [step, hlead, Bool.not_true, if_neg Bool.false_ne_true, if_neg hclaim]
    by_cases hok : (before.assemble log start).failure = none
    · obtain ⟨cast₁, -, hstate⟩ := (hintact.assemble log start).of_ok hok
      have hclaim' : (before.assemble log start).state.validAt = some start := by rw [hstate]
      rw [Outcome.andThen_of_ok hok, Outcome.andThen_of_ok hok, step_of_validAt hlead hclaim']
    · rw [Outcome.andThen_of_failed hok, Outcome.andThen_of_failed hok]

end Cast

/-! ### Rain after which other rain cannot begin -/

/-- The records of two rains; there is nothing at the handle of the second. -/
def lostRecords : List ThingRecord :=
  [⟨0, 9, .weather, [.beginRain], [.endRain], 0⟩, ⟨9, 12, .weather, [.beginRain], [.endRain], 99⟩]

/-- A log of the first rain and, behind it, the records of both. -/
def lostLog : Log :=
  .ofBytes none <| [2, 0, 0, 0, 0, 0, 3, 0, 0, 0, 5] ++
    [2, 0, 9, 2, 1, 12, 9, 2, 0, 0, 0, 0, 1, 12, 9, 1, 0, 0, 0, 0, 0, 0, 0, 0, 0, 0, 0, 0,
      9, 12, 2, 1, 12, 9, 2, 0, 0, 0, 0, 1, 12, 9, 1, 0, 0, 0, 0, 0, 0, 0, 0, 0, 0, 0, 99]

/-- The cast of both, as it is read. -/
def lostCast : Cast :=
  ⟨11, (lostRecords.map fun r => Member.mk (.ofRecord r) false).toArray, none, true⟩

/-- The cast of the lost thing can be loaded, though the thing itself cannot. -/
theorem lostCast_load : (Cast.atHandle 11).load lostLog = .done lostCast := rfl

/-- The lives of the lost cast begin in the recording and are not empty. -/
theorem lostCast_lives : ∀ m ∈ lostCast.members,
    0 ≤ m.thing.record.spawn ∧ m.thing.record.spawn < m.thing.record.despawn := by
  decide

/-- The step from the first rain into the second fails. -/
theorem lostCast_fails :
    ((lostCast.after [.assemble lostLog 4]).step lostLog .forward 4 10).failure =
      some (.log (.outOfBounds 99 66)) := by
  decide +kernel

namespace Cast

/-- The first rain falls and is sent away, then the second cannot be read, and the claim for the
first one stays. Rebuilding puts that right. -/
theorem claim_after_calls_lost :
    let before := lostCast.after [.assemble lostLog 4]
    let after := lostCast.after [.assemble lostLog 4, .step lostLog .forward 4 10]
    before.validAt = some 4 ∧ before.MarksLiving 4 ∧
      after.validAt = some 4 ∧ ¬ after.MarksLiving 4 ∧
      (after.assemble lostLog 4).state.validAt = some 4 ∧
      (after.assemble lostLog 4).state.MarksLiving 4 := by
  have hrebuilds (calls : List Call) := (claim_after_calls lostCast_load lostCast_lives calls).2.1
  obtain ⟨hvalid, hmarks⟩ := (hrebuilds [] lostLog 4).1 (by decide +kernel)
  obtain ⟨-, -, hsteps, -⟩ :=
    claim_after_calls lostCast_load lostCast_lives [.assemble lostLog 4]
  obtain ⟨hvalid', entered, -, -, hright⟩ :=
    (hsteps lostLog .forward 4 10 rfl hvalid).2 _ lostCast_fails
  have hleaving : (lostCast.after [.assemble lostLog 4]).leaving .forward 4 10 ≠ [] := by
    decide +kernel
  obtain ⟨hvalid'', hmarks''⟩ :=
    (hrebuilds [.assemble lostLog 4, .step lostLog .forward 4 10] lostLog 4).1 (by decide +kernel)
  exact ⟨hvalid, hmarks, hvalid', fun hmarks' => hleaving ((hright hmarks).1 hmarks').1, hvalid'',
    hmarks''⟩

/-- **A failure leaves a false claim**: the cast claims to be valid where the first rain falls, and
that rain is not active. -/
theorem false_claim_after_failure :
    (Cast.atHandle 11).load lostLog = .done lostCast ∧
      (∀ m ∈ lostCast.members,
        0 ≤ m.thing.record.spawn ∧ m.thing.record.spawn < m.thing.record.despawn) ∧
      let o := (lostCast.after [.assemble lostLog 4]).step lostLog .forward 4 10
      o.failure ≠ none ∧
        ¬ (o.state.validAt = none ∨ ∃ t, o.state.validAt = some t ∧ o.state.MarksLiving t) := by
  refine ⟨lostCast_load, lostCast_lives, by rw [lostCast_fails]; simp, ?_⟩
  have hvalid : ((lostCast.after [.assemble lostLog 4]).step lostLog .forward 4 10).state.validAt =
      some 4 := by
    decide +kernel
  rw [hvalid]
  rintro (hnone | ⟨t, ht, hmarks⟩)
  · cases hnone
  · obtain rfl := Option.some.inj ht
    revert hmarks
    decide +kernel

end Cast

end Playhead
