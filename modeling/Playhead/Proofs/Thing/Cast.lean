import Playhead.Proofs.Thing.Life
import Playhead.Proofs.Log
import Playhead.Proofs.Outcome

/-!
# What a step of a cast does

A **roster** is the records of a cast with the lives they tell of. If all tracks can be loaded, the
cast is at every time one of the casts `Playhead.Roster.cast`: some members are active and have
their tracks, the others are not and have none. Steps of such a cast never fail, and this file says
which packets they emit:

* rebuilding sends every active member away and shows those that live at the moment
  (`Playhead.Roster.assemble_eq`);
* an incremental step sends away those that do not live any more, shows those that live now, and
  takes those that stay along (`Playhead.Roster.advance_eq`).

Both leave the cast with just the living active.
-/

namespace Playhead

namespace Life

/-- Whether a record tells of a life, and its track can be loaded. -/
structure ToldBy (log : Log) (life : Life) (r : ThingRecord) : Prop where
  spawn : r.spawn = life.spawn
  despawn : r.despawn = life.despawn
  key : r.key = life.role.key
  spawnPackets : r.spawnPackets = [life.role.appearance]
  despawnPackets : r.despawnPackets = [life.role.disappearance]
  load : (ThingTrack.ofKey r.inner r.key).load log = .done (life.role.track r.inner)

end Life

/-- The track of a role that loads can be loaded again. -/
theorem Role.load_track {log : Log} {role : Role} {handle : Handle}
    (h : (ThingTrack.ofKey handle role.key).load log = .done (role.track handle)) :
    (role.track handle).load log = .done (role.track handle) := by
  cases role
  all_goals
    obtain ⟨track, hload, htrack⟩ := Outcome.map_eq_done_iff.1 h
    exact Outcome.map_eq_done_iff.2 ⟨track, Track.load_reload hload _, htrack⟩

/-! ### Members by number -/

namespace Cast

variable {cast : Cast} {i : Nat}

/-- A thing is active if its member is. -/
theorem isActive_iff :
    cast.isActive i = true ↔ ∃ m, cast.members[i]? = some m ∧ m.active = true := by
  rw [isActive]
  cases cast.members[i]? <;> simp

/-- What is asked of a record is asked of that of the member. -/
theorem hasRecord_iff {p : ThingRecord → Bool} :
    cast.hasRecord p i = true ↔ ∃ m, cast.members[i]? = some m ∧ p m.thing.record = true := by
  rw [hasRecord]
  cases cast.members[i]? <;> simp

/-- The active indices are those of the active members. -/
theorem mem_activeIndices :
    i ∈ cast.activeIndices ↔ ∃ m, cast.members[i]? = some m ∧ m.active = true := by
  rw [activeIndices, List.mem_filter, List.mem_range]
  by_cases hi : i < cast.members.size
  · simp [hi]
  · simp [hi]

/-- What is between two moments is after the first and not after the second. -/
theorem mem_indicesWithin {time : ThingRecord → Time} {start stop : Time} :
    i ∈ cast.indicesWithin time start stop ↔ ∃ m, cast.members[i]? = some m ∧
      start < time m.thing.record ∧ time m.thing.record ≤ stop := by
  simp only [indicesWithin, List.mem_map, List.mem_mergeSort, List.mem_filter, decide_eq_true_eq]
  constructor
  · rintro ⟨⟨t, i'⟩, ⟨⟨⟨m, j⟩, hm, he⟩, hspan⟩, rfl⟩
    obtain ⟨rfl, rfl⟩ := Prod.mk.inj he
    rw [List.mem_zipIdx_iff_getElem?, Array.getElem?_toList] at hm
    exact ⟨m, hm, hspan⟩
  · rintro ⟨m, hm, hspan⟩
    refine ⟨(time m.thing.record, i), ⟨⟨(m, i), ?_, rfl⟩, hspan⟩, rfl⟩
    rwa [List.mem_zipIdx_iff_getElem?, Array.getElem?_toList]

theorem sorted_activeIndices (cast : Cast) : cast.activeIndices.Pairwise (· < ·) :=
  List.pairwise_lt_range.filter _

theorem nodup_indicesWithin (cast : Cast) (time : ThingRecord → Time) (start stop : Time) :
    (cast.indicesWithin time start stop).Nodup := by
  have hnumbers : (cast.members.toList.zipIdx.map fun e =>
      (time e.1.thing.record, e.2)).map (·.2) = List.range' 0 cast.members.toList.length := by
    rw [List.map_map, show Prod.snd ∘ (fun e : Member × Nat => (time e.1.thing.record, e.2)) =
      Prod.snd from rfl, List.zipIdx_map_snd]
  refine (((List.mergeSort_perm _ _).map _).nodup_iff).2 ?_
  exact (List.nodup_range' (h := Nat.one_pos) |>.sublist (hnumbers ▸ List.filter_sublist.map _))

/-! ### Who leaves, who enters and who lives -/

variable {m : Member}

/-- **Who leaves is alive at the start and not at the target**, where the mark of the thing is
right. -/
theorem mem_leaving_iff {direction : Direction} {start target : Time}
    (hlead : direction.leads start target) (hm : cast.members[i]? = some m)
    (hmark : m.active = true ↔ m.thing.record.AliveAt start) :
    i ∈ cast.leaving direction start target ↔
      m.thing.record.AliveAt start ∧ ¬ m.thing.record.AliveAt target := by
  cases direction with
  | forward =>
    have hlt := Direction.leads_forward.1 hlead
    simp only [leaving, List.mem_filter, mem_indicesWithin, isActive_iff, hm, Option.some.injEq,
      exists_eq_left', hmark, ThingRecord.AliveAt]
    lia
  | backward =>
    have hlt := Direction.leads_backward.1 hlead
    simp only [leaving, List.mem_filter, mem_indicesWithin, isActive_iff, hm, Option.some.injEq,
      exists_eq_left', hmark, ThingRecord.AliveAt]
    lia

/-- **Who enters is alive at the target and not at the start.** -/
theorem mem_entering_iff {direction : Direction} {start target : Time}
    (hlead : direction.leads start target) (hm : cast.members[i]? = some m) :
    i ∈ cast.entering direction start target ↔
      m.thing.record.AliveAt target ∧ ¬ m.thing.record.AliveAt start := by
  cases direction with
  | forward =>
    have hlt := Direction.leads_forward.1 hlead
    simp only [entering, List.mem_filter, mem_indicesWithin, hasRecord_iff, hm, Option.some.injEq,
      exists_eq_left', decide_eq_true_eq, ThingRecord.AliveAt]
    lia
  | backward =>
    have hlt := Direction.leads_backward.1 hlead
    simp only [entering, List.mem_filter, mem_indicesWithin, hasRecord_iff, hm, Option.some.injEq,
      exists_eq_left', decide_eq_true_eq, ThingRecord.AliveAt]
    lia

/-- Only members leave. -/
theorem exists_of_mem_leaving {direction : Direction} {start target : Time}
    (hi : i ∈ cast.leaving direction start target) : ∃ m, cast.members[i]? = some m := by
  obtain ⟨m, hm, -⟩ := isActive_iff.1 (List.mem_filter.1 hi).2
  exact ⟨m, hm⟩

/-- Only members enter. -/
theorem exists_of_mem_entering {direction : Direction} {start target : Time}
    (hi : i ∈ cast.entering direction start target) : ∃ m, cast.members[i]? = some m := by
  cases direction
  all_goals
    obtain ⟨m, hm, -⟩ := mem_indicesWithin.1 (List.mem_filter.1 hi).1
    exact ⟨m, hm⟩

/-- The members that live at a moment, in the order in which their lives began. -/
def living (cast : Cast) (t : Time) : List Nat :=
  (cast.indicesWithin (·.spawn) origin t).filter (cast.hasRecord fun r => t < r.despawn)

/-- Who is found living at a time is alive then. -/
theorem mem_living_iff {t : Time} (hm : cast.members[i]? = some m)
    (hnonneg : 0 ≤ m.thing.record.spawn) : i ∈ cast.living t ↔ m.thing.record.AliveAt t := by
  simp only [living, List.mem_filter, mem_indicesWithin, hasRecord_iff, hm, Option.some.injEq,
    exists_eq_left', decide_eq_true_eq, ThingRecord.AliveAt, origin]
  lia

/-- Only members are found living. -/
theorem exists_of_mem_living {t : Time} (hi : i ∈ cast.living t) :
    ∃ m, cast.members[i]? = some m := by
  obtain ⟨m, hm, -⟩ := mem_indicesWithin.1 (List.mem_filter.1 hi).1
  exact ⟨m, hm⟩

/-- A cast that has been read is rebuilt by sending away who is active and letting the living
enter. -/
theorem assemble_of_loaded (h : cast.loaded = true) (log : Log) (t : Time) :
    cast.assemble log t = ((Outcome.forEach cast leave cast.activeIndices).andThen fun cast' =>
      Outcome.forEach cast' (enter log t) (cast.living t)).andThen fun cast =>
        .done { cast with validAt := some t } := by
  rw [assemble, h]
  rfl

end Cast

/-- When a life begins, if time runs in a direction. -/
def Direction.beginning : Direction → Life → Time
  | .forward => Life.spawn
  | .backward => Life.despawn

/-- When a life ends, if time runs in a direction. -/
def Direction.ending : Direction → Life → Time
  | .forward => Life.despawn
  | .backward => Life.spawn

/-- The records of a cast, with the lives they tell of. -/
abbrev Roster := List (ThingRecord × Life)

namespace Roster

/-- A member of the cast, active or not. -/
def member (p : ThingRecord × Life) (on : Bool) : Member :=
  if on then ⟨⟨p.1, p.2.role.track p.1.inner⟩, true⟩ else ⟨.ofRecord p.1, false⟩

/-- The cast in which the members with some numbers are active. -/
def cast (roster : Roster) (handle : Handle) (on : Nat → Bool) (validAt : Option Time) : Cast :=
  ⟨handle, (roster.mapIdx fun i p => member p (on i)).toArray, validAt, true⟩

/-- Whether the member with a number lives at a moment. -/
def alive (roster : Roster) (t : Time) (i : Nat) : Bool :=
  (roster[i]?).any fun p => decide (p.2.AliveAt t)

/-- The packets of the life with a number. -/
def packets (roster : Roster) (f : Life → List Packet) (i : Nat) : List Packet :=
  ((roster[i]?).map fun p => f p.2).getD []

/-- What sends members away. -/
def departures (roster : Roster) (is : List Nat) : List Packet :=
  is.flatMap (roster.packets fun life => [life.role.disappearance])

/-- What shows members as they are at a moment. -/
def arrivals (roster : Roster) (t : Time) (is : List Nat) : List Packet :=
  is.flatMap (roster.packets fun life => life.arrival t)

/-- What takes members along a step. -/
def passages (roster : Roster) (direction : Direction) (start target : Time) (is : List Nat) :
    List Packet :=
  is.flatMap (roster.packets fun life => life.role.shown direction start target)

variable {roster : Roster} {log : Log} {handle : Handle} {on : Nat → Bool} {validAt : Option Time}

/-- A place of the roster is alive at a time if the life there is. -/
theorem alive_iff {t : Time} {i : Nat} :
    roster.alive t i = true ↔ ∃ p, roster[i]? = some p ∧ p.2.AliveAt t := by
  rw [alive]
  cases roster[i]? <;> simp

theorem packets_eq {f : Life → List Packet} {i : Nat} {p : ThingRecord × Life}
    (h : roster[i]? = some p) : roster.packets f i = f p.2 := by
  rw [packets, h, Option.map_some, Option.getD_some]

theorem getElem?_members (i : Nat) : (roster.cast handle on validAt).members[i]? =
    (roster[i]?).map fun p => member p (on i) := by
  rw [cast, List.getElem?_toArray, List.getElem?_mapIdx]

theorem size_members : (roster.cast handle on validAt).members.size = roster.length := by
  simp [cast]

theorem record_member (p : ThingRecord × Life) (b : Bool) : (member p b).thing.record = p.1 := by
  cases b <;> rfl

theorem active_member (p : ThingRecord × Life) (b : Bool) : (member p b).active = b := by
  cases b <;> rfl

/-! ### Which members there are -/

/-- The active of a cast are those marked, as far as the roster goes. -/
theorem isActive_cast {i : Nat} :
    (roster.cast handle on validAt).isActive i = true ↔ i < roster.length ∧ on i = true := by
  rw [Cast.isActive_iff, getElem?_members]
  by_cases hi : i < roster.length <;> simp [active_member, hi]

theorem mem_activeIndices_cast {i : Nat} :
    i ∈ (roster.cast handle on validAt).activeIndices ↔ i < roster.length ∧ on i = true := by
  rw [Cast.mem_activeIndices, ← Cast.isActive_iff, isActive_cast]

/-! ### In which order -/

/-- A time of the member with a number. -/
def timeOf (roster : Roster) (time : Life → Time) (i : Nat) : Time :=
  ((roster[i]?).map fun p => time p.2).getD 0

/-- Whether a member comes before another by a time of theirs. Between equal times the records
decide. -/
def Precedes (roster : Roster) (time : Life → Time) (i j : Nat) : Prop :=
  roster.timeOf time i < roster.timeOf time j ∨
    roster.timeOf time i = roster.timeOf time j ∧ i < j

theorem Precedes.not_symm {time : Life → Time} {i j : Nat} (h : roster.Precedes time i j) :
    ¬ roster.Precedes time j i := by
  rintro (h' | ⟨h', hlt'⟩) <;> rcases h with h | ⟨h, hlt⟩ <;> lia

/-- In an order by time no place comes twice. -/
theorem nodup_of_precedes {time : Life → Time} {is : List Nat}
    (h : is.Pairwise (roster.Precedes time)) : is.Nodup :=
  h.imp fun {i j} (hlt : roster.Precedes time i j) (heq : i = j) => by
    subst heq
    exact hlt.not_symm hlt

/-- Sorting by time keeps what is in order of the second component, as far as times are equal. -/
theorem pairwise_mergeSort {l : List (Time × Nat)} (h : l.Pairwise fun a b => a.2 < b.2) :
    (l.mergeSort fun a b => a.1 ≤ b.1).Pairwise fun a b =>
      a.1 < b.1 ∨ a.1 = b.1 ∧ a.2 < b.2 := by
  have htrans (a b c : Time × Nat) (hab : decide (a.1 ≤ b.1) = true)
      (hbc : decide (b.1 ≤ c.1) = true) : decide (a.1 ≤ c.1) = true := by
    simp only [decide_eq_true_eq] at *
    lia
  have htotal (a b : Time × Nat) : (decide (a.1 ≤ b.1) || decide (b.1 ≤ a.1)) = true := by
    simpa using Int.le_total a.1 b.1
  have hsorted := List.pairwise_mergeSort htrans htotal l
  -- the members with one time are left in the order in which they were
  have hsame (t : Time) : (l.mergeSort fun a b => a.1 ≤ b.1).filter (·.1 = t) =
      l.filter (·.1 = t) := by
    have hequal : (l.filter (·.1 = t)).Pairwise fun a b => decide (a.1 ≤ b.1) = true := by
      refine List.pairwise_iff_forall_sublist.2 fun {a b} hab => ?_
      have ha := (List.mem_filter.1 (hab.subset List.mem_cons_self)).2
      have hb := (List.mem_filter.1 (hab.subset (List.mem_cons_of_mem _ List.mem_cons_self))).2
      simp only [decide_eq_true_eq] at ha hb ⊢
      lia
    have hsub := (List.sublist_mergeSort htrans htotal hequal List.filter_sublist).filter (·.1 = t)
    simp only [List.filter_filter, Bool.and_self] at hsub
    exact (hsub.eq_of_length ((List.mergeSort_perm l _).filter _).length_eq.symm).symm
  refine List.pairwise_iff_forall_sublist.2 fun {a b} hab => ?_
  have hle : a.1 ≤ b.1 := by simpa using List.pairwise_iff_forall_sublist.1 hsorted hab
  rcases Int.lt_or_eq_of_le hle with hlt | heq
  · exact .inl hlt
  · have hpair : [a, b].Sublist (l.filter (·.1 = b.1)) := by
      have hfiltered := hab.filter (·.1 = b.1)
      rwa [hsame, List.filter_eq_self.2 (by simp [heq])] at hfiltered
    exact .inr ⟨heq, List.pairwise_iff_forall_sublist.1 (h.filter _) hpair⟩

/-- **Members within a span come in order of their times**, and then of the records. -/
theorem precedes_indicesWithin {time : ThingRecord → Time} {time' : Life → Time}
    (htime : ∀ p ∈ roster, time p.1 = time' p.2) (start stop : Time) :
    ((roster.cast handle on validAt).indicesWithin time start stop).Pairwise
      (roster.Precedes time') := by
  -- the members with their times and numbers, which a stable sort keeps in order
  obtain ⟨timed, htimed⟩ : ∃ timed, timed =
      (roster.cast handle on validAt).members.toList.zipIdx.map fun e =>
        (time e.1.thing.record, e.2) := ⟨_, rfl⟩
  have htimes : ∀ e ∈ timed, roster.timeOf time' e.2 = e.1 := by
    intro e he
    rw [htimed] at he
    obtain ⟨⟨m, i⟩, hm, rfl⟩ := List.mem_map.1 he
    rw [List.mem_zipIdx_iff_getElem?, Array.getElem?_toList, getElem?_members,
      Option.map_eq_some_iff] at hm
    obtain ⟨p, hp, hmember⟩ := hm
    dsimp only at hp hmember ⊢
    rw [timeOf, hp, ← hmember, record_member, htime p (List.mem_of_getElem? hp)]
    rfl
  have hnumbered : timed.Pairwise fun a b => a.2 < b.2 := by
    rw [htimed, ← List.pairwise_map, List.map_map, show Prod.snd ∘
      (fun (x : Member × Nat) => (time x.1.thing.record, x.2)) = Prod.snd from rfl,
      List.zipIdx_map_snd]
    exact List.pairwise_lt_range'
  have hwithin : (roster.cast handle on validAt).indicesWithin time start stop =
      ((timed.filter fun e => start < e.1 ∧ e.1 ≤ stop).mergeSort fun a b =>
        a.1 ≤ b.1).map (·.2) := by
    rw [htimed]
    rfl
  rw [hwithin]
  refine List.pairwise_map.2 ((pairwise_mergeSort (hnumbered.filter _)).imp_of_mem ?_)
  intro a b ha hb hab
  rw [Precedes, htimes a (List.mem_filter.1 (List.mem_mergeSort.1 ha)).1,
    htimes b (List.mem_filter.1 (List.mem_mergeSort.1 hb)).1]
  exact hab

/-! ### One member -/

/-- Marking one member of the cast. -/
theorem setIfInBounds_cast {i : Nat} {p : ThingRecord × Life} (hp : roster[i]? = some p)
    (b : Bool) :
    { roster.cast handle on validAt with
      members := (roster.cast handle on validAt).members.setIfInBounds i (member p b) } =
      roster.cast handle (Function.update on i b) validAt := by
  have hmembers : (roster.cast handle on validAt).members.setIfInBounds i (member p b) =
      (roster.cast handle (Function.update on i b) validAt).members := by
    refine Array.ext_getElem? fun j => ?_
    rw [Array.getElem?_setIfInBounds, getElem?_members, getElem?_members, size_members]
    by_cases hji : i = j
    · subst hji
      have hi : i < roster.length := (List.getElem?_eq_some_iff.1 hp).1
      rw [if_pos rfl, if_pos hi, hp, Option.map_some, Function.update_self]
    · rw [if_neg hji]
      cases roster[j]? with
      | none => rfl
      | some q => rw [Option.map_some, Option.map_some, Function.update_of_ne (Ne.symm hji)]
  rw [hmembers]
  rfl

/-- A step that succeeds on one member. -/
theorem updateMember_cast (handle : Handle) (on : Nat → Bool) (validAt : Option Time) {i : Nat}
    {p : ThingRecord × Life} (hp : roster[i]? = some p) {f : Thing → Outcome Thing}
    {active b : Bool} {packets : List Packet}
    (hstep : f (member p (on i)).thing = .emit (member p b).thing packets) (hb : active = b) :
    (roster.cast handle on validAt).updateMember i f active =
      .emit (roster.cast handle (Function.update on i b) validAt) packets := by
  rw [Cast.updateMember, getElem?_members, hp, Option.map_some]
  simp only [hstep, Outcome.emit_map, Outcome.emit_isOk, if_true, hb]
  rw [← setIfInBounds_cast hp]
  cases b <;> rfl

/-- **A member leaves**, whether it is active or not. -/
theorem leave_cast {i : Nat} {p : ThingRecord × Life} (hp : roster[i]? = some p)
    (htold : p.2.ToldBy log p.1) :
    (roster.cast handle on validAt).leave i =
      .emit (roster.cast handle (Function.update on i false) validAt)
        (roster.packets (fun life => [life.role.disappearance]) i) := by
  rw [packets_eq hp, ← htold.despawnPackets]
  refine updateMember_cast handle on validAt hp ?_ rfl
  have hrelease : (member p (on i)).thing.release = .ofRecord p.1 := by
    cases on i with
    | false =>
      simp only [member, Thing.release, Thing.ofRecord, htold.key]
      cases p.2.role <;> rfl
    | true =>
      simp only [member, Thing.release, Thing.ofRecord, htold.key, if_true, Role.unload_track]
  rw [Thing.unload, hrelease, record_member]
  rfl

/-- **A member enters**, as it is at a moment. -/
theorem enter_cast {i : Nat} {p : ThingRecord × Life} (hp : roster[i]? = some p)
    (htold : p.2.ToldBy log p.1) (t : Time) :
    (roster.cast handle on validAt).enter log t i =
      .emit (roster.cast handle (Function.update on i true) validAt)
        (roster.packets (fun life => life.arrival t) i) := by
  rw [packets_eq hp]
  refine updateMember_cast handle on validAt hp ?_ rfl
  have hload : (member p (on i)).thing.track.load log = .done (p.2.role.track p.1.inner) := by
    cases on i with
    | false => exact htold.load
    | true =>
      have hload := htold.load
      rw [htold.key] at hload
      exact Role.load_track hload
  have hloaded : (member p (on i)).thing.load log =
      .emit (member p true).thing [p.2.role.appearance] := by
    rw [Thing.load, record_member, htold.spawnPackets, Outcome.emit_andThen, hload]
    have hrecord := record_member p (on i)
    rw [Outcome.done_map, Outcome.emit, hrecord]
    rfl
  rw [Thing.activate, hloaded, Life.arrival]
  have hstep : (member p true).thing.step .forward origin t =
      .emit (member p true).thing (p.2.role.shown .forward origin t) := by
    rw [Thing.step]
    simp only [member, if_true, Role.step_track]
    rfl
  exact Outcome.emit_andThen_emit hstep

/-- **A member stays.** -/
theorem stay_cast {i : Nat} {p : ThingRecord × Life} (hp : roster[i]? = some p) (hon : on i = true)
    (direction : Direction) (start target : Time) :
    (roster.cast handle on validAt).stay direction start target i =
      .emit (roster.cast handle on validAt)
        (roster.packets (fun life => life.role.shown direction start target) i) := by
  have hmark : Function.update on i true = on := by rw [← hon, Function.update_eq_self]
  have hstep : (member p (on i)).thing.step direction start target =
      .emit (member p true).thing (p.2.role.shown direction start target) := by
    rw [hon, Thing.step]
    simp only [member, if_true, Role.step_track]
    rfl
  have hupdate := updateMember_cast handle on validAt hp
    (f := fun thing => thing.step direction start target) hstep rfl
  rw [hmark] at hupdate
  rw [packets_eq hp]
  exact hupdate

/-! ### Many members -/

/-- Marking places one after the other marks those places. -/
theorem foldl_update (b : Bool) (is : List Nat) (on : Nat → Bool) :
    is.foldl (fun on i => Function.update on i b) on = fun j => if j ∈ is then b else on j := by
  induction is generalizing on with
  | nil => simp
  | cons i is ih =>
    rw [List.foldl_cons, ih]
    funext j
    by_cases hj : j ∈ is
    · simp [hj]
    · by_cases hji : j = i
      · simp [hji]
      · simp [hj, hji]

/-- Every record of the roster tells of its life. -/
def Told (log : Log) (roster : Roster) : Prop := ∀ p ∈ roster, p.2.ToldBy log p.1

theorem Told.getElem? (h : roster.Told log) {i : Nat} (hi : i < roster.length) :
    ∃ p, roster[i]? = some p ∧ p.2.ToldBy log p.1 :=
  ⟨roster[i], List.getElem?_eq_getElem hi, h _ (List.getElem_mem hi)⟩

/-- A record lives when the life does that it tells of. -/
theorem Told.alive_iff_record (h : roster.Told log) {i : Nat} {p : ThingRecord × Life}
    (hp : roster[i]? = some p) (t : Time) : roster.alive t i = true ↔ p.1.AliveAt t := by
  have htold := h p (List.mem_of_getElem? hp)
  simp only [alive_iff, hp, Option.some.injEq, exists_eq_left', Life.AliveAt, ThingRecord.AliveAt,
    htold.spawn, htold.despawn]

/-- Whether a number is among some depends on the record that has it, if only numbers of members
are. -/
theorem mem_iff_of_member {is : List Nat} {i : Nat} {t : Time} {P : Prop}
    (hexists : i ∈ is → ∃ m, (roster.cast handle on validAt).members[i]? = some m)
    (halive : P → roster.alive t i = true)
    (hmem : ∀ p, roster[i]? = some p →
      (roster.cast handle on validAt).members[i]? = some (member p (on i)) → (i ∈ is ↔ P)) :
    i ∈ is ↔ P := by
  cases hp : roster[i]? with
  | none =>
    refine iff_of_false (fun hi => ?_) fun hP => absurd (halive hP) (by simp [alive, hp])
    obtain ⟨m, hm⟩ := hexists hi
    rw [getElem?_members, hp] at hm
    cases hm
  | some p => exact hmem p hp (by rw [getElem?_members, hp, Option.map_some])

/-- Who is found living in a cast that was told is alive by the roster. -/
theorem Told.mem_living_cast (h : roster.Told log) (hnonneg : ∀ p ∈ roster, 0 ≤ p.2.spawn)
    {t : Time} {i : Nat} :
    i ∈ (roster.cast handle on validAt).living t ↔ roster.alive t i = true := by
  refine mem_iff_of_member Cast.exists_of_mem_living id fun p hp hm => ?_
  have hzero : 0 ≤ p.1.spawn :=
    (h p (List.mem_of_getElem? hp)).spawn ▸ hnonneg p (List.mem_of_getElem? hp)
  rw [Cast.mem_living_iff hm (by rwa [record_member]), record_member, h.alive_iff_record hp]

/-- **Things that leave are marked and shown to go**, and nothing fails. -/
theorem forEach_leave (handle : Handle) (validAt : Option Time) (h : roster.Told log)
    {is : List Nat} (his : ∀ i ∈ is, i < roster.length) (on : Nat → Bool) :
    Outcome.forEach (roster.cast handle on validAt) Cast.leave is =
      .emit (roster.cast handle (fun j => if j ∈ is then false else on j) validAt)
        (roster.departures is) := by
  rw [← foldl_update]
  refine Outcome.forEach_eq (f := fun on => roster.cast handle on validAt) (fun _ => True) trivial
    fun i hi on _ => ⟨?_, trivial⟩
  obtain ⟨p, hp, htold⟩ := h.getElem? (his i hi)
  exact leave_cast hp htold

/-- **Things that enter are marked and shown to come**, and nothing fails. -/
theorem forEach_enter (handle : Handle) (validAt : Option Time) (h : roster.Told log) (t : Time)
    {is : List Nat} (his : ∀ i ∈ is, i < roster.length) (on : Nat → Bool) :
    Outcome.forEach (roster.cast handle on validAt) (Cast.enter log t) is =
      .emit (roster.cast handle (fun j => if j ∈ is then true else on j) validAt)
        (roster.arrivals t is) := by
  rw [← foldl_update]
  refine Outcome.forEach_eq (f := fun on => roster.cast handle on validAt) (fun _ => True) trivial
    fun i hi on _ => ⟨?_, trivial⟩
  obtain ⟨p, hp, htold⟩ := h.getElem? (his i hi)
  exact enter_cast hp htold t

/-- **Things that stay are shown to go on**, and nothing fails. -/
theorem forEach_stay (handle : Handle) (validAt : Option Time) (direction : Direction)
    (start target : Time) {is : List Nat}
    (his : ∀ i ∈ is, i < roster.length ∧ on i = true) :
    Outcome.forEach (roster.cast handle on validAt) (Cast.stay direction start target) is =
      .emit (roster.cast handle on validAt) (roster.passages direction start target is) := by
  induction is with
  | nil => rfl
  | cons i is ih =>
    obtain ⟨hlt, hon⟩ := his i List.mem_cons_self
    rw [Outcome.forEach, stay_cast (List.getElem?_eq_getElem hlt) hon]
    exact Outcome.emit_andThen_emit (ih fun j hj => his j (List.mem_cons_of_mem _ hj))

/-! ### Whole steps -/

/-- Marks that count as right for a moment. -/
theorem andThen_validAt (cast : Cast) (packets : List Packet) (t : Time) :
    ((Outcome.emit cast packets).andThen fun cast => .done { cast with validAt := some t }) =
      .emit { cast with validAt := some t } packets := by
  have hdone : (fun cast : Cast => Outcome.done { cast with validAt := some t }) cast =
      .emit { cast with validAt := some t } [] := rfl
  rw [Outcome.emit_andThen_emit (g := fun cast : Cast => .done { cast with validAt := some t })
    hdone, List.append_nil]

/-- Who is alive is on the roster. -/
theorem lt_length_of_alive {t : Time} {i : Nat} (h : roster.alive t i = true) :
    i < roster.length := by
  obtain ⟨p, hp, -⟩ := alive_iff.1 h
  exact (List.getElem?_eq_some_iff.1 hp).1

/-- A cast depends only on the marks of its members. -/
theorem cast_congr {on on' : Nat → Bool} (h : ∀ i < roster.length, on i = on' i) :
    roster.cast handle on validAt = roster.cast handle on' validAt := by
  have hmembers : (roster.cast handle on validAt).members =
      (roster.cast handle on' validAt).members := by
    refine Array.ext_getElem? fun i => ?_
    rw [getElem?_members, getElem?_members]
    cases hp : roster[i]? with
    | none => rfl
    | some p => rw [h i (List.getElem?_eq_some_iff.1 hp).1]
  rw [cast, cast, Cast.mk.injEq]
  exact ⟨rfl, hmembers, rfl, rfl⟩

/-- **Rebuilding** sends away who is active, shows who lives, and leaves just those active. -/
theorem assemble_eq (handle : Handle) (validAt : Option Time) (h : roster.Told log)
    (hnonneg : ∀ p ∈ roster, 0 ≤ p.2.spawn) (on : Nat → Bool) (t : Time) :
    ∃ leaving entering : List Nat,
      leaving.Pairwise (· < ·) ∧ (∀ i, i ∈ leaving ↔ i < roster.length ∧ on i = true) ∧
      entering.Pairwise (roster.Precedes Life.spawn) ∧
      (∀ i, i ∈ entering ↔ roster.alive t i = true) ∧
      (roster.cast handle on validAt).assemble log t =
        .emit (roster.cast handle (roster.alive t) (some t))
          (roster.departures leaving ++ roster.arrivals t entering) := by
  obtain ⟨leaving, hleaving⟩ :
      ∃ l, l = (roster.cast handle on validAt).activeIndices := ⟨_, rfl⟩
  obtain ⟨entering, hentering⟩ : ∃ l, l = (roster.cast handle on validAt).living t := ⟨_, rfl⟩
  have hmem : ∀ i, i ∈ leaving ↔ i < roster.length ∧ on i = true := fun i => by
    rw [hleaving, mem_activeIndices_cast]
  have hmem' : ∀ i, i ∈ entering ↔ roster.alive t i = true := fun i => by
    rw [hentering, h.mem_living_cast hnonneg]
  -- who is active in the end: who has entered, and who was active and has not left
  have hon : roster.cast handle (fun j => if j ∈ entering then true
      else if j ∈ leaving then false else on j) validAt =
      roster.cast handle (roster.alive t) validAt := by
    refine cast_congr fun j hj => ?_
    by_cases hin : j ∈ entering
    · rw [if_pos hin, (hmem' j).1 hin]
    · rw [if_neg hin, Bool.eq_false_iff.2 fun halive => hin ((hmem' j).2 halive)]
      by_cases hout : j ∈ leaving
      · rw [if_pos hout]
      · rw [if_neg hout, Bool.eq_false_iff]
        exact fun hactive => hout ((hmem j).2 ⟨hj, hactive⟩)
  refine ⟨leaving, entering, hleaving ▸ Cast.sorted_activeIndices _, hmem,
    hentering ▸ (precedes_indicesWithin (fun p hp => (h p hp).spawn) _ _).filter _, hmem', ?_⟩
  have hleave := forEach_leave handle validAt h
    (fun i hi => ((hmem i).1 hi).1) on
  have henter := forEach_enter handle validAt h t
    (fun i hi => lt_length_of_alive ((hmem' i).1 hi)) fun j => if j ∈ leaving then false else on j
  rw [hon] at henter
  rw [Cast.assemble_of_loaded rfl, ← hleaving, ← hentering, hleave]
  rw [Outcome.emit_andThen_emit
    (g := fun cast => Outcome.forEach cast (Cast.enter log t) entering) henter, andThen_validAt]
  rfl

/-- Which members leave, enter and stay on a step, and in which order. -/
structure Parts (roster : Roster) (direction : Direction) (start target : Time)
    (leaving entering staying : List Nat) : Prop where
  sorted_leaving : leaving.Pairwise (roster.Precedes direction.ending)
  mem_leaving : ∀ i, i ∈ leaving ↔ roster.alive start i = true ∧ ¬ roster.alive target i = true
  sorted_entering : entering.Pairwise (roster.Precedes direction.beginning)
  mem_entering : ∀ i, i ∈ entering ↔ roster.alive target i = true ∧ ¬ roster.alive start i = true
  sorted_staying : staying.Pairwise (· < ·)
  mem_staying : ∀ i, i ∈ staying ↔ roster.alive start i = true ∧ roster.alive target i = true

/-- Who leaves a cast that was told is alive at the start and not at the target. -/
theorem mem_leaving_cast (h : roster.Told log) {direction : Direction} {start target : Time}
    (hlead : direction.leads start target) {i : Nat} :
    i ∈ (roster.cast handle (roster.alive start) validAt).leaving direction start target ↔
      roster.alive start i = true ∧ ¬ roster.alive target i = true := by
  refine mem_iff_of_member Cast.exists_of_mem_leaving (fun halive => halive.1) fun p hp hm => ?_
  have hmark := h.alive_iff_record hp start
  rw [← record_member p (roster.alive start i)] at hmark
  rw [Cast.mem_leaving_iff hlead hm (by rw [active_member, hmark]), record_member,
    h.alive_iff_record hp, h.alive_iff_record hp]

/-- Who enters a cast that was told is alive at the target and not at the start. -/
theorem mem_entering_cast (h : roster.Told log) {direction : Direction} {start target : Time}
    (hlead : direction.leads start target) {i : Nat} :
    i ∈ (roster.cast handle on validAt).entering direction start target ↔
      roster.alive target i = true ∧ ¬ roster.alive start i = true := by
  refine mem_iff_of_member Cast.exists_of_mem_entering (fun halive => halive.1) fun p hp hm => ?_
  rw [Cast.mem_entering_iff hlead hm, record_member, h.alive_iff_record hp, h.alive_iff_record hp]

/-- Who leaves does so in the order of the ends of the lives, in the direction of the step. -/
theorem precedes_leaving_cast (h : roster.Told log) (direction : Direction) (start target : Time) :
    ((roster.cast handle on validAt).leaving direction start target).Pairwise
      (roster.Precedes direction.ending) := by
  cases direction with
  | forward => exact (precedes_indicesWithin (fun p hp => (h p hp).despawn) _ _).filter _
  | backward => exact (precedes_indicesWithin (fun p hp => (h p hp).spawn) _ _).filter _

/-- Who enters does so in the order of their beginnings. -/
theorem precedes_entering_cast (h : roster.Told log) (direction : Direction)
    (start target : Time) :
    ((roster.cast handle on validAt).entering direction start target).Pairwise
      (roster.Precedes direction.beginning) := by
  cases direction with
  | forward => exact (precedes_indicesWithin (fun p hp => (h p hp).spawn) _ _).filter _
  | backward => exact (precedes_indicesWithin (fun p hp => (h p hp).despawn) _ _).filter _

section Marks

variable {on on' : Nat → Bool} {leaving entering : List Nat} {i : Nat}

/-- Who stays is marked before and after. -/
theorem mark_left_iff (hleaving : i ∈ leaving ↔ on i = true ∧ ¬ on' i = true) :
    (if i ∈ leaving then false else on i) = true ↔ on i = true ∧ on' i = true := by
  simp only [hleaving]
  cases on i <;> cases on' i <;> simp

/-- Once those have left who are not to be marked any more and those have entered who were not
marked before, the marks are as they are to be. -/
theorem mark_exchanged (hleaving : i ∈ leaving ↔ on i = true ∧ ¬ on' i = true)
    (hentering : i ∈ entering ↔ on' i = true ∧ ¬ on i = true) :
    (if i ∈ entering then true else if i ∈ leaving then false else on i) = on' i := by
  simp only [hleaving, hentering]
  cases on i <;> cases on' i <;> simp

end Marks

/-- **An incremental step** sends away who does not live any more, shows who lives now, takes along
who stays, and leaves just the living active. -/
theorem advance_eq (h : roster.Told log) {direction : Direction} {start target : Time}
    (hlead : direction.leads start target) (handle : Handle) (validAt : Option Time) :
    ∃ leaving entering staying : List Nat,
      roster.Parts direction start target leaving entering staying ∧
      (roster.cast handle (roster.alive start) validAt).advance log direction start target =
        .emit (roster.cast handle (roster.alive target) (some target))
          (roster.departures leaving ++ (roster.arrivals target entering ++
            roster.passages direction start target staying)) := by
  obtain ⟨leaving, hleaving⟩ : ∃ l, l =
      (roster.cast handle (roster.alive start) validAt).leaving direction start target := ⟨_, rfl⟩
  have hmem : ∀ i, i ∈ leaving ↔ roster.alive start i = true ∧ ¬ roster.alive target i = true :=
    fun i => by rw [hleaving, mem_leaving_cast h hlead]
  -- who is active once all have left
  obtain ⟨on, hon⟩ : ∃ on : Nat → Bool, on =
      fun j => if j ∈ leaving then false else roster.alive start j := ⟨_, rfl⟩
  obtain ⟨entering, hentering⟩ : ∃ l, l =
      (roster.cast handle on validAt).entering direction start target := ⟨_, rfl⟩
  obtain ⟨staying, hstaying⟩ : ∃ l, l = (roster.cast handle on validAt).activeIndices := ⟨_, rfl⟩
  have hmem' : ∀ i, i ∈ entering ↔ roster.alive target i = true ∧ ¬ roster.alive start i = true :=
    fun i => by rw [hentering, mem_entering_cast h hlead]
  have hmem'' : ∀ i, i ∈ staying ↔ roster.alive start i = true ∧ roster.alive target i = true := by
    intro i
    rw [hstaying, mem_activeIndices_cast, hon, mark_left_iff (hmem i)]
    exact and_iff_right_of_imp fun halive => lt_length_of_alive halive.1
  have htarget : roster.cast handle (fun j => if j ∈ entering then true else on j) validAt =
      roster.cast handle (roster.alive target) validAt := by
    rw [hon]
    exact cast_congr fun j _ => mark_exchanged (hmem j) (hmem' j)
  refine ⟨leaving, entering, staying, ⟨hleaving ▸ precedes_leaving_cast h .., hmem,
    hentering ▸ precedes_entering_cast h .., hmem', hstaying ▸ Cast.sorted_activeIndices _,
    hmem''⟩, ?_⟩
  have hleave := forEach_leave handle validAt h
    (fun i hi => lt_length_of_alive ((hmem i).1 hi).1) (roster.alive start)
  have henter := forEach_enter handle validAt h target
    (fun i hi => lt_length_of_alive ((hmem' i).1 hi).1) on
  have hstay := forEach_stay handle (some target) direction start target
    (fun i hi => ⟨lt_length_of_alive ((hmem'' i).1 hi).1, ((hmem'' i).1 hi).2⟩)
  rw [← hon] at hleave
  rw [htarget] at henter
  rw [Cast.advance, ← hleaving, hleave]
  refine Outcome.emit_andThen_emit ?_
  dsimp only
  rw [← hentering, ← hstaying, henter, andThen_validAt]
  exact Outcome.emit_andThen_emit hstay

end Roster

end Playhead
