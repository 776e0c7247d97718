import Playhead.Proofs.Thing.Steps
import Playhead.Proofs.Thing.Turns

/-!
# Who is active

Whatever is asked of a cast, and whatever the records in it, as long as nothing fails the marks stay
right (`Playhead.Cast.InOrder`): where the cast claims to be valid, just those are active who live;
and just the active ones have their tracks. The three kinds of calls differ only in who takes which
turn: rebuilding sends all active members away and has the living appear
(`Playhead.Cast.InOrder.assemble`); an incremental step sends away those who do not live at its
target, then has those appear who do and did not before, then takes the others along
(`Playhead.Cast.InOrder.advance`); any other step is one after the other, or nothing at all.

`Playhead.Cast.active_after_calls` states this for a cast that has just been loaded and any number
of calls.
-/

namespace Playhead

namespace Cast

variable {cast : Cast} {log : Log} {i : Nat} {m : Member}

/-! ### Nobody is named twice -/

theorem nodup_leaving (cast : Cast) (direction : Direction) (start target : Time) :
    (cast.leaving direction start target).Nodup := by
  cases direction <;> exact (nodup_indicesWithin cast _ _ _).filter _

theorem nodup_entering (cast : Cast) (direction : Direction) (start target : Time) :
    (cast.entering direction start target).Nodup := by
  cases direction <;> exact (nodup_indicesWithin cast _ _ _).filter _

theorem nodup_living (cast : Cast) (t : Time) : (cast.living t).Nodup :=
  (nodup_indicesWithin cast _ _ _).filter _

theorem nodup_activeIndices (cast : Cast) : cast.activeIndices.Nodup :=
  (sorted_activeIndices cast).imp Nat.ne_of_lt

/-! ### Marks -/

/-- Whether just those members are active that live at a moment. -/
def MarksLiving (cast : Cast) (t : Time) : Prop :=
  ∀ m ∈ cast.members, m.active = true ↔ m.thing.record.AliveAt t

/-- **A cast in order**: no life begins before the recording or is empty, the tracks that are there
are those of the active members, and where the cast claims to be valid it is. -/
structure InOrder (cast : Cast) : Prop where
  lives : ∀ m ∈ cast.members,
    0 ≤ m.thing.record.spawn ∧ m.thing.record.spawn < m.thing.record.despawn
  tracks : ∀ m ∈ cast.members, m.thing.isLoaded = m.active
  marks : ∀ t, cast.validAt = some t → cast.MarksLiving t

/-- The turns of one call, in groups: who leaves, who enters, who stays. -/
def turns (leaving entering staying : List Nat) : List (Nat × Turn) :=
  (leaving.map fun i => (i, Turn.disappears)) ++ ((entering.map fun i => (i, Turn.appears)) ++
    staying.map fun i => (i, Turn.goesOn))

/-- After the turns of one call those are active who have entered, and those who were and have not
left. -/
theorem Performs.active_eq {leaving entering staying : List Nat} {v : Option Time}
    {o : Outcome Cast} (h : cast.Performs (turns leaving entering staying) v o) {m' : Member}
    (hm : cast.members[i]? = some m) (hm' : o.state.members[i]? = some m') :
    m'.active = if i ∈ entering then true else if i ∈ leaving then false else m.active := by
  obtain ⟨_, _, members₁, -, hleaving, hrest⟩ := h.enacts.of_append
  obtain ⟨_, _, members₂, -, hentering, hstaying⟩ := hrest.of_append
  rw [hstaying.eq_of_goesOn] at hm'
  obtain ⟨m₁, hm₁, -⟩ := hleaving.exists_after hm
  rw [hentering.active_eq hm₁ hm', hleaving.active_eq hm hm₁]
  rfl

/-- **The turns of one call leave a cast in order** if those who enter and those who were active and
do not leave are the living. -/
theorem InOrder.of_turns (h : cast.InOrder) {leaving entering staying : List Nat} {t : Time}
    {o : Outcome Cast} (hperforms : cast.Performs (turns leaving entering staying) (some t) o)
    (hliving : ∀ i m, cast.members[i]? = some m →
      ((i ∈ entering ∨ i ∉ leaving ∧ m.active = true) ↔ m.thing.record.AliveAt t)) :
    o.state.InOrder where
  lives m' hm' := by
    obtain ⟨i, hi⟩ := Array.mem_iff_getElem?.1 hm'
    obtain ⟨m, hm, hrecord⟩ := hperforms.enacts.exists_before hi
    rw [hrecord]
    exact h.lives m (Array.mem_of_getElem? hm)
  tracks := hperforms.enacts.isLoaded_eq h.tracks
  marks t' ht' m' hm' := by
    obtain rfl : t = t' := Option.some.inj (hperforms.validAt.symm.trans ht')
    obtain ⟨i, hi⟩ := Array.mem_iff_getElem?.1 hm'
    obtain ⟨m, hm, hrecord⟩ := hperforms.enacts.exists_before hi
    rw [hrecord, ← hliving i m hm, hperforms.active_eq hm hi]
    by_cases hin : i ∈ entering <;> by_cases hout : i ∈ leaving <;> simp [hin, hout]

/-! ### Calls -/

/-- Active things that leave, each once, disappear. -/
theorem performs_leaving {leaving : List Nat} (hnodup : leaving.Nodup)
    (hactive : ∀ i ∈ leaving, ∃ m, cast.members[i]? = some m ∧ m.active = true)
    (hok : (Outcome.forEach cast leave leaving).failure = none) :
    cast.Performs (leaving.map fun i => (i, .disappears)) cast.validAt
      (Outcome.forEach cast leave leaving) :=
  performs_forEach .disappears (fun cast i m hm hbefore _ => performs_leave cast i m hm hbefore)
    hnodup hactive hok

/-- Idle things that enter, each once, appear. -/
theorem performs_entering {entering : List Nat} {t : Time} (hnodup : entering.Nodup)
    (hidle : ∀ i ∈ entering, ∃ m, cast.members[i]? = some m ∧ m.active = false)
    (hok : (Outcome.forEach cast (enter log t) entering).failure = none) :
    cast.Performs (entering.map fun i => (i, .appears)) cast.validAt
      (Outcome.forEach cast (enter log t) entering) :=
  performs_forEach .appears (performs_enter log t) hnodup hidle hok

/-- **Rebuilding** sends away who is active and has the living appear. -/
theorem InOrder.assemble (h : cast.InOrder) {t : Time}
    (hok : (cast.assemble log t).failure = none) :
    ∃ leaving entering, cast.Performs (turns leaving entering []) (some t) (cast.assemble log t) ∧
      (cast.assemble log t).state.InOrder := by
  have hloaded : cast.loaded = true := by
    by_contra hnot
    rw [Cast.assemble, Bool.eq_false_iff.2 hnot] at hok
    cases hok
  rw [assemble_of_loaded hloaded] at hok ⊢
  obtain ⟨hboth, -, -⟩ := Outcome.of_andThen hok
  obtain ⟨hleave, henter, -⟩ := Outcome.of_andThen hboth
  have hout := performs_leaving (nodup_activeIndices cast) (fun i => mem_activeIndices.1) hleave
  -- once all active members have left, nobody is active
  have hidle : ∀ i ∈ cast.living t, ∃ m,
      (Outcome.forEach cast leave cast.activeIndices).state.members[i]? = some m ∧
        m.active = false := by
    intro i hi
    obtain ⟨m, hm⟩ := exists_of_mem_living hi
    obtain ⟨m', hm', -⟩ := hout.enacts.exists_after hm
    refine ⟨m', hm', ?_⟩
    rw [hout.enacts.active_eq hm hm']
    split
    · rfl
    · next hi =>
      exact Bool.eq_false_iff.2 fun hactive => hi (mem_activeIndices.2 ⟨m, hm, hactive⟩)
  have hin := performs_entering (nodup_living cast t) hidle henter
  have hperforms := (hout.andThen hleave hin).revalidate hboth t
  have hturns : turns cast.activeIndices (cast.living t) [] =
      (cast.activeIndices.map fun i => (i, .disappears)) ++
        (cast.living t).map fun i => (i, .appears) := by
    rw [turns, List.map_nil, List.append_nil]
  rw [← hturns] at hperforms
  refine ⟨cast.activeIndices, cast.living t, hperforms, h.of_turns hperforms fun i m hm => ?_⟩
  rw [← mem_living_iff hm (h.lives m (Array.mem_of_getElem? hm)).1]
  exact ⟨fun hi => hi.resolve_right fun hi' => hi'.1 (mem_activeIndices.2 ⟨m, hm, hi'.2⟩), .inl⟩

/-- Once all who leave have left, the others enter, and who was active before that goes on. -/
theorem performs_enter_stay {direction : Direction} {start target : Time}
    (hidle : ∀ i ∈ cast.entering direction start target,
      ∃ m, cast.members[i]? = some m ∧ m.active = false)
    (hok : (((Outcome.forEach cast (enter log target)
      (cast.entering direction start target)).andThen fun cast =>
        .done { cast with validAt := some target }).andThen fun cast' =>
          Outcome.forEach cast' (stay direction start target) cast.activeIndices).failure = none) :
    cast.Performs (((cast.entering direction start target).map fun i => (i, .appears)) ++
        cast.activeIndices.map fun i => (i, .goesOn)) (some target)
      (((Outcome.forEach cast (enter log target)
        (cast.entering direction start target)).andThen fun cast =>
          .done { cast with validAt := some target }).andThen fun cast' =>
            Outcome.forEach cast' (stay direction start target) cast.activeIndices) := by
  obtain ⟨hboth, hstay, -⟩ := Outcome.of_andThen hok
  obtain ⟨henter, -, -⟩ := Outcome.of_andThen hboth
  have hin := (performs_entering (nodup_entering cast _ _ _) hidle henter).revalidate henter target
  -- those who were active still are after the others have entered
  have hactive : ∀ i ∈ cast.activeIndices, ∃ m, (((Outcome.forEach cast (enter log target)
      (cast.entering direction start target)).andThen fun cast =>
        .done { cast with validAt := some target }).state.members)[i]? = some m ∧
          m.active = true := by
    intro i hi
    obtain ⟨m, hm, hactive⟩ := mem_activeIndices.1 hi
    obtain ⟨m', hm', -⟩ := hin.enacts.exists_after hm
    refine ⟨m', hm', ?_⟩
    rw [hin.enacts.active_eq hm hm', hactive]
    exact ite_self true
  have hon := performs_forEach .goesOn (performs_stay direction start target)
    (nodup_activeIndices cast) hactive hstay
  rw [hin.validAt] at hon
  exact hin.andThen hboth hon

/-- **An incremental step** from where the cast is valid sends away those who do not live at its
target, then has those appear who do and did not, then takes the others along. -/
theorem InOrder.advance (h : cast.InOrder) {direction : Direction} {start target : Time}
    (hlead : direction.leads start target) (hvalid : cast.validAt = some start)
    (hok : (cast.advance log direction start target).failure = none) :
    ∃ leaving entering staying,
      cast.Performs (turns leaving entering staying) (some target)
        (cast.advance log direction start target) ∧
      (cast.advance log direction start target).state.InOrder := by
  obtain ⟨hleave, hrest, -⟩ := Outcome.of_andThen hok
  have hmark {i : Nat} {m : Member} (hm : cast.members[i]? = some m) :
      m.active = true ↔ m.thing.record.AliveAt start :=
    h.marks start hvalid m (Array.mem_of_getElem? hm)
  have hout := performs_leaving (nodup_leaving cast direction start target) (fun i hi =>
    isActive_iff.1 (List.mem_filter.1 hi).2) hleave
  obtain ⟨cast₁, hcast₁⟩ : ∃ c, c =
    (Outcome.forEach cast leave (cast.leaving direction start target)).state := ⟨_, rfl⟩
  rw [← hcast₁] at hrest
  -- who enters was not alive at the start, so the mark from before still says so
  have hidle : ∀ i ∈ cast₁.entering direction start target,
      ∃ m, cast₁.members[i]? = some m ∧ m.active = false := by
    intro i hi
    obtain ⟨m₁, hm₁⟩ := exists_of_mem_entering hi
    obtain ⟨m, hm, hrecord⟩ := hout.enacts.exists_before (hcast₁ ▸ hm₁)
    have hnot := ((mem_entering_iff hlead hm₁).1 hi).2
    rw [hrecord, ← hmark hm] at hnot
    refine ⟨m₁, hm₁, ?_⟩
    rw [hout.enacts.active_eq hm (hcast₁ ▸ hm₁), Bool.eq_false_iff.2 hnot]
    exact ite_self false
  have hperforms : cast.Performs (turns (cast.leaving direction start target)
      (cast₁.entering direction start target) cast₁.activeIndices) (some target)
      (cast.advance log direction start target) := by
    have hsecond := performs_enter_stay hidle hrest
    subst hcast₁
    exact hout.andThen hleave hsecond
  refine ⟨_, _, _, hperforms, h.of_turns hperforms fun i m hm => ?_⟩
  obtain ⟨m₁, hm₁, hrecord⟩ := hout.enacts.exists_after hm
  rw [← hcast₁] at hm₁
  rw [mem_entering_iff hlead hm₁, mem_leaving_iff hlead hm (hmark hm), hmark hm, hrecord]
  -- whether a member takes a turn depends on where it is alive
  by_cases hstart : m.thing.record.AliveAt start <;>
    by_cases htarget : m.thing.record.AliveAt target <;> simp [hstart, htarget]

/-- **A step from where the cast is valid**: who leaves goes first, then others enter, and those who
are left of the active ones go on. -/
theorem InOrder.step_valid (h : cast.InOrder) {direction : Direction} {start target : Time}
    (hvalid : cast.validAt = some start)
    (hok : (cast.step log direction start target).failure = none) :
    ∃ leaving entering staying v,
      cast.Performs (turns leaving entering staying) v (cast.step log direction start target) ∧
        (cast.step log direction start target).state.InOrder := by
  rw [step] at hok ⊢
  split at hok
  · next hlead =>
    rw [if_pos hlead]
    exact ⟨[], [], [], cast.validAt, .done cast, h⟩
  · next hlead =>
    rw [if_neg hlead, if_pos hvalid]
    obtain ⟨leaving, entering, staying, hperforms, horder⟩ :=
      h.advance (by simpa using hlead) hvalid hok
    exact ⟨leaving, entering, staying, some target, hperforms, horder⟩

/-- A step that succeeds acts out a script and leaves the cast in order. -/
theorem InOrder.step (h : cast.InOrder) {direction : Direction} {start target : Time}
    (hok : (cast.step log direction start target).failure = none) :
    ∃ script v, cast.Performs script v (cast.step log direction start target) ∧
      (cast.step log direction start target).state.InOrder := by
  by_cases hvalid : cast.validAt = some start
  · obtain ⟨_, _, _, v, hperforms⟩ := h.step_valid hvalid hok
    exact ⟨_, v, hperforms⟩
  · rw [Cast.step] at hok ⊢
    split at hok
    · next hlead =>
      rw [if_pos hlead]
      exact ⟨[], cast.validAt, .done cast, h⟩
    · next hlead =>
      rw [if_neg hlead, if_neg hvalid]
      obtain ⟨hassemble, hadvance, hstate⟩ := Outcome.of_andThen hok
      obtain ⟨_, _, hfirst, horder⟩ := h.assemble hassemble
      obtain ⟨_, _, _, hsecond, horder'⟩ :=
        horder.advance (by simpa using hlead) hfirst.validAt hadvance
      rw [← hstate] at horder'
      exact ⟨_, some target, hfirst.andThen hassemble hsecond, horder'⟩

/-! ### Many calls -/

/-- What can be asked of a cast, each time with the log as it is then. -/
inductive Call where
  | assemble (log : Log) (t : Time)
  | step (log : Log) (direction : Direction) (start target : Time)

/-- The outcome of a call. -/
def Call.perform : Call → Cast → Outcome Cast
  | assemble log t, cast => cast.assemble log t
  | step log direction start target, cast => cast.step log direction start target

/-- **A call that succeeds is turns of the members** and leaves the cast in order. -/
theorem InOrder.perform (h : cast.InOrder) {call : Call}
    (hok : (call.perform cast).failure = none) :
    ∃ script v, cast.Performs script v (call.perform cast) ∧ (call.perform cast).state.InOrder := by
  cases call with
  | assemble log t =>
    obtain ⟨_, _, hperforms⟩ := h.assemble hok
    exact ⟨_, some t, hperforms⟩
  | step log direction start target => exact h.step hok

/-- So are any number of them. -/
theorem InOrder.performs (h : cast.InOrder) {calls : List Call}
    (hok : (Outcome.forEach cast Call.perform calls).failure = none) :
    ∃ script v, cast.Performs script v (Outcome.forEach cast Call.perform calls) ∧
      (Outcome.forEach cast Call.perform calls).state.InOrder := by
  induction calls generalizing cast with
  | nil => exact ⟨[], cast.validAt, .done cast, h⟩
  | cons call calls ih =>
    obtain ⟨hcall, hrest, hstate⟩ := Outcome.of_andThen hok
    obtain ⟨script, v, hperforms, horder⟩ := h.perform hcall
    obtain ⟨script', v', hperforms', horder'⟩ := ih horder hrest
    rw [← hstate] at horder'
    exact ⟨script ++ script', v', hperforms.andThen hcall hperforms', horder'⟩

/-- **The active members are the living ones, after any calls.** Of a cast that has just been read,
whatever lives its records tell of, and after any calls that succeed:

* where it claims to be valid, just those members are active that live;
* just the active members have their tracks;
* all it has emitted is the turns of some script, in which the entrances and exits of every member
  alternate, an entrance first, and are one entrance ahead just while the member is active;
* and in a step from where it is valid all exits come before the first entrance. -/
theorem active_after_calls {cast₀ : Cast} (hload : cast₀.load log = .done cast)
    (hlives : ∀ m ∈ cast.members,
      0 ≤ m.thing.record.spawn ∧ m.thing.record.spawn < m.thing.record.despawn)
    {calls : List Call} (hcalls : (Outcome.forEach cast Call.perform calls).failure = none) :
    let o := Outcome.forEach cast Call.perform calls
    (∀ t, o.state.validAt = some t →
      ∀ m ∈ o.state.members, m.active = true ↔ m.thing.record.AliveAt t) ∧
    (∀ m ∈ o.state.members, m.thing.isLoaded = m.active) ∧
    (∃ script, Enacts cast.members script o.emitted o.state.members ∧
      ∀ i m, o.state.members[i]? = some m →
        Alternates false (entrancesAndExits script i) m.active ∧
        (entrancesAndExits script i).count .appears =
          (entrancesAndExits script i).count .disappears + if m.active then 1 else 0) ∧
    ∀ log direction start target, o.state.validAt = some start →
      (o.state.step log direction start target).failure = none →
      ∃ leaving entering staying, Enacts o.state.members (turns leaving entering staying)
        (o.state.step log direction start target).emitted
        (o.state.step log direction start target).state.members := by
  obtain ⟨records, hrecords⟩ := Roster.exists_records_of_load hload
  -- nothing is active or loaded before the first call
  have hidle : ∀ m ∈ cast.members, m.active = false ∧ m.thing.isLoaded = false := by
    intro m hm
    rw [hrecords, List.mem_toArray, List.mem_map] at hm
    obtain ⟨r, -, rfl⟩ := hm
    refine ⟨rfl, ?_⟩
    obtain ⟨_, _, key, _, _, _⟩ := r
    cases key <;> rfl
  have horder : cast.InOrder :=
    ⟨hlives, fun m hm => (hidle m hm).2.trans (hidle m hm).1.symm, fun t ht => by
      rw [hrecords] at ht
      cases ht⟩
  obtain ⟨script, v, hperforms, horder'⟩ := horder.performs hcalls
  refine ⟨horder'.marks, horder'.tracks, ⟨script, hperforms.enacts, fun i m hm => ?_⟩,
    fun log direction start target hvalid hok => ?_⟩
  · obtain ⟨m₀, hm₀, -⟩ := hperforms.enacts.exists_before hm
    have halternates := hperforms.enacts.alternates hm₀ hm
    rw [(hidle m₀ (Array.mem_of_getElem? hm₀)).1] at halternates
    exact ⟨halternates, halternates.count_eq⟩
  · obtain ⟨leaving, entering, staying, _, hstep, -⟩ := horder'.step_valid hvalid hok
    exact ⟨leaving, entering, staying, hstep.enacts⟩

/-- Calls on the cast of both rains: forth over both, back into the first, rebuilt in the second,
then a step that does not start where the cast is valid. -/
def rainCalls : List Call :=
  [.step rainLog .forward 0 10, .step rainLog .backward 10 4, .assemble rainLog 9,
    .step rainLog .forward 2 11]

/-- The calls of the rain succeed and end at their last target. -/
theorem rainCalls_succeed :
    (Outcome.forEach rainCast Call.perform rainCalls).failure = none ∧
      (Outcome.forEach rainCast Call.perform rainCalls).state.validAt = some 11 := by
  have hload : (Cast.atHandle 17).load rainLog = .done rainCast :=
    Cast.load_of_holds rainLog_holds.2.2
  obtain ⟨roster, hcast, hroster⟩ := Roster.castAt_of_load hload rainCast_lives
  have hapart := rainCast_apart
  rw [hcast] at hapart
  have hfits := Roster.fits_of_apart hroster hapart
  have hstep (moment : Option Time) {direction : Direction} {start target : Time}
      (hlead : direction.leads start target) :=
    Roster.step_castAt hfits.told hfits.nonneg rainCast.handle moment hlead
  obtain ⟨_, hforth, -⟩ := hstep none (rfl : Direction.forward.leads 0 10 = true)
  obtain ⟨_, hback, -⟩ := hstep (some 10) (rfl : Direction.backward.leads 10 4 = true)
  obtain ⟨_, hrebuilt, -⟩ :=
    Roster.assemble_castAt hfits.told hfits.nonneg rainCast.handle (some 4) 9
  obtain ⟨_, hlast, -⟩ := hstep (some 9) (rfl : Direction.forward.leads 2 11 = true)
  rw [hcast]
  simp only [rainCalls, Outcome.forEach, Call.perform, hforth, hback, hrebuilt, hlast,
    Outcome.emit_andThen]
  exact ⟨rfl, rfl⟩

/-- Rain that ends as other rain begins. -/
theorem active_after_calls_rain :
    let o := Outcome.forEach rainCast Call.perform rainCalls
    o.failure = none ∧ o.state.validAt = some 11 ∧
      ∀ m ∈ o.state.members,
        (m.active = true ↔ m.thing.record.AliveAt 11) ∧ m.thing.isLoaded = m.active := by
  have hload : (Cast.atHandle 17).load rainLog = .done rainCast :=
    Cast.load_of_holds rainLog_holds.2.2
  obtain ⟨hok, hvalid⟩ := rainCalls_succeed
  obtain ⟨hmarks, htracks, -, -⟩ := active_after_calls hload (by decide) hok
  exact ⟨hok, hvalid, fun m hm => ⟨hmarks 11 hvalid m hm, htracks m hm⟩⟩

end Cast

end Playhead
