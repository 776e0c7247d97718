import Playhead.Proofs.Thing.Record
import Playhead.Proofs.Thing.Shows

/-!
# Steps of a cast agree with rebuilding it

A cast that has just been read, or that has been taken to a moment by steps, is
`Playhead.Roster.castAt` that moment. One step takes it to the target and a client along with it,
whether the marks were right for the start of the step or the cast had to be rebuilt first
(`Playhead.Roster.step_castAt`). So after any steps, in both directions and between any moments, the
cast and the client are what rebuilding the cast for the last target would have made of them at
once (`Playhead.Cast.steps_agree_with_assemble`).
-/

namespace Playhead

namespace Roster

variable {roster : Roster} {log : Log} {minY : Int32} {handle : Handle}

/-- The cast when it has been taken to a moment; nobody is active before that. -/
def castAt (roster : Roster) (handle : Handle) (moment : Option Time) : Cast :=
  roster.cast handle (fun i => moment.any (roster.alive · i)) moment

/-- A client that shows the cast at a moment, and nothing before it has been taken to one. -/
def ShownAt (roster : Roster) (minY : Int32) (moment : Option Time) (client : Client) : Prop :=
  match moment with
  | none => ∀ key, client.look key = none
  | some t => client.Shows minY {life | life ∈ roster.lives} t

/-- What shows a roster at a moment displays who is alive then. -/
theorem ShownAt.displays {moment : Option Time} {client : Client}
    (h : roster.ShownAt minY moment client) :
    roster.Displays minY (fun i => moment.bind fun s => if roster.alive s i then some s else none)
      client := by
  cases moment with
  | none => exact ⟨fun i p t _ ht => absurd ht (by simp), fun key _ => h key⟩
  | some s => exact shows_iff_displays.1 h

/-- A roster whose records tell of lives that can be shown together. -/
structure Fits (roster : Roster) (log : Log) (minY : Int32) : Prop where
  told : roster.Told log
  sound : ∀ p ∈ roster, p.2.Sound minY
  apart : roster.lives.Pairwise Life.Apart

/-- No life of a roster that fits begins before the recording. -/
theorem Fits.nonneg (h : roster.Fits log minY) : ∀ p ∈ roster, 0 ≤ p.2.spawn :=
  fun p hp => (h.sound p hp).nonneg

/-- What steps do to a client: everything but the things stays, and those of the moment are
shown. -/
def TakesTo (roster : Roster) (minY : Int32) (moment moment' : Option Time)
    (packets : List Packet) : Prop :=
  ∀ client : Client, client.Sound → client.minY = minY → roster.ShownAt minY moment client →
    (client.applyAll packets).bare = client.bare ∧ (client.applyAll packets).Sound ∧
      roster.ShownAt minY moment' (client.applyAll packets)

/-- One way after another is a way. -/
theorem TakesTo.append {a b c : Option Time} {packets packets' : List Packet}
    (h : roster.TakesTo minY a b packets) (h' : roster.TakesTo minY b c packets') :
    roster.TakesTo minY a c (packets ++ packets') := by
  intro client hclient hminY hshown
  obtain ⟨hbare, hsound, hshown⟩ := h client hclient hminY hshown
  obtain ⟨hbare', hsound', hshown'⟩ :=
    h' _ hsound ((Client.minY_of_bare hbare).trans hminY) hshown
  rw [Client.applyAll_append]
  exact ⟨hbare'.trans hbare, hsound', hshown'⟩

theorem TakesTo.refl (moment : Option Time) : roster.TakesTo minY moment moment [] :=
  fun _ hclient _ hshown => ⟨rfl, hclient, hshown⟩

/-! ### One step -/

/-- What rebuilding a cast shows: those who are active go, then those of the moment come. -/
def Rebuilds (roster : Roster) (moment : Option Time) (t : Time) (packets : List Packet) : Prop :=
  ∃ leaving entering : List Nat,
    leaving.Pairwise (· < ·) ∧ (∀ i, i ∈ leaving ↔ moment.any (roster.alive · i) = true) ∧
    entering.Pairwise (roster.Precedes Life.spawn) ∧
    (∀ i, i ∈ entering ↔ roster.alive t i = true) ∧
    packets = roster.departures leaving ++ roster.arrivals t entering

/-- What taking a cast further shows: some go, some come, the others make the step. -/
def Advances (roster : Roster) (direction : Direction) (start target : Time)
    (packets : List Packet) : Prop :=
  ∃ leaving entering staying : List Nat,
    roster.Parts direction start target leaving entering staying ∧
    packets = roster.departures leaving ++ (roster.arrivals target entering ++
      roster.passages direction start target staying)

/-- What a step shows: the cast is rebuilt at the start unless it is there, and taken further. -/
def Strides (roster : Roster) (moment : Option Time) (direction : Direction) (start target : Time)
    (packets : List Packet) : Prop :=
  ∃ front back, (if moment = some start then front = [] else roster.Rebuilds moment start front) ∧
    roster.Advances direction start target back ∧ packets = front ++ back

/-- **A cast is assembled from any moment**, and what is shown rebuilds the target. -/
theorem assemble_castAt (h : roster.Told log) (hnonneg : ∀ p ∈ roster, 0 ≤ p.2.spawn)
    (handle : Handle) (moment : Option Time) (t : Time) :
    ∃ packets, (roster.castAt handle moment).assemble log t =
      .emit (roster.castAt handle (some t)) packets ∧ roster.Rebuilds moment t packets := by
  obtain ⟨leaving, entering, hleaving, hmem, hentering, hmem', heq⟩ :=
    assemble_eq handle moment h hnonneg (fun i => moment.any (roster.alive · i)) t
  refine ⟨_, heq, leaving, entering, hleaving, fun i => ?_, hentering, hmem', rfl⟩
  rw [hmem]
  refine ⟨fun hi => hi.2, fun hi => ⟨?_, hi⟩⟩
  cases moment with
  | none => exact absurd hi (by simp)
  | some s => exact lt_length_of_alive hi

/-- **A step takes the cast to the target**, wherever it was before. -/
theorem step_castAt (h : roster.Told log) (hnonneg : ∀ p ∈ roster, 0 ≤ p.2.spawn)
    (handle : Handle) (moment : Option Time) {direction : Direction} {start target : Time}
    (hlead : direction.leads start target) :
    ∃ packets, (roster.castAt handle moment).step log direction start target =
      .emit (roster.castAt handle (some target)) packets ∧
      roster.Strides moment direction start target packets := by
  obtain ⟨leaving, entering, staying, hparts, hadvance⟩ := advance_eq h hlead handle (some start)
  have hback : roster.Advances direction start target _ :=
    ⟨leaving, entering, staying, hparts, rfl⟩
  have hvalid : (roster.castAt handle moment).validAt = moment := rfl
  rw [Cast.step, hlead, Bool.not_true, if_neg (by simp), hvalid]
  by_cases hstart : moment = some start
  · subst hstart
    rw [if_pos rfl]
    exact ⟨_, Outcome.emit_andThen_emit hadvance, [], _, by rw [if_pos rfl], hback, rfl⟩
  · obtain ⟨front, hassemble, hfront⟩ := assemble_castAt h hnonneg handle moment start
    rw [if_neg hstart, hassemble]
    exact ⟨_, Outcome.emit_andThen_emit hadvance, front, _, by rwa [if_neg hstart], hback, rfl⟩

/-- A rebuild takes a client to the target. -/
theorem Rebuilds.takesTo (h : roster.Fits log minY) {moment : Option Time} {t : Time}
    {packets : List Packet} (hshows : roster.Rebuilds moment t packets) :
    roster.TakesTo minY moment (some t) packets := by
  obtain ⟨leaving, entering, hleaving, hmem, hentering, hmem', rfl⟩ := hshows
  intro client hclient hminY hshown
  exact shows_assemble h.sound h.apart hclient hminY (hleaving.imp Nat.ne_of_lt)
    (nodup_of_precedes hentering) hmem hmem' hshown.displays

/-- An advance takes a client from the start to the target. -/
theorem Advances.takesTo (h : roster.Fits log minY) {direction : Direction} {start target : Time}
    (hlead : direction.leads start target) {packets : List Packet}
    (hshows : roster.Advances direction start target packets) :
    roster.TakesTo minY (some start) (some target) packets := by
  obtain ⟨leaving, entering, staying, hparts, rfl⟩ := hshows
  intro client hclient hminY hshown
  exact shows_advance h.sound h.apart hclient hminY hlead hparts hshown

/-- **What a step shows takes a client to the target** along with the cast. -/
theorem Strides.takesTo (h : roster.Fits log minY) {moment : Option Time} {direction : Direction}
    {start target : Time} (hlead : direction.leads start target) {packets : List Packet}
    (hshows : roster.Strides moment direction start target packets) :
    roster.TakesTo minY moment (some target) packets := by
  obtain ⟨front, back, hfront, hback, rfl⟩ := hshows
  have htakes := hback.takesTo h hlead
  by_cases hstart : moment = some start
  · rw [if_pos hstart] at hfront
    rw [hfront, hstart, List.nil_append]
    exact htakes
  · rw [if_neg hstart] at hfront
    exact (hfront.takesTo h).append htakes

/-! ### Many steps -/

end Roster

/-- A step that is asked of a cast: where it leads and between which moments. -/
structure Stride where
  direction : Direction
  start : Time
  target : Time

namespace Stride

/-- Whether a step leads in its direction; otherwise nothing happens. -/
def leads (s : Stride) : Bool := s.direction.leads s.start s.target

/-- The target of the last of some steps at which anything happens. -/
def last? (steps : List Stride) : Option Time := ((steps.filter leads).getLast?).map target

/-- The last target is that of the last stride that leads, if one does. -/
theorem last?_cons (s : Stride) (steps : List Stride) :
    last? (s :: steps) = (last? steps).or (if s.leads then some s.target else none) := by
  rw [last?, List.filter_cons]
  cases s.leads with
  | false => simp [last?]
  | true =>
    simp only [if_true, List.getLast?_cons, last?]
    cases (steps.filter leads).getLast? <;> rfl

end Stride

/-- The steps that are asked of a cast, one after the other, up to the first that fails. -/
def Cast.steps (cast : Cast) (log : Log) (steps : List Stride) : Outcome Cast :=
  Outcome.forEach cast (fun s cast => cast.step log s.direction s.start s.target) steps

theorem Cast.steps_cons (cast : Cast) (log : Log) (s : Stride) (steps : List Stride) :
    cast.steps log (s :: steps) =
      (cast.step log s.direction s.start s.target).andThen fun cast => cast.steps log steps := rfl

namespace Roster

variable {roster : Roster} {log : Log} {minY : Int32}

/-- **Steps take the cast and its client to the target of the last of them.** -/
theorem steps_castAt (h : roster.Fits log minY) (handle : Handle) (steps : List Stride)
    (moment : Option Time) :
    ∃ packets, (roster.castAt handle moment).steps log steps =
      .emit (roster.castAt handle ((Stride.last? steps).or moment)) packets ∧
      roster.TakesTo minY moment ((Stride.last? steps).or moment) packets ∧
      (Stride.last? steps = none → packets = []) := by
  induction steps generalizing moment with
  | nil => exact ⟨[], rfl, .refl moment, fun _ => rfl⟩
  | cons s steps ih =>
    rw [Cast.steps_cons, Stride.last?_cons, Option.or_assoc]
    cases hlead : s.leads with
    | false =>
      obtain ⟨packets, heq, htakes, hnil⟩ := ih moment
      have hstep : (roster.castAt handle moment).step log s.direction s.start s.target =
          .emit (roster.castAt handle moment) [] := by
        rw [Cast.step, show s.direction.leads s.start s.target = false from hlead]
        rfl
      rw [hstep, Outcome.emit_andThen_emit (g := fun cast : Cast => cast.steps log steps) heq]
      rw [if_neg (by simp), Option.none_or]
      exact ⟨packets, by rw [List.nil_append], htakes, fun hnone => hnil (by simpa using hnone)⟩
    | true =>
      obtain ⟨first, hstep, hshows⟩ := step_castAt h.told h.nonneg handle moment hlead
      have htakes := hshows.takesTo h hlead
      obtain ⟨packets, heq, htakes', -⟩ := ih (some s.target)
      rw [hstep, Outcome.emit_andThen_emit (g := fun cast : Cast => cast.steps log steps) heq]
      rw [if_pos rfl, Option.some_or]
      exact ⟨first ++ packets, rfl, htakes.append htakes', fun hnone => by simp at hnone⟩

/-! ### A cast that has just been read -/

/-- Members that are read are not active. -/
theorem readMembers_ok {log : Log} {count : Nat} {done members : Array Member} {bytes : Bytes}
    (h : Cast.readMembers log count done bytes = (members, none)) :
    ∃ records : List ThingRecord, members.toList =
      done.toList ++ records.map fun r => ⟨.ofRecord r, false⟩ := by
  induction count generalizing done bytes with
  | zero =>
    obtain ⟨rfl, -⟩ := Prod.mk.inj h
    exact ⟨[], by simp⟩
  | succ count ih =>
    rw [Cast.readMembers] at h
    split at h
    · exact absurd (Prod.mk.inj h).2 (by simp)
    · next record rest _ =>
      obtain ⟨records, hrecords⟩ := ih h
      exact ⟨record :: records, by rw [hrecords]; simp⟩

/-- **A cast that has just been read** has idle members without their tracks, and is valid
nowhere. -/
theorem exists_records_of_load {log : Log} {cast₀ cast : Cast} (h : cast₀.load log = .done cast) :
    ∃ records : List ThingRecord, cast =
      ⟨cast₀.handle, (records.map fun r => Member.mk (.ofRecord r) false).toArray, none, true⟩ := by
  rw [Cast.load] at h
  split at h
  · exact absurd (congrArg Outcome.failure h) (by simp [Outcome.fail, Outcome.done])
  · next count bytes _ =>
    cases hread : Cast.readMembers log count #[] bytes with
    | mk members failure =>
      rw [hread] at h
      obtain rfl : failure = none := congrArg Outcome.failure h
      obtain rfl : (⟨cast₀.handle, members, none, true⟩ : Cast) = cast := congrArg Outcome.state h
      obtain ⟨records, hrecords⟩ := readMembers_ok hread
      exact ⟨records, by rw [← Array.toList_inj.1 hrecords.symm, List.nil_append]⟩

/-- The records of a list, each with a life it tells of. -/
theorem exists_roster {log : Log} {minY : Int32} {records : List ThingRecord}
    (h : ∀ r ∈ records, ∃ life : Life, life.ToldBy log r ∧ life.Sound minY) :
    ∃ roster : Roster, roster.map (·.1) = records ∧
      ∀ p ∈ roster, p.2.ToldBy log p.1 ∧ p.2.Sound minY := by
  induction records with
  | nil => exact ⟨[], rfl, by simp⟩
  | cons r records ih =>
    obtain ⟨life, hlife⟩ := h r List.mem_cons_self
    obtain ⟨roster, hroster, hlives⟩ := ih fun r hr => h r (List.mem_cons_of_mem _ hr)
    refine ⟨(r, life) :: roster, by rw [List.map_cons, hroster], ?_⟩
    rintro p (_ | ⟨_, hp⟩)
    · exact hlife
    · exact hlives p hp

/-- A roster with nobody active. -/
theorem members_castAt_none (handle : Handle) : (roster.castAt handle none).members.toList =
    (roster.map (·.1)).map fun r => ⟨.ofRecord r, false⟩ := by
  refine List.ext_getElem? fun i => ?_
  rw [Array.getElem?_toList, castAt, getElem?_members, List.map_map, List.getElem?_map]
  rfl

/-- A cast that has been read is the cast of the lives that its records tell of. -/
theorem castAt_of_load {cast₀ cast : Cast} (h : cast₀.load log = .done cast)
    (htold : ∀ m ∈ cast.members.toList, ∃ life : Life, life.ToldBy log m.thing.record ∧
      life.Sound minY) :
    ∃ roster : Roster, cast = roster.castAt cast.handle none ∧
      (∀ p ∈ roster, p.2.ToldBy log p.1 ∧ p.2.Sound minY) := by
  obtain ⟨records, rfl⟩ := exists_records_of_load h
  have hlives : ∀ r ∈ records, ∃ life : Life, life.ToldBy log r ∧ life.Sound minY :=
    fun r hr => htold ⟨.ofRecord r, false⟩ (List.mem_map_of_mem hr)
  obtain ⟨roster, hroster, hlives⟩ := exists_roster hlives
  refine ⟨roster, ?_, hlives⟩
  have hmembers : (records.map fun r => Member.mk (.ofRecord r) false).toArray =
      (roster.castAt cast₀.handle none).members := by
    rw [← Array.toList_inj, members_castAt_none, hroster]
  rw [hmembers]
  rfl

/-- Records that are apart tell of lives that are. -/
theorem fits_of_apart {handle : Handle}
    (hlives : ∀ p ∈ roster, p.2.ToldBy log p.1 ∧ p.2.Sound minY)
    (hapart : (roster.castAt handle none).members.toList.Pairwise fun m n =>
      m.thing.record.key = n.thing.record.key →
        ∀ t, ¬ (m.thing.record.AliveAt t ∧ n.thing.record.AliveAt t)) :
    roster.Fits log minY := by
  rw [members_castAt_none, List.map_map, List.pairwise_map] at hapart
  refine ⟨fun p hp => (hlives p hp).1, fun p hp => (hlives p hp).2, ?_⟩
  rw [lives, List.pairwise_map]
  refine hapart.imp_of_mem fun {p q} hp hq hpq hkey t ht => ?_
  have htold := (hlives p hp).1
  have htold' := (hlives q hq).1
  refine hpq (htold.key.trans (hkey.trans htold'.key.symm)) t ⟨?_, ?_⟩
  · rw [ThingRecord.AliveAt]
    exact ⟨htold.spawn ▸ ht.1.1, htold.despawn ▸ ht.1.2⟩
  · rw [ThingRecord.AliveAt]
    exact ⟨htold'.spawn ▸ ht.2.1, htold'.despawn ▸ ht.2.2⟩

end Roster

/-- **Steps of a cast agree with rebuilding it.** Take a cast that has been read, whose records tell
of lives that can be shown and are apart, and a client without entities, chunks and rain in a
dimension of the lowest height for which the lives are consistent. Then any steps, in both
directions and between any moments, succeed. If nothing happens at any of them, the cast is what it
was and nothing was emitted; otherwise cast and client are what rebuilding the cast at the last
target would have made of them. -/
theorem Cast.steps_agree_with_assemble {log : Log} {cast₀ cast : Cast} {client : Client}
    (hload : cast₀.load log = .done cast)
    (hlives : ∀ m ∈ cast.members.toList, ∃ life : Life,
      life.ToldBy log m.thing.record ∧ life.Sound client.minY)
    (hapart : cast.members.toList.Pairwise fun m n =>
      m.thing.record.key = n.thing.record.key →
        ∀ t, ¬ (m.thing.record.AliveAt t ∧ n.thing.record.AliveAt t))
    (hentities : client.entities = .empty) (hchunks : client.chunks = .empty)
    (hrain : client.raining = false ∧ client.rainLevel = 0) (steps : List Stride) :
    (cast.steps log steps).failure = none ∧
      match Stride.last? steps with
      | none => cast.steps log steps = .done cast
      | some t =>
        (cast.assemble log t).failure = none ∧
          (cast.steps log steps).state = (cast.assemble log t).state ∧
          (client.applyAll (cast.steps log steps).emitted).Same
            (client.applyAll (cast.assemble log t).emitted) := by
  obtain ⟨roster, hcast, hroster⟩ := Roster.castAt_of_load hload hlives
  rw [hcast] at hapart
  have hfits := Roster.fits_of_apart hroster hapart
  have hclient : client.Sound :=
    ⟨fun key c hc => absurd hc (by rw [hchunks, SortedMap.get?_empty]; simp), fun _ => hrain.2⟩
  -- a client without entities, chunks and rain shows a cast that was never valid
  have hnothing : roster.ShownAt client.minY none client :=
    fun key => Client.look_of_empty hentities hchunks hrain.1 key
  obtain ⟨packets, hsteps, htakes, hnil⟩ := Roster.steps_castAt hfits cast.handle steps none
  rw [← hcast] at hsteps
  rw [hsteps]
  refine ⟨rfl, ?_⟩
  cases hlast : Stride.last? steps with
  | none =>
    rw [hnil hlast, Option.none_or, ← hcast]
    rfl
  | some t =>
    obtain ⟨packets', hassemble, hrebuilds⟩ :=
      Roster.assemble_castAt hfits.told hfits.nonneg cast.handle none t
    have htakes' := hrebuilds.takesTo hfits
    rw [← hcast] at hassemble
    rw [hlast, Option.some_or] at htakes
    obtain ⟨hbare, hsound, hshown⟩ := htakes client hclient rfl hnothing
    obtain ⟨hbare', hsound', hshown'⟩ := htakes' client hclient rfl hnothing
    dsimp only
    rw [hassemble, Option.some_or]
    refine ⟨rfl, rfl, ?_⟩
    -- both ways end at clients that show the same lives, so they look alike
    have halike : (client.applyAll packets).Alike (client.applyAll packets') :=
      ⟨hbare.trans hbare'.symm, Client.Shows.look_eq hshown hshown'⟩
    exact ⟨halike.sameScene hsound hsound', halike.corrections⟩

/-! ### Rain that ends as it begins anew -/

/-- The strengths of a rain. -/
def earlyRain : Timeline Float32Bits := .ofList [(0, 0), (3, 5)]

/-- The strengths of the rain after it. -/
def lateRain : Timeline Float32Bits := .ofList [(9, 0)]

/-- The records of both; the first rain ends at the moment at which the second begins. -/
def rainRecords : List ThingRecord :=
  [⟨0, 9, .weather, [.beginRain], [.endRain], 0⟩, ⟨9, 12, .weather, [.beginRain], [.endRain], 11⟩]

/-- The bytes of both rains. -/
def rainBytes : Bytes := [2, 0, 0, 0, 0, 0, 3, 0, 0, 0, 5] ++ [1, 9, 0, 0, 0, 0]

/-- The bytes of their records. -/
def rainRecordBytes : Bytes :=
  [2, 0, 9, 2, 1, 12, 9, 2, 0, 0, 0, 0, 1, 12, 9, 1, 0, 0, 0, 0, 0, 0, 0, 0, 0, 0, 0, 0,
    9, 12, 2, 1, 12, 9, 2, 0, 0, 0, 0, 1, 12, 9, 1, 0, 0, 0, 0, 0, 0, 0, 0, 0, 0, 0, 11]

/-- A log of both rains and, behind them, their records. -/
def rainLog : Log := .ofBytes none (rainBytes ++ rainRecordBytes)

/-- The cast of both, as it is read. -/
def rainCast : Cast :=
  ⟨17, (rainRecords.map fun r => Member.mk (.ofRecord r) false).toArray, none, true⟩

/-- The log is what writing them leaves. -/
theorem rainLog_holds :
    rainLog.Holds (Timeline.codec Stored.level) 0 earlyRain ∧
      rainLog.Holds (Timeline.codec Stored.level) 11 lateRain ∧
      rainLog.Holds (Cast.regionCodec none) 17 rainRecords := by
  have hearly : (Log.inMemory none).commitTimeline Stored.level earlyRain =
      .ok (0, .ofBytes none [2, 0, 0, 0, 0, 0, 3, 0, 0, 0, 5]) := by
    rw [Log.commitTimeline, show (Timeline.codec Stored.level).encode earlyRain =
      .ok [2, 0, 0, 0, 0, 0, 3, 0, 0, 0, 5] by decide +kernel]
    rfl
  have hlate : (Log.ofBytes none [2, 0, 0, 0, 0, 0, 3, 0, 0, 0, 5]).commitTimeline Stored.level
      lateRain = .ok (11, .ofBytes none rainBytes) := by
    rw [Log.commitTimeline, show (Timeline.codec Stored.level).encode lateRain =
      .ok [1, 9, 0, 0, 0, 0] by decide +kernel]
    rfl
  have hrecords : Cast.commit (.ofBytes none rainBytes) rainRecords = .ok (17, rainLog) := by
    rw [Cast.commit, show (Cast.regionCodec _).encode rainRecords = .ok rainRecordBytes by
      decide +kernel]
    rfl
  have hstorable : ∀ r ∈ rainRecords, r.Storable := by
    rintro r (_ | ⟨_, _ | ⟨_, ⟨⟩⟩⟩)
    all_goals
      refine ⟨by decide, by decide, by decide, fun p hp => ?_, fun p hp => ?_⟩
      all_goals
        rw [List.mem_singleton.1 hp]
        trivial
  have hfaithful (bytes : Bytes) : (Log.ofBytes none bytes).Faithful := rfl
  obtain ⟨-, hearly⟩ := Log.holds_commitTimeline_self (hfaithful []) hearly Stored.level_exact
    (Timeline.stepsFit_of_nonneg (Int.le_refl 0) (by decide) (by decide)) fun _ _ => rfl
  obtain ⟨hgrow, hlate⟩ := Log.holds_commitTimeline_self (hfaithful _) hlate Stored.level_exact
    (Timeline.stepsFit_of_nonneg (Int.le_refl 0) (by decide) (by decide)) fun _ _ => rfl
  obtain ⟨hgrow', hrecords⟩ := Cast.holds_commit (hfaithful _) hrecords hstorable
  exact ⟨(hearly.grow (hfaithful _) hgrow).grow (hfaithful _) hgrow',
    hlate.grow (hfaithful _) hgrow', hrecords⟩

/-- The lives of the rain are told and sound. -/
theorem rainCast_lives : ∀ m ∈ rainCast.members.toList, ∃ life : Life,
    life.ToldBy rainLog m.thing.record ∧ life.Sound Client.blank.minY := by
  obtain ⟨hearly, hlate, -⟩ := rainLog_holds
  rintro m (_ | ⟨_, _ | ⟨_, ⟨⟩⟩⟩)
  · refine ⟨⟨0, 9, .weather earlyRain⟩, ⟨rfl, rfl, rfl, rfl, rfl, ?_⟩, by decide, by decide, ?_⟩
    · exact congrArg (Outcome.map · ThingTrack.weather) (hearly.load_track none)
    · show earlyRain.get? 0 ≠ none
      decide
  · refine ⟨⟨9, 12, .weather lateRain⟩, ⟨rfl, rfl, rfl, rfl, rfl, ?_⟩, by decide, by decide, ?_⟩
    · exact congrArg (Outcome.map · ThingTrack.weather) (hlate.load_track none)
    · show lateRain.get? 9 ≠ none
      decide

/-- The lives of the rain are not of one thing at one time. -/
theorem rainCast_apart : rainCast.members.toList.Pairwise fun m n =>
    m.thing.record.key = n.thing.record.key →
      ∀ t, ¬ (m.thing.record.AliveAt t ∧ n.thing.record.AliveAt t) := by
  refine .cons ?_ (.cons (fun m hm => nomatch hm) .nil)
  rintro m (_ | ⟨_, ⟨⟩⟩) - t ⟨⟨_, hearly⟩, ⟨hlate, _⟩⟩
  have hearly : t < 9 := hearly
  have hlate : 9 ≤ t := hlate
  exact absurd hlate (Int.not_le.2 hearly)

/-- Back and forth over the moment at which the one rain ends and the other begins. The third step
does not start where the second ended. -/
theorem Cast.steps_agree_with_assemble_rain :
    (rainCast.steps rainLog [⟨.forward, 0, 10⟩, ⟨.backward, 10, 4⟩, ⟨.forward, 2, 9⟩]).failure =
        none ∧
      (rainCast.assemble rainLog 9).failure = none ∧
      (rainCast.steps rainLog [⟨.forward, 0, 10⟩, ⟨.backward, 10, 4⟩, ⟨.forward, 2, 9⟩]).state =
        (rainCast.assemble rainLog 9).state ∧
      (Client.blank.applyAll (rainCast.steps rainLog
        [⟨.forward, 0, 10⟩, ⟨.backward, 10, 4⟩, ⟨.forward, 2, 9⟩]).emitted).Same
        (Client.blank.applyAll (rainCast.assemble rainLog 9).emitted) :=
  have hload : (Cast.atHandle 17).load rainLog = .done rainCast :=
    Cast.load_of_holds rainLog_holds.2.2
  Cast.steps_agree_with_assemble hload rainCast_lives rainCast_apart rfl rfl ⟨rfl, rfl⟩
    [⟨.forward, 0, 10⟩, ⟨.backward, 10, 4⟩, ⟨.forward, 2, 9⟩]

end Playhead
