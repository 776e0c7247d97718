import Playhead.Proofs.Log
import Playhead.Thing.Cast

/-!
# Turns of the members of a cast

All that ever happens to a member of a cast is one of three turns (`Playhead.Member.Takes`): it
**appears**, which emits its spawn packets and then what its track has shown up to a moment; it
**disappears**, which emits its despawn packets; or it **goes on**, which emits what its track
shows over a span. `Playhead.Enacts` says that a cast takes turns in order and emits just their
packets. It asks that only idle members appear and only active ones disappear, so whatever the
script, the entrances and exits of each member alternate (`Playhead.Enacts.alternates`).

A step that goes through some members, each once, and has each of them take the same turn, enacts
the script of those turns (`Playhead.Cast.performs_forEach`).
-/

namespace Playhead

/-- What can happen to a member. -/
inductive Turn where
  | appears
  | disappears
  | goesOn
  deriving DecidableEq, Repr

namespace Turn

/-- Whether a member is active before its turn. -/
def before : Turn → Bool
  | appears => false
  | disappears => true
  | goesOn => true

/-- Whether a member is active after its turn. -/
def after : Turn → Bool
  | appears => true
  | disappears => false
  | goesOn => true

end Turn

/-! ### One turn of one member -/

namespace ThingTrack

variable {track track' : ThingTrack} {log : Log}

/-- Loading either gives the track its entries or leaves it as it was. -/
theorem load_cases (track : ThingTrack) (log : Log) :
    (∃ track', track.load log = .done track' ∧ track'.isLoaded = true) ∨
      ∃ failure, track.load log = .fail track failure := by
  have hcases {V : Type} (value : Wire.Codec Failure V) (t : Track V) :
      (∃ t', t.load value log = .done t' ∧ t'.isLoaded = true) ∨
        ∃ failure, t.load value log = .fail t failure := by
    cases h : t.stored value log with
    | ok line => exact .inl ⟨_, Track.load_of_stored h, rfl⟩
    | error failure => exact .inr ⟨failure, Track.load_of_error h⟩
  cases track with
  | entity id t =>
    rcases hcases Stored.location t with ⟨t', h, hloaded⟩ | ⟨failure, h⟩
    · exact .inl ⟨entity id t', congrArg (Outcome.map · _) h, hloaded⟩
    · exact .inr ⟨failure, congrArg (Outcome.map · _) h⟩
  | chunk t =>
    rcases hcases Stored.changes t with ⟨t', h, hloaded⟩ | ⟨failure, h⟩
    · exact .inl ⟨chunk t', congrArg (Outcome.map · _) h, hloaded⟩
    · exact .inr ⟨failure, congrArg (Outcome.map · _) h⟩
  | weather t =>
    rcases hcases Stored.level t with ⟨t', h, hloaded⟩ | ⟨failure, h⟩
    · exact .inl ⟨weather t', congrArg (Outcome.map · _) h, hloaded⟩
    · exact .inr ⟨failure, congrArg (Outcome.map · _) h⟩

/-- What has been loaded is loaded. -/
theorem isLoaded_of_load (h : track.load log = .done track') : track'.isLoaded = true := by
  rcases load_cases track log with ⟨_, hdone, hloaded⟩ | ⟨failure, hfail⟩
  · rwa [← Outcome.done_inj.1 (hdone.symm.trans h)]
  · exact absurd (h.symm.trans hfail) (Outcome.done_ne_fail _ _ _)

theorem isLoaded_unload (track : ThingTrack) : track.unload.isLoaded = false := by
  cases track <;> rfl

end ThingTrack

namespace Thing

/-- A step that succeeds emits what the track shows. -/
theorem of_step {thing : Thing} {direction : Direction} {start target : Time}
    (h : (thing.step direction start target).failure = none) :
    ∃ shown, thing.track.step direction start target = .ok shown ∧
      thing.step direction start target = .emit thing shown := by
  rw [step] at h ⊢
  cases hshown : thing.track.step direction start target with
  | error failure => rw [hshown] at h; cases h
  | ok shown => exact ⟨shown, rfl, rfl⟩

/-- A thing whose track can be read appears. -/
theorem load_of_done {thing : Thing} {log : Log} {track : ThingTrack}
    (h : thing.track.load log = .done track) :
    thing.load log = .emit ⟨thing.record, track⟩ thing.record.spawnPackets := by
  refine (Outcome.emit_andThen_emit ?_).trans (by rw [List.append_nil])
  rw [h]
  rfl

/-- A thing that is shown emits its spawn packets and what its track shows up to the moment. -/
theorem of_activate {thing : Thing} {log : Log} {t : Time}
    (h : (thing.activate log t).failure = none) :
    ∃ track shown, thing.track.load log = .done track ∧ track.step .forward origin t = .ok shown ∧
      thing.activate log t =
        .emit ⟨thing.record, track⟩ (thing.record.spawnPackets ++ shown) := by
  obtain ⟨hload, hstep, -⟩ := Outcome.of_andThen h
  rcases thing.track.load_cases log with ⟨track, htrack, -⟩ | ⟨failure, htrack⟩
  · have hloaded := load_of_done htrack
    rw [hloaded] at hstep
    obtain ⟨shown, hshown, hemit⟩ := of_step hstep
    refine ⟨track, shown, htrack, hshown, ?_⟩
    rw [activate, hloaded]
    exact Outcome.emit_andThen_emit hemit
  · rw [load, Outcome.emit_andThen, htrack] at hload
    cases hload

end Thing

namespace Member

/-- What a member emits as it takes a turn, and what becomes of it. -/
inductive Takes : Turn → Member → List Packet → Member → Prop
  | appears {m : Member} {log : Log} {t : Time} {track : ThingTrack} {shown : List Packet}
      (idle : m.active = false) (load : m.thing.track.load log = .done track)
      (play : track.step .forward origin t = .ok shown) :
      Takes .appears m (m.thing.record.spawnPackets ++ shown) ⟨⟨m.thing.record, track⟩, true⟩
  | disappears {m : Member} (active : m.active = true) :
      Takes .disappears m m.thing.record.despawnPackets ⟨m.thing.release, false⟩
  | goesOn {m : Member} {direction : Direction} {start target : Time} {shown : List Packet}
      (active : m.active = true) (play : m.thing.track.step direction start target = .ok shown) :
      Takes .goesOn m shown m

namespace Takes

variable {turn : Turn} {m m' : Member} {packets : List Packet}

theorem active_before (h : m.Takes turn packets m') : m.active = turn.before := by
  cases h <;> assumption

/-- A turn leaves the member as it should be after. -/
theorem active_after (h : m.Takes turn packets m') : m'.active = turn.after := by
  cases h with
  | appears | disappears => rfl
  | goesOn active => exact active

/-- A turn does not change what a member is. -/
theorem record_eq (h : m.Takes turn packets m') : m'.thing.record = m.thing.record := by
  cases h <;> rfl

/-- **The track is there while the member is active.** -/
theorem isLoaded_eq (h : m.Takes turn packets m') (hm : m.thing.isLoaded = m.active) :
    m'.thing.isLoaded = m'.active := by
  cases h with
  | appears idle load play => exact ThingTrack.isLoaded_of_load load
  | disappears active => exact ThingTrack.isLoaded_unload _
  | goesOn active play => exact hm

end Takes

end Member

/-! ### Scripts -/

/-- A member that is replaced, among the others. -/
theorem Member.getElem?_replace {members : Array Member} {i j : Nat} {m n : Member}
    (hj : members[j]? = some n) (hm : members[i]? = some m) (n' : Member) :
    (members.setIfInBounds j n')[i]? = some (if j = i then n' else m) := by
  rw [Array.getElem?_setIfInBounds]
  split
  · rw [if_pos (Array.getElem?_eq_some_iff.1 hj).1]
  · exact hm

/-- **Members take turns in the order of a script** and emit the packets of their turns. -/
inductive Enacts : Array Member → List (Nat × Turn) → List Packet → Array Member → Prop
  | nil (members : Array Member) : Enacts members [] [] members
  | cons {members members' : Array Member} {i : Nat} {m m' : Member} {turn : Turn}
      {script : List (Nat × Turn)} {packets packets' : List Packet} (hm : members[i]? = some m)
      (hturn : m.Takes turn packets m')
      (hrest : Enacts (members.setIfInBounds i m') script packets' members') :
      Enacts members ((i, turn) :: script) (packets ++ packets') members'

namespace Enacts

variable {members members' members'' : Array Member} {script script' : List (Nat × Turn)}
  {packets packets' : List Packet}

/-- One script after another is a script. -/
theorem append (h : Enacts members script packets members')
    (h' : Enacts members' script' packets' members'') :
    Enacts members (script ++ script') (packets ++ packets') members'' := by
  induction h with
  | nil => exact h'
  | cons hm hturn _ ih =>
    rw [List.append_assoc]
    exact .cons hm hturn (ih h')

/-- A script in two parts is enacted one part after the other. -/
theorem of_append (h : Enacts members (script ++ script') packets members'') :
    ∃ front back members', packets = front ++ back ∧ Enacts members script front members' ∧
      Enacts members' script' back members'' := by
  induction script generalizing members packets with
  | nil => exact ⟨[], packets, members, rfl, .nil _, h⟩
  | cons e script ih =>
    cases h with
    | cons hm hturn hrest =>
      obtain ⟨front, back, members', rfl, hfront, hback⟩ := ih hrest
      exact ⟨_, back, members', (List.append_assoc ..).symm, .cons hm hturn hfront, hback⟩

/-- Who takes no turn stays as it is. -/
theorem getElem?_eq (h : Enacts members script packets members') {i : Nat}
    (hi : i ∉ script.map (·.1)) : members'[i]? = members[i]? := by
  induction h with
  | nil => rfl
  | cons hm hturn _ ih =>
    rw [List.map_cons, List.mem_cons, not_or] at hi
    rw [ih hi.2, Array.getElem?_setIfInBounds_ne (Ne.symm hi.1)]

/-- What the members are never changes. -/
theorem record_eq (h : Enacts members script packets members') (i : Nat) :
    (members'[i]?).map (·.thing.record) = (members[i]?).map (·.thing.record) := by
  induction h with
  | nil => rfl
  | @cons members members' j m m' turn script packets packets' hm hturn hrest ih =>
    rw [ih, Array.getElem?_setIfInBounds]
    split
    · next hj =>
      subst hj
      rw [if_pos (Array.getElem?_eq_some_iff.1 hm).1, hm, Option.map_some, Option.map_some,
        hturn.record_eq]
    · rfl

/-- A member there is afterwards was there before. -/
theorem exists_before (h : Enacts members script packets members') {i : Nat} {m' : Member}
    (hm' : members'[i]? = some m') :
    ∃ m, members[i]? = some m ∧ m'.thing.record = m.thing.record := by
  have hrecord := h.record_eq i
  rw [hm', Option.map_some, eq_comm, Option.map_eq_some_iff] at hrecord
  obtain ⟨m, hm, hrecord⟩ := hrecord
  exact ⟨m, hm, hrecord.symm⟩

/-- A member there was before is there afterwards. -/
theorem exists_after (h : Enacts members script packets members') {i : Nat} {m : Member}
    (hm : members[i]? = some m) :
    ∃ m', members'[i]? = some m' ∧ m'.thing.record = m.thing.record := by
  have hrecord := h.record_eq i
  rw [hm, Option.map_some, Option.map_eq_some_iff] at hrecord
  exact hrecord

/-- **After any script the tracks that are there are those of the active members**, if they were
before. -/
theorem isLoaded_eq (h : Enacts members script packets members')
    (hmembers : ∀ m ∈ members, m.thing.isLoaded = m.active) :
    ∀ m ∈ members', m.thing.isLoaded = m.active := by
  induction h with
  | nil => exact hmembers
  | cons hm hturn _ ih =>
    refine ih fun m hmem => ?_
    rcases Array.mem_or_eq_of_mem_setIfInBounds hmem with hmem | rfl
    · exact hmembers m hmem
    · exact hturn.isLoaded_eq (hmembers _ (Array.mem_of_getElem? hm))

/-- Who has taken a turn is active as that turn leaves it, if all turns are of one kind. -/
theorem active_eq {turn : Turn} {is : List Nat}
    (h : Enacts members (is.map fun i => (i, turn)) packets members') {i : Nat} {m m' : Member}
    (hm : members[i]? = some m) (hm' : members'[i]? = some m') :
    m'.active = if i ∈ is then turn.after else m.active := by
  induction is generalizing members packets m with
  | nil =>
    cases h
    obtain rfl := Option.some.inj (hm.symm.trans hm')
    rfl
  | cons j is ih =>
    cases h with
    | @cons _ _ _ n n' _ _ _ _ hj hturn hrest =>
      rw [ih hrest (Member.getElem?_replace hj hm n')]
      by_cases hji : j = i
      · rw [if_pos hji, hji, if_pos List.mem_cons_self, hturn.active_after, ite_self]
      · simp [hji, Ne.symm hji]

/-- Members that only go on do not change. -/
theorem eq_of_goesOn {is : List Nat}
    (h : Enacts members (is.map fun i => (i, .goesOn)) packets members') : members' = members := by
  induction is generalizing members packets with
  | nil =>
    cases h
    rfl
  | cons i is ih =>
    cases h with
    | cons hm hturn hrest =>
      cases hturn
      rw [ih hrest]
      refine Array.ext_getElem? fun j => ?_
      rw [Array.getElem?_setIfInBounds]
      split
      · next hij => rw [← hij, if_pos (Array.getElem?_eq_some_iff.1 hm).1, hm]
      · rfl

end Enacts

/-! ### Entrances and exits -/

/-- The entrances and exits of a member in a script. -/
def entrancesAndExits (script : List (Nat × Turn)) (i : Nat) : List Turn :=
  (script.filter fun e => e.1 = i ∧ e.2 ≠ .goesOn).map (·.2)

/-- Entrances and exits by turns, from a member that is active, or not, to one that is, or not. -/
inductive Alternates : Bool → List Turn → Bool → Prop
  | nil (on : Bool) : Alternates on [] on
  | appears {turns : List Turn} {on : Bool} (h : Alternates true turns on) :
      Alternates false (.appears :: turns) on
  | disappears {turns : List Turn} {on : Bool} (h : Alternates false turns on) :
      Alternates true (.disappears :: turns) on

namespace Alternates

variable {turns : List Turn} {on on' : Bool}

/-- Every entrance is undone by an exit but the last one of a member that is active in the end. -/
theorem count_eq (h : Alternates on turns on') :
    turns.count .appears + (if on then 1 else 0) =
      turns.count .disappears + if on' then 1 else 0 := by
  induction h with
  | nil => simp
  | appears _ ih =>
    rw [List.count_cons_self, List.count_cons_of_ne (by decide)]
    simp at ih ⊢
    omega
  | disappears _ ih =>
    rw [List.count_cons_self, List.count_cons_of_ne (by decide)]
    simp at ih ⊢
    omega

end Alternates

/-- **The entrances and exits of a member alternate**, from the mark it has to the mark it gets. -/
theorem Enacts.alternates {members members' : Array Member} {script : List (Nat × Turn)}
    {packets : List Packet} (h : Enacts members script packets members') {i : Nat} {m m' : Member}
    (hm : members[i]? = some m) (hm' : members'[i]? = some m') :
    Alternates m.active (entrancesAndExits script i) m'.active := by
  induction h generalizing m with
  | nil =>
    obtain rfl := Option.some.inj (hm.symm.trans hm')
    exact .nil _
  | @cons members members' j n n' turn script packets packets' hj hturn hrest ih =>
    have hlater := ih (Member.getElem?_replace hj hm n') hm'
    by_cases hji : j = i
    · subst hji
      obtain rfl := Option.some.inj (hj.symm.trans hm)
      rw [if_pos rfl, hturn.active_after] at hlater
      rw [hturn.active_before]
      cases turn with
      | appears => simpa [entrancesAndExits, Turn.before] using Alternates.appears hlater
      | disappears => simpa [entrancesAndExits, Turn.before] using Alternates.disappears hlater
      | goesOn => simpa [entrancesAndExits, Turn.before, Turn.after] using hlater
    · rw [if_neg hji] at hlater
      simpa [entrancesAndExits, hji] using hlater

/-! ### Steps of a cast that are turns of its members -/

namespace Cast

/-- A step that has members take the turns of a script and leaves the cast valid at a moment, or
at none. -/
structure Performs (cast : Cast) (script : List (Nat × Turn)) (validAt : Option Time)
    (o : Outcome Cast) : Prop where
  enacts : Enacts cast.members script o.emitted o.state.members
  validAt : o.state.validAt = validAt

namespace Performs

variable {cast : Cast} {script script' : List (Nat × Turn)} {v v' : Option Time}
  {o : Outcome Cast}

theorem done (cast : Cast) : cast.Performs [] cast.validAt (.done cast) := ⟨.nil _, rfl⟩

/-- **What is acted out and then acted on is acted out in a row**, if the first part succeeds. -/
theorem andThen (h : cast.Performs script v o) (ho : o.failure = none)
    {next : Cast → Outcome Cast} (hnext : o.state.Performs script' v' (next o.state)) :
    cast.Performs (script ++ script') v' (o.andThen next) := by
  rw [Outcome.andThen_of_ok ho]
  exact ⟨h.enacts.append hnext.enacts, hnext.validAt⟩

/-- To claim that the cast is valid is not a turn. -/
theorem revalidate (h : cast.Performs script v o) (ho : o.failure = none) (t : Time) :
    cast.Performs script (some t)
      (o.andThen fun cast => .done { cast with validAt := some t }) := by
  rw [← List.append_nil script]
  exact h.andThen ho ⟨.nil _, rfl⟩

end Performs

variable {cast : Cast} {i : Nat} {m : Member}

/-- A member fails as its thing does. -/
theorem failure_updateMember (hm : cast.members[i]? = some m) (step : Thing → Outcome Thing)
    (active : Bool) : (cast.updateMember i step active).failure = (step m.thing).failure := by
  rw [updateMember, hm]
  rfl

/-- A step of one member that is one of the turns. -/
theorem performs_updateMember (hm : cast.members[i]? = some m) {step : Thing → Outcome Thing}
    {active : Bool} {turn : Turn} (hstep : (step m.thing).failure = none)
    (hturn : m.Takes turn (step m.thing).emitted ⟨(step m.thing).state, active⟩) :
    cast.Performs [(i, turn)] cast.validAt (cast.updateMember i step active) := by
  have hok : (step m.thing).isOk = true := by rw [Outcome.isOk, hstep]; rfl
  rw [updateMember, hm]
  simp only [hok, if_true]
  refine ⟨?_, rfl⟩
  have henacts := Enacts.cons hm hturn (.nil _)
  rwa [List.append_nil] at henacts

/-- An active member that leaves disappears. -/
theorem performs_leave (cast : Cast) (i : Nat) (m : Member) (hm : cast.members[i]? = some m)
    (hactive : m.active = true) :
    cast.Performs [(i, .disappears)] cast.validAt (leave i cast) :=
  performs_updateMember hm rfl (.disappears hactive)

/-- An idle member that enters appears, if it can be loaded. -/
theorem performs_enter (log : Log) (t : Time) (cast : Cast) (i : Nat) (m : Member)
    (hm : cast.members[i]? = some m) (hidle : m.active = false)
    (hok : (enter log t i cast).failure = none) :
    cast.Performs [(i, .appears)] cast.validAt (enter log t i cast) := by
  rw [enter, failure_updateMember hm] at hok
  refine performs_updateMember hm hok ?_
  obtain ⟨track, shown, hload, hshown, hactivate⟩ := Thing.of_activate hok
  rw [hactivate]
  exact .appears hidle hload hshown

/-- An active member that stays goes on, if it can. -/
theorem performs_stay (direction : Direction) (start target : Time) (cast : Cast) (i : Nat)
    (m : Member) (hm : cast.members[i]? = some m) (hactive : m.active = true)
    (hok : (stay direction start target i cast).failure = none) :
    cast.Performs [(i, .goesOn)] cast.validAt (stay direction start target i cast) := by
  rw [stay, failure_updateMember hm] at hok
  refine performs_updateMember hm hok ?_
  obtain ⟨shown, hshown, hstep⟩ := Thing.of_step hok
  have hsame : Member.mk m.thing true = m := by rw [← hactive]
  rw [hstep, Outcome.emit, hsame]
  exact .goesOn hactive hshown

/-- **Members that take the same turn, one after the other and each once**, enact the script of
those turns. -/
theorem performs_forEach (turn : Turn) {act : Nat → Cast → Outcome Cast}
    (hact : ∀ (cast : Cast) (i : Nat) (m : Member), cast.members[i]? = some m →
      m.active = turn.before → (act i cast).failure = none →
      cast.Performs [(i, turn)] cast.validAt (act i cast))
    {is : List Nat} (hnodup : is.Nodup)
    (his : ∀ i ∈ is, ∃ m, cast.members[i]? = some m ∧ m.active = turn.before)
    (hok : (Outcome.forEach cast act is).failure = none) :
    cast.Performs (is.map fun i => (i, turn)) cast.validAt (Outcome.forEach cast act is) := by
  induction is generalizing cast with
  | nil => exact .done cast
  | cons i is ih =>
    obtain ⟨hi, hrest⟩ := List.nodup_cons.1 hnodup
    obtain ⟨hstep, hok, -⟩ := Outcome.of_andThen hok
    obtain ⟨m, hm, hbefore⟩ := his i List.mem_cons_self
    have hfirst := hact cast i m hm hbefore hstep
    -- those whose turn is still to come have not been touched
    have hlater : ∀ j ∈ is, ∃ m, (act i cast).state.members[j]? = some m ∧
        m.active = turn.before := by
      intro j hj
      have hne : j ∉ [(i, turn)].map (·.1) := by
        rw [List.map_singleton, List.mem_singleton]
        rintro rfl
        exact hi hj
      rw [hfirst.enacts.getElem?_eq hne]
      exact his j (List.mem_cons_of_mem _ hj)
    have hothers := ih hrest hlater hok
    rw [hfirst.validAt] at hothers
    exact hfirst.andThen hstep hothers

end Cast

end Playhead
