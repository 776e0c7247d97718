import Mathlib.Order.Bounds.Basic
import Playhead.Proofs.World.Quiet

/-!
# The client is in the session of the world it is shown

The worlds of a recording are played by calls, any of which may fail: the log may not give what it
should, and the corrective packets may not be restored. Whatever happens, the world that is active
is the one of the last target reached, and the client, which sees the packets of all calls, was last
told the join settings and the dimension of that very world
(`Playhead.WorldSequence.active_in_session`).

The invariant is `Playhead.WorldSequence.InSession`: the headers never change, and *if* a world is
active, it is in play and the client is in its session. A failure on the way into a world leaves
none active, so nothing has to be said of what the client has seen by then. It rests on the worlds
being quiet (`Playhead.World.IsQuiet`), so that only entrances tell the client where it is.
-/

namespace Playhead

/-! ### What the client was last told -/

/-- The settings of the session that a packet joins. -/
def Packet.join? : Packet → Option JoinSettings
  | joinGame settings _ => some settings
  | _ => none

/-- The dimension that a packet brings the client into. -/
def Packet.dimension? : Packet → Option Dimension
  | joinGame _ dimension => some dimension
  | respawn dimension => some dimension
  | _ => none

/-- The settings of the last join. -/
def lastJoin? (heard : List Packet) : Option JoinSettings :=
  (heard.filterMap Packet.join?).getLast?

/-- The last dimension that the client was brought into. -/
def lastDimension? (heard : List Packet) : Option Dimension :=
  (heard.filterMap Packet.dimension?).getLast?

namespace Packet

variable {packet : Packet}

theorem join?_eq_none (h : ¬ packet.IsEntrance) : packet.join? = none := by
  cases packet <;> first | rfl | exact absurd trivial h

theorem dimension?_eq_none (h : ¬ packet.IsEntrance) : packet.dimension? = none := by
  cases packet <;> first | rfl | exact absurd trivial h

end Packet

section Heard

variable {heard packets : List Packet}

/-- The last join is the last of what came last, if there is one. -/
theorem lastJoin?_append (heard packets : List Packet) :
    lastJoin? (heard ++ packets) = (lastJoin? packets).or (lastJoin? heard) := by
  rw [lastJoin?, List.filterMap_append, List.getLast?_append]
  rfl

/-- The last dimension is the last of what came last, if there is one. -/
theorem lastDimension?_append (heard packets : List Packet) :
    lastDimension? (heard ++ packets) = (lastDimension? packets).or (lastDimension? heard) := by
  rw [lastDimension?, List.filterMap_append, List.getLast?_append]
  rfl

/-- Quiet packets do not change the last join. -/
theorem lastJoin?_append_quiet (h : ∀ packet ∈ packets, ¬ packet.IsEntrance) :
    lastJoin? (heard ++ packets) = lastJoin? heard := by
  have hnil : packets.filterMap Packet.join? = [] :=
    List.filterMap_eq_nil_iff.2 fun packet hp => Packet.join?_eq_none (h packet hp)
  rw [lastJoin?_append, lastJoin?, hnil]
  rfl

/-- Quiet packets do not change the last dimension. -/
theorem lastDimension?_append_quiet (h : ∀ packet ∈ packets, ¬ packet.IsEntrance) :
    lastDimension? (heard ++ packets) = lastDimension? heard := by
  have hnil : packets.filterMap Packet.dimension? = [] :=
    List.filterMap_eq_nil_iff.2 fun packet hp => Packet.dimension?_eq_none (h packet hp)
  rw [lastDimension?_append, lastDimension?, hnil]
  rfl

/-- The client was last told the session and the dimension of a world. -/
def Hears (heard : List Packet) (info : WorldInfo) : Prop :=
  lastJoin? heard = some info.join ∧ lastDimension? heard = some info.dimension

theorem Hears.append {info : WorldInfo} (h : Hears heard info)
    (hquiet : ∀ packet ∈ packets, ¬ packet.IsEntrance) : Hears (heard ++ packets) info :=
  ⟨(lastJoin?_append_quiet hquiet).trans h.1, (lastDimension?_append_quiet hquiet).trans h.2⟩

/-- A full join is the last join. -/
theorem lastJoin?_append_join (heard : List Packet) (info : WorldInfo) :
    lastJoin? (heard ++ [info.joinPacket]) = some info.join := by
  rw [lastJoin?_append]
  rfl

/-- A respawn tells the client the dimension; it is in the session already. -/
theorem hears_arrival {info : WorldInfo} (h : lastJoin? heard = some info.join) :
    Hears (heard ++ [info.respawnPacket, Packet.neutralPosition]) info := by
  refine ⟨?_, ?_⟩
  · rw [lastJoin?_append]
    exact h
  · rw [lastDimension?_append]
    rfl

end Heard

/-! ### The worlds of a recording -/

namespace WorldSequence

variable {s : WorldSequence} {key : Time} {world world' : World} {headers : Timeline WorldHeader}
  {heard : List Packet} {log : Log} {target : Time} {restore : Restore}

/-- The headers of the worlds, once they are read. They never change. -/
def headers? (s : WorldSequence) : Option (Timeline WorldHeader) :=
  s.track.loaded.map fun worlds => worlds.map fun _ world => world.header

/-- A world of a sequence is one of its loaded worlds. -/
theorem world_eq_ok_iff :
    s.world key = .ok world ↔ ∃ worlds, s.track.loaded = some worlds ∧
      worlds.get? key = some world := by
  rw [WorldSequence.world, Track.timeline]
  cases s.track.loaded with
  | none => simp [bind, Except.bind]
  | some worlds =>
    simp only [bind, Except.bind, Option.some.injEq, exists_eq_left']
    cases worlds.get? key <;> simp [pure, Except.pure]

/-- A world of a sequence has the header that the sequence has. -/
theorem get?_headers (h : s.headers? = some headers) (hworld : s.world key = .ok world) :
    headers.get? key = some world.header := by
  obtain ⟨worlds, hworlds, hget⟩ := world_eq_ok_iff.1 hworld
  rw [headers?, hworlds] at h
  rw [← Option.some.inj h, SortedMap.get?_map, hget]
  rfl

/-- A header that the sequence has is that of a world. -/
theorem exists_world (h : s.headers? = some headers) {header : WorldHeader}
    (hheader : headers.get? key = some header) :
    ∃ world, s.world key = .ok world ∧ world.header = header := by
  obtain ⟨worlds, hworlds, rfl⟩ := Option.map_eq_some_iff.1 h
  rw [SortedMap.get?_map] at hheader
  obtain ⟨world, hget, hworld⟩ := Option.map_eq_some_iff.1 hheader
  exact ⟨world, world_eq_ok_iff.2 ⟨worlds, hworlds, hget⟩, hworld⟩

/-- A world that has been set is the one that is found. -/
theorem world_setWorld (h : s.world key = .ok world) (world' : World) :
    (s.setWorld key world').world key = .ok world' := by
  obtain ⟨worlds, hworlds, hget⟩ := world_eq_ok_iff.1 h
  refine world_eq_ok_iff.2 ⟨worlds.modify key fun _ => world', ?_, ?_⟩
  · rw [setWorld, hworlds]
    rfl
  · rw [SortedMap.get?_modify, if_pos rfl, hget]
    rfl

/-- Setting a world to one of the same header leaves the headers alone. -/
theorem headers?_setWorld (h : s.world key = .ok world) (hheader : world'.header = world.header) :
    (s.setWorld key world').headers? = s.headers? := by
  obtain ⟨worlds, hworlds, hget⟩ := world_eq_ok_iff.1 h
  rw [headers?, headers?, setWorld, hworlds]
  refine congrArg some (SortedMap.ext_get? fun k => ?_)
  rw [SortedMap.get?_map, SortedMap.get?_map, SortedMap.get?_modify]
  split
  · next hk =>
    rw [hk, hget]
    exact congrArg some hheader
  · rfl

/-- **The client is in the session of the active world**, which is in play and quiet. -/
structure InSession (headers : Timeline WorldHeader) (heard : List Packet) (s : WorldSequence) :
    Prop where
  headers : s.headers? = some headers
  active : ∀ key, s.active = some key →
    ∃ world, s.world key = .ok world ∧ world.IsQuiet ∧ Hears heard world.info

/-- With no world active, nothing has to be known of what the client was told. -/
theorem inSession_idle (h : s.headers? = some headers) (hactive : s.active = none)
    (heard : List Packet) : s.InSession headers heard :=
  ⟨h, fun key hkey => absurd (hactive.symm.trans hkey) (Option.some_ne_none key).symm⟩

/-- Leaving the active world cannot fail. What is left of it is the session the client is in. -/
theorem InSession.leaveActive (h : s.InSession headers heard) :
    ∃ s' previous, s.leaveActive = .ok (s', previous) ∧ s'.headers? = some headers ∧
      s'.active = none ∧ (s.active = none → previous = none) ∧
      ∀ old, previous = some old → lastJoin? heard = some old.join := by
  rw [WorldSequence.leaveActive]
  cases hactive : s.active with
  | none =>
    exact ⟨s, none, rfl, h.headers, hactive, fun _ => rfl, fun _ hold => absurd hold (by simp)⟩
  | some key =>
    obtain ⟨world, hworld, -, hheard⟩ := h.active key hactive
    have hidle : WorldSequence.world { s with active := none } key = .ok world := hworld
    refine ⟨_, some world.info, by simp only [hworld]; rfl, ?_, rfl,
      fun hnone => absurd hnone (by simp), ?_⟩
    · rw [headers?_setWorld hidle (by rfl)]
      exact h.headers
    · rintro _ ⟨⟩
      exact hheard.1

/-- **A client that comes from nowhere joins**, and is in the session of the world that it joins. -/
theorem hears_join (s : WorldSequence) (heard : List Packet) (info : WorldInfo)
    (hrestore : ∀ packet ∈ (restore target).emitted, ¬ packet.IsEntrance) :
    let o := s.entrance none info target restore
    o.state = s ∧ (o.failure = none → Hears (heard ++ o.emitted) info) ∧
      ∃ rest, o.emitted = info.joinPacket :: rest := by
  have hjoined (o : Outcome WorldSequence) (hstate : o.state = s)
      (hemitted : o.emitted = info.joinPacket :: (restore target).emitted) :
      let o' := o.andThen fun s => .emit s [info.respawnPacket, Packet.neutralPosition]
      o'.state = s ∧ (o'.failure = none → Hears (heard ++ o'.emitted) info) ∧
        ∃ rest, o'.emitted = info.joinPacket :: rest := by
    by_cases hfailure : o.failure = none
    · rw [Outcome.andThen_of_ok hfailure, hemitted]
      refine ⟨hstate, fun _ => ?_, _, rfl⟩
      dsimp only [Outcome.emit]
      rw [← List.append_assoc]
      refine hears_arrival ?_
      rw [← List.singleton_append, ← List.append_assoc, lastJoin?_append_quiet hrestore,
        lastJoin?_append_join]
    · rw [Outcome.andThen_of_failed hfailure]
      exact ⟨hstate, fun h => absurd h hfailure, _, hemitted⟩
  exact hjoined _ rfl rfl

/-- **The client is brought into the session of the world it enters.** It joins unless it comes
from a world of the same session. -/
theorem hears_entrance (s : WorldSequence) (info : WorldInfo) {previous : Option WorldInfo}
    (hprevious : ∀ old, previous = some old → lastJoin? heard = some old.join)
    (hrestore : ∀ packet ∈ (restore target).emitted, ¬ packet.IsEntrance) :
    let o := s.entrance previous info target restore
    o.state = s ∧ (o.failure = none → Hears (heard ++ o.emitted) info) ∧
      (previous = none ∨ lastJoin? heard ≠ some info.join →
        ∃ rest, o.emitted = info.joinPacket :: rest) := by
  obtain ⟨hstate, hhears, hjoins⟩ := hears_join s heard info hrestore
  cases previous with
  | none => exact ⟨hstate, hhears, fun _ => hjoins⟩
  | some old =>
    by_cases hsuffices : old.respawnSuffices info
    · have hsame : lastJoin? heard = some info.join := by
        rw [hprevious old rfl, of_decide_eq_true hsuffices]
      dsimp only [entrance]
      rw [if_pos hsuffices]
      refine ⟨rfl, fun _ => hears_arrival hsame, ?_⟩
      rintro (hnone | hother)
      · cases hnone
      · exact absurd hsame hother
    · have hnone : s.entrance (some old) info target restore =
          s.entrance none info target restore := if_neg hsuffices
      rw [hnone]
      exact ⟨hstate, hhears, fun _ => hjoins⟩

/-- What is known of a switch: the headers stay, the world of the target is active if the switch
succeeded and none is if it failed, and a client that was not in the session has joined. -/
structure Switches (headers : Timeline WorldHeader) (heard : List Packet) (goal : Option Time)
    (isFresh : Prop) (o : Outcome WorldSequence) : Prop where
  inSession : o.state.InSession headers (heard ++ o.emitted)
  active : o.failure = none → o.state.active = goal
  idle : o.failure ≠ none → o.state.active = none
  joins : ∀ key header, goal = some key → headers.get? key = some header →
    isFresh ∨ lastJoin? heard ≠ some header.info.join →
      ∃ rest, o.emitted = header.info.joinPacket :: rest

/-- **Entering a world**, from a state in which no world is active. -/
theorem switches_enterWorld {previous : Option WorldInfo} (hheaders : s.headers? = some headers)
    (hactive : s.active = none)
    (hprevious : ∀ old, previous = some old → lastJoin? heard = some old.join)
    {header : WorldHeader} (hheader : headers.get? key = some header)
    (hquiet : header.IsQuietIn log)
    (hrestore : ∀ packet ∈ (restore target).emitted, ¬ packet.IsEntrance) :
    Switches headers heard (some key) (previous = none)
      (s.enterWorld log previous key target restore) := by
  obtain ⟨world, hworld, rfl⟩ := exists_world hheaders hheader
  have hentrance := hears_entrance s world.info hprevious hrestore
  rw [enterWorld, hworld]
  dsimp only
  generalize s.entrance previous world.info target restore = o at hentrance ⊢
  obtain ⟨hstate, hhears, hjoins⟩ := hentrance
  by_cases hfailure : o.failure = none
  · rw [Outcome.andThen_of_ok hfailure, hstate, updateWorld, hworld]
    dsimp only
    obtain ⟨hkept, hloaded, hsilent⟩ := World.keeps_loadAndStep hquiet target
    generalize ((world.load log).andThen fun world => world.step log .forward origin target) = p
      at *
    -- the entrance is complete, and the world is loaded and played up to the target
    have hheaders' : (s.setWorld key p.state).headers? = some headers := by
      rw [headers?_setWorld hworld hkept, hheaders]
    have hjoins' : ∀ k header, some key = some k → headers.get? k = some header →
        previous = none ∨ lastJoin? heard ≠ some header.info.join →
          ∃ rest, o.emitted ++ p.emitted = header.info.joinPacket :: rest := by
      rintro _ _ ⟨⟩ hget hfresh
      obtain rfl := Option.some.inj (hheader.symm.trans hget)
      obtain ⟨rest, hrest⟩ := hjoins hfresh
      exact ⟨rest ++ p.emitted, by rw [hrest]; rfl⟩
    have hinfo : p.state.info = world.info := congrArg (·.info) hkept
    generalize hplayed : Outcome.mk (p.map (s.setWorld key)).state
      (o.emitted ++ (p.map (s.setWorld key)).emitted) (p.map (s.setWorld key)).failure = o'
    by_cases hp : o'.failure = none
    · rw [Outcome.andThen_of_ok hp]
      subst hplayed
      dsimp only [Outcome.map, Outcome.done]
      rw [List.append_nil]
      refine ⟨⟨hheaders', ?_⟩, fun _ => rfl, fun h => absurd rfl h, hjoins'⟩
      rintro _ ⟨⟩
      refine ⟨p.state, world_setWorld hworld _, hloaded hp, ?_⟩
      rw [← List.append_assoc]
      exact hinfo ▸ (hhears hfailure).append hsilent
    · -- the world could not be played, so it is not made active
      rw [Outcome.andThen_of_failed hp]
      subst hplayed
      exact ⟨inSession_idle hheaders' hactive _, fun h => absurd h hp, fun _ => hactive, hjoins'⟩
  · -- the entrance could not be shown, so nothing else was done
    rw [Outcome.andThen_of_failed hfailure, Outcome.andThen_of_failed hfailure]
    refine ⟨inSession_idle ?_ ?_ _, fun h => absurd h hfailure, fun _ => ?_, ?_⟩
    · rwa [hstate]
    · rwa [hstate]
    · rwa [hstate]
    · rintro _ _ ⟨⟩ hget
      obtain rfl := Option.some.inj (hheader.symm.trans hget)
      exact hjoins

/-- **A switch** leaves the client in the session of the world of the target, or in none. -/
theorem InSession.switch (h : s.InSession headers heard) {goal : Option Time}
    (hgoal : ∀ key, goal = some key → ∃ header, headers.get? key = some header ∧
      header.IsQuietIn log)
    (hrestore : ∀ packet ∈ (restore target).emitted, ¬ packet.IsEntrance) :
    Switches headers heard goal (s.active = none) (s.switch log goal target restore) := by
  obtain ⟨s', previous, hleave, hheaders, hactive, hfresh, hprevious⟩ := h.leaveActive
  rw [WorldSequence.switch, hleave]
  cases goal with
  | none =>
    exact ⟨inSession_idle hheaders hactive _, fun _ => hactive, fun _ => hactive,
      fun _ _ hgoal => absurd hgoal (by simp)⟩
  | some key =>
    obtain ⟨header, hheader, hquiet⟩ := hgoal key rfl
    have henter := switches_enterWorld hheaders hactive hprevious hheader hquiet hrestore
    exact { henter with
      joins := fun key header hkey hget hcase => henter.joins key header hkey hget
        (hcase.imp_left hfresh) }

/-! ### Runs -/

/-- What a call of the playback is given. Every call reads a log of its own, so any may fail. -/
structure Call where
  direction : Direction
  start : Time
  target : Time
  log : Log
  restore : Restore

/-- The step of a call. -/
def act (s : WorldSequence) (call : Call) : Outcome WorldSequence :=
  s.step call.log call.direction call.start call.target call.restore

/-- What is left after calls, and all that the client has been sent by then. No call is kept from
happening by the failure of another one. -/
def run (s : WorldSequence) (calls : List Call) : WorldSequence × List Packet :=
  calls.foldl (fun (s, heard) call => ((s.act call).state, heard ++ (s.act call).emitted)) (s, [])

/-- What the call is given of the worlds and of the corrective packets neither joins nor
respawns. -/
def Call.IsQuiet (call : Call) (worlds : Timeline World) : Prop :=
  (∀ e ∈ worlds.entries, e.2.header.IsQuietIn call.log) ∧
    ∀ packet ∈ (call.restore call.target).emitted, ¬ packet.IsEntrance

instance (call : Call) (worlds : Timeline World) : Decidable (call.IsQuiet worlds) :=
  inferInstanceAs (Decidable (_ ∧ _))

/-- **What a call does to a client that is in the session of the active world.** -/
theorem InSession.act (h : s.InSession headers heard) {call : Call}
    (hquiet : ∀ e ∈ headers.entries, e.2.IsQuietIn call.log)
    (hrestore : ∀ packet ∈ (call.restore call.target).emitted, ¬ packet.IsEntrance) :
    (s.act call).state.InSession headers (heard ++ (s.act call).emitted) ∧
      ((s.act call).failure = none → (s.act call).state.active = headers.floorKey? call.target) ∧
      ((∀ key, s.active = some key → headers.floorKey? call.target ≠ some key) →
        Switches headers heard (headers.floorKey? call.target) (s.active = none) (s.act call)) := by
  obtain ⟨worlds, hworlds, rfl⟩ := Option.map_eq_some_iff.1 h.headers
  have htimeline : s.track.timeline = .ok worlds := by rw [Track.timeline, hworlds]
  have hgoal : ∀ key, worlds.floorKey? call.target = some key →
      ∃ header, (worlds.map fun _ world => world.header).get? key = some header ∧
        header.IsQuietIn call.log := by
    intro key hkey
    rw [← Timeline.floorKey?_map worlds fun _ world => world.header] at hkey
    obtain ⟨header, hfloor⟩ := Timeline.floorKey?_eq_some_iff.1 hkey
    have hmem := (Timeline.floor?_eq_some_iff.1 hfloor).1
    exact ⟨header, SortedMap.get?_eq_some_iff.2 hmem, hquiet _ hmem⟩
  have hswitch := h.switch hgoal hrestore
  rw [WorldSequence.act, step, htimeline, Timeline.floorKey?_map]
  dsimp only
  cases hfloor : worlds.floorKey? call.target with
  | none =>
    rw [hfloor] at hswitch
    exact ⟨hswitch.inSession, hswitch.active, fun _ => hswitch⟩
  | some key =>
    rw [hfloor] at hswitch
    dsimp only
    split
    · next hactive =>
      -- the target lies in the active world, which stays active
      obtain ⟨world, hworld, hworldQuiet, hheard⟩ := h.active key hactive
      have hstep : World.QuietAs world.header world := ⟨rfl, hworldQuiet⟩
      obtain ⟨hstate, hemitted⟩ := hstep.step call.log call.direction call.start call.target
      rw [updateWorld, hworld]
      refine ⟨⟨(headers?_setWorld hworld hstate.header).trans h.headers, fun k hk => ?_⟩,
        fun _ => hactive, fun hother => absurd rfl (hother key hactive)⟩
      obtain rfl := Option.some.inj (hactive.symm.trans hk)
      refine ⟨_, world_setWorld hworld _, hstate.quiet, ?_⟩
      have hinfo : (world.step call.log call.direction call.start call.target).state.info =
          world.info := congrArg (·.info) hstate.header
      exact hinfo ▸ hheard.append hemitted
    · exact ⟨hswitch.inSession, hswitch.active, fun _ => hswitch⟩

/-- **After any calls** the client is in the session of the active world. -/
theorem InSession.run (h : s.InSession headers []) {calls : List Call}
    (hquiet : ∀ call ∈ calls, (∀ e ∈ headers.entries, e.2.IsQuietIn call.log) ∧
      ∀ packet ∈ (call.restore call.target).emitted, ¬ packet.IsEntrance) :
    (s.run calls).1.InSession headers (s.run calls).2 := by
  have hrun : let r := s.run calls; r.1.InSession headers r.2 :=
    List.foldlRecOn (motive := fun r : WorldSequence × List Packet => r.1.InSession headers r.2)
      calls _ h fun _ h' call hcall => (h'.act (hquiet call hcall).1 (hquiet call hcall).2).1
  exact hrun

/-- The keys of the worlds that begin by a moment. -/
def begunBy (worlds : Timeline World) (t : Time) : Set Time := {key | key ∈ worlds.keys ∧ key ≤ t}

/-- **The floor is the greatest of the starts up to a moment.** -/
theorem floorKey?_eq_some_iff_isGreatest {worlds : Timeline World} {t key : Time} :
    worlds.floorKey? t = some key ↔ IsGreatest (begunBy worlds t) key := by
  rw [Timeline.floorKey?_eq_some_iff]
  constructor
  · rintro ⟨world, hfloor⟩
    obtain ⟨hmem, hle, hmax⟩ := Timeline.floor?_eq_some_iff.1 hfloor
    refine ⟨⟨List.mem_map_of_mem hmem, hle⟩, ?_⟩
    rintro key' ⟨hkey', hle'⟩
    obtain ⟨e, he, rfl⟩ := List.mem_map.1 hkey'
    exact hmax e he hle'
  · rintro ⟨⟨hkey, hle⟩, hmax⟩
    obtain ⟨⟨_, world⟩, he, rfl⟩ := List.mem_map.1 hkey
    exact ⟨world, Timeline.floor?_eq_some_iff.2
      ⟨he, hle, fun e' he' hle' => hmax ⟨List.mem_map_of_mem he', hle'⟩⟩⟩

/-- There is no floor just where no world has begun. -/
theorem floorKey?_eq_none_iff {worlds : Timeline World} {t : Time} :
    worlds.floorKey? t = none ↔ begunBy worlds t = ∅ := by
  rw [Timeline.floorKey?, Option.map_eq_none_iff, Timeline.floor?_eq_none_iff,
    Set.eq_empty_iff_forall_notMem]
  constructor
  · rintro h key ⟨hkey, hle⟩
    obtain ⟨e, he, rfl⟩ := List.mem_map.1 hkey
    exact absurd (h e he) (Int.not_lt.2 hle)
  · exact fun h e he => Int.not_le.1 fun hle => h e.1 ⟨List.mem_map_of_mem he, hle⟩

/-- **The client is always in the session of the world it is shown.** After any calls, of which any
may have failed, one more call, if it succeeds, leaves the world of its target active, the one with
the greatest key that is not later; none if there is none. Whether or not it succeeds, the client
was last told the session and the dimension of the world that is active. A failed switch leaves no
world active, and a world is entered through a join if none was active or the client was in another
session. -/
theorem active_in_session {s₀ : WorldSequence} {log₀ : Log} {worlds : Timeline World}
    (hload : s₀.load log₀ = .done s) (hworlds : s.track.loaded = some worlds) (calls : List Call)
    (call : Call) (hquiet : ∀ c ∈ calls ++ [call], c.IsQuiet worlds) :
    let before := (s.run calls).1
    let heard := (s.run calls).2
    let o := before.act call
    (∀ key, o.state.active = some key → ∃ world, worlds.get? key = some world ∧
      lastJoin? (heard ++ o.emitted) = some world.info.join ∧
      lastDimension? (heard ++ o.emitted) = some world.info.dimension) ∧
    (o.isOk → (o.state.active = none ↔ begunBy worlds call.target = ∅) ∧
      ∀ key, o.state.active = some key → IsGreatest (begunBy worlds call.target) key) ∧
    ((∀ key, before.active = some key → ¬ IsGreatest (begunBy worlds call.target) key) →
      (¬ o.isOk → o.state.active = none) ∧
      ∀ key world, IsGreatest (begunBy worlds call.target) key → worlds.get? key = some world →
        before.active = none ∨ lastJoin? heard ≠ some world.info.join →
          ∃ rest, o.emitted = world.info.joinPacket :: rest) := by
  -- no world is active after loading
  have hidle : s.active = none := by
    obtain ⟨_, -, hidle⟩ := Outcome.andThen_eq_done_iff.1 hload
    rw [← Outcome.done_inj.1 hidle]
  have hheaders : s.headers? = some (worlds.map fun _ world => world.header) := by
    rw [headers?, hworlds]
    rfl
  have hquietHeaders (c : Call) (hc : c.IsQuiet worlds) :
      ∀ e ∈ SortedMap.entries (worlds.map fun _ world => world.header), e.2.IsQuietIn c.log := by
    intro e he
    obtain ⟨e', he', rfl⟩ := List.mem_map.1 he
    exact hc.1 e' he'
  have hcalls : ∀ c ∈ calls, c.IsQuiet worlds := fun c hc => hquiet c (List.mem_append_left _ hc)
  have hcall : call.IsQuiet worlds := hquiet call (List.mem_append_right _ List.mem_cons_self)
  have hrun := (inSession_idle hheaders hidle []).run fun c hc =>
    ⟨hquietHeaders c (hcalls c hc), (hcalls c hc).2⟩
  obtain ⟨hin, hactive, hswitches⟩ := hrun.act (hquietHeaders call hcall) hcall.2
  rw [Timeline.floorKey?_map] at hactive hswitches
  refine ⟨fun key hkey => ?_, fun hok => ?_, fun hleft => ?_⟩
  · -- the world that is active is found among the loaded ones by its key
    obtain ⟨world, hworld, -, hheard⟩ := hin.active key hkey
    have hget := get?_headers hin.headers hworld
    rw [SortedMap.get?_map] at hget
    obtain ⟨first, hfirst, hsame⟩ := Option.map_eq_some_iff.1 hget
    have hinfo : first.info = world.info := congrArg (·.info) hsame
    exact ⟨first, hfirst, hinfo ▸ hheard⟩
  · rw [hactive (Option.isNone_iff_eq_none.1 hok)]
    exact ⟨floorKey?_eq_none_iff, fun key => floorKey?_eq_some_iff_isGreatest.1⟩
  · have hswitch := hswitches fun key hkey hfloor =>
      hleft key hkey (floorKey?_eq_some_iff_isGreatest.1 hfloor)
    refine ⟨fun hfailed => hswitch.idle fun h => hfailed (Option.isNone_iff_eq_none.2 h), ?_⟩
    intro key world hgreatest hget hfresh
    refine hswitch.joins key world.header (floorKey?_eq_some_iff_isGreatest.2 hgreatest) ?_ hfresh
    rw [SortedMap.get?_map, hget]
    rfl

/-- Three worlds, two of them in one session, written to a log: where they are, and the log. -/
def tour : Handle × Log :=
  let first : JoinSettings := ⟨1, false, 20, 8, []⟩
  let second : JoinSettings := ⟨2, false, 20, 8, []⟩
  let written : Except Unfinished (Handle × Log) := do
    let (overworld, log) ← (WorldDraft.ofInfo ⟨first, ⟨"overworld", 0, 0, false, -64⟩⟩).commit
      (.inMemory none)
    let (nether, log) ← (WorldDraft.ofInfo ⟨first, ⟨"nether", 0, 0, false, 0⟩⟩).commit log
    let (other, log) ← (WorldDraft.ofInfo ⟨second, ⟨"overworld", 0, 0, false, -64⟩⟩).commit log
    let worlds : Timeline World :=
      .ofList [(0, .ofHeader overworld), (5, .ofHeader nether), (9, .ofHeader other)]
    (log.commitTimeline World.codec worlds).mapError fun failure => ⟨failure, log⟩
  written.toOption.getD (0, .inMemory none)

/-- The worlds of the tour, read from the log. -/
def tourWorlds : WorldSequence := ((atHandle tour.1).load tour.2).state

/-- A call on the tour. -/
def tourCall (log : Log) (target : Time) : Call :=
  ⟨.forward, origin, target, log, fun _ => .done ()⟩

/-- Into the first world, and then towards the second one with a log that is empty. -/
def tourLost : WorldSequence × List Packet :=
  tourWorlds.run [tourCall tour.2 3, tourCall (.inMemory none) 7]

/-- The client that got lost on the way to the second world is still in the session of the first one
and has seen the second one's dimension. When it comes back it joins. -/
theorem active_in_session_tour : ∃ worlds, tourWorlds.track.loaded = some worlds ∧
    let o := tourLost.1.act (tourCall tour.2 4)
    tourLost.1.active = none ∧ o.isOk ∧ ∃ key world, o.state.active = some key ∧
      IsGreatest (begunBy worlds 4) key ∧ worlds.get? key = some world ∧
      lastJoin? tourLost.2 = some world.info.join ∧
      lastDimension? tourLost.2 ≠ some world.info.dimension ∧
      (∃ rest, o.emitted = world.info.joinPacket :: rest) ∧
      lastDimension? (tourLost.2 ++ o.emitted) = some world.info.dimension := by
  have hload : (atHandle tour.1).load tour.2 = .done tourWorlds :=
    Outcome.eq_done (by decide +kernel) (by decide +kernel)
  have hsome : tourWorlds.track.loaded.isSome := by decide +kernel
  have hquiet : ∀ c ∈ [tourCall tour.2 3, tourCall (.inMemory none) 7] ++ [tourCall tour.2 4],
      c.IsQuiet (tourWorlds.track.loaded.get hsome) := by
    decide +kernel +revert
  have hworlds := (Option.some_get hsome).symm
  obtain ⟨hsession, hreached, hleft⟩ := active_in_session hload hworlds _ _ hquiet
  have hidle : tourLost.1.active = none := by decide +kernel
  have hok : (tourLost.1.act (tourCall tour.2 4)).isOk = true := by decide +kernel
  have hactive : (tourLost.1.act (tourCall tour.2 4)).state.active = some 0 := by decide +kernel
  obtain ⟨world, hget, hjoin, hdimension⟩ := hsession 0 hactive
  have hgreatest := (hreached hok).2 0 hactive
  have hjoins := (hleft fun key hkey => absurd (hidle.symm.trans hkey) nofun).2 0 world
    hgreatest hget (.inl hidle)
  have hsame : lastJoin? tourLost.2 =
      lastJoin? (tourLost.2 ++ (tourLost.1.act (tourCall tour.2 4)).emitted) := by
    decide +kernel
  have hother : lastDimension? tourLost.2 ≠
      lastDimension? (tourLost.2 ++ (tourLost.1.act (tourCall tour.2 4)).emitted) := by
    decide +kernel
  exact ⟨_, hworlds, hidle, hok, 0, world, hactive, hgreatest, hget, hsame.trans hjoin,
    fun h => hother (h.trans hdimension.symm), hjoins, hdimension⟩

end WorldSequence

end Playhead
