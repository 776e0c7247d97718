import Playhead.Proofs.World.Chapter
import Playhead.Replay

/-!
# Indexes in the log, and where a seeker can be

A **volume** is what an index holds in all: the corrections and the chapters. When the log holds a
volume under a root (`Playhead.Volume.StoredIn`), a seeker opens on it, and no seek to a moment that
is not negative fails. The seekers that can be reached are few: one for each moment, and the one
that has not been anywhere (`Playhead.Volume.seekerAt`). Of the worlds only that of the moment is
loaded.

`Playhead.Volume.seek_seekerAt` says what a seek shows: the corrections, and then either a step of
the world that the client is in, or the entrance to another one and that world from its beginning
(`Playhead.Volume.Shows`).
-/

namespace Playhead

open Wire (Codec)

/-- The world of a chapter: in play with its cast taken to a moment, or not loaded. -/
def Chapter.world (chapter : Chapter) : Option (Option Time) → World
  | none => .ofHeader chapter.header
  | some moment => chapter.worldAt moment

/-- An index as it was recorded. -/
structure Volume where
  correctionsAt : Handle
  worldsAt : Handle
  corrections : Timeline (List Packet)
  chapters : Timeline Chapter

namespace Volume

/-- Whether a log holds a volume under a root. -/
structure StoredIn (volume : Volume) (log : Log) (root : Handle) : Prop where
  root : log.Holds rootCodec root (volume.correctionsAt, volume.worldsAt)
  corrections : log.Holds (Timeline.codec (Stored.packets log.compression)) volume.correctionsAt
    volume.corrections
  worlds : log.Holds (Timeline.codec World.codec) volume.worldsAt
    (volume.chapters.map fun _ chapter => .ofHeader chapter.header)
  chapters : ∀ e ∈ volume.chapters.entries, e.2.StoredIn log

/-! ### The worlds in play -/

/-- The worlds, some of which are loaded, and the active one. -/
def sequence (volume : Volume) (state : Time → Option (Option Time)) (active : Option Time) :
    WorldSequence :=
  ⟨⟨volume.worldsAt, some (volume.chapters.map fun key chapter => chapter.world (state key))⟩,
    active⟩

variable {volume : Volume} {log : Log} {root : Handle}
  {state : Time → Option (Option Time)} {active : Option Time} {key : Time} {chapter : Chapter}

/-- A world of a sequence is that of its chapter. -/
theorem world_sequence (h : volume.chapters.get? key = some chapter) :
    (volume.sequence state active).world key = .ok (chapter.world (state key)) := by
  have hget : (volume.chapters.map fun key chapter => chapter.world (state key)).get? key =
      some (chapter.world (state key)) := by
    rw [SortedMap.get?_map, h]
    rfl
  simp only [WorldSequence.world, sequence, Track.timeline, bind, Except.bind, hget]
  rfl

/-- Setting a world of a sequence sets the moment of its chapter. -/
theorem setWorld_sequence (h : volume.chapters.get? key = some chapter)
    (moment : Option (Option Time)) :
    (volume.sequence state active).setWorld key (chapter.world moment) =
      volume.sequence (Function.update state key moment) active := by
  refine congrArg (fun line => WorldSequence.mk ⟨volume.worldsAt, some line⟩ active)
    (SortedMap.ext_get? fun k => ?_)
  rw [SortedMap.get?_modify, SortedMap.get?_map, SortedMap.get?_map, SortedMap.get?_map]
  by_cases hk : k = key
  · subst hk
    rw [if_pos rfl, h, Function.update_self]
    rfl
  · rw [if_neg hk, Function.update_of_ne hk]

/-- A step of one world is a step of the sequence. -/
theorem updateWorld_sequence (h : volume.chapters.get? key = some chapter)
    {step : World → Outcome World} {moment : Option (Option Time)} {packets : List Packet}
    (hstep : step (chapter.world (state key)) = .emit (chapter.world moment) packets) :
    (volume.sequence state active).updateWorld key step =
      .emit (volume.sequence (Function.update state key moment) active) packets := by
  rw [WorldSequence.updateWorld, world_sequence h]
  simp only [hstep, Outcome.emit_map, setWorld_sequence h]

/-! ### Where a seeker can be -/

/-- The key of the world of a moment. -/
def keyAt (volume : Volume) (moment : Option Time) : Option Time :=
  moment.bind volume.chapters.floorKey?

/-- The worlds when the client shows a moment: that of the moment is loaded. -/
def stateAt (volume : Volume) (moment : Option Time) (key : Time) : Option (Option Time) :=
  if volume.keyAt moment = some key then some moment else none

/-- The worlds when the client shows a moment. -/
def sequenceAt (volume : Volume) (moment : Option Time) : WorldSequence :=
  volume.sequence (volume.stateAt moment) (volume.keyAt moment)

/-- The replay when the client shows a moment. -/
def replayAt (volume : Volume) (moment : Option Time) : Replay :=
  ⟨⟨volume.correctionsAt, some volume.corrections⟩, volume.sequenceAt moment⟩

/-- The seeker whose client shows a moment. -/
def seekerAt (volume : Volume) (moment : Option Time) : Seeker :=
  ⟨volume.replayAt moment, moment, false⟩

/-- Opening a stored volume gives the seeker that has not been anywhere. -/
theorem openAt_eq (h : volume.StoredIn log root) :
    Seeker.openAt log root = .ok (volume.seekerAt none) := by
  obtain ⟨hsince, rest, hrest⟩ := h.root.read
  have hcorrections : (Track.atHandle volume.correctionsAt).load (Stored.packets log.compression)
      log = .done ⟨volume.correctionsAt, some volume.corrections⟩ := h.corrections.load_track none
  have hworlds : (Track.atHandle volume.worldsAt).load World.codec log = .done
      ⟨volume.worldsAt, some (volume.chapters.map fun _ chapter => .ofHeader chapter.header)⟩ :=
    h.worlds.load_track none
  simp only [Seeker.openAt, Replay.load, hsince, Wire.Codec.mapError_ok, bind, Except.bind, hrest,
    hcorrections, Outcome.done_result, WorldSequence.load, WorldSequence.atHandle, hworlds,
    Outcome.done_map, Outcome.done_andThen, pure, Except.pure]
  rfl

/-! ### What a seek shows -/

/-- The packets that bring the client into a world. -/
def entrance (volume : Volume) (previous : Option WorldInfo) (info : WorldInfo) (target : Time) :
    List Packet :=
  if previous.any (·.respawnSuffices info) then [info.respawnPacket, .neutralPosition]
  else info.joinPacket ::
    (volume.corrections.shown correctionDiscipline .forward origin target ++
      [info.respawnPacket, .neutralPosition])

/-- The info of the world that the client is in. -/
def infoAt (volume : Volume) (moment : Option Time) : Option WorldInfo :=
  (moment.bind volume.chapters.floor?).map (·.2.header.info)

/-- What a step shows of the worlds: a step of the world that the client is in, or nothing any
more, or another world, entered and played from its beginning. -/
inductive Shows (volume : Volume) (moment : Option Time) (direction : Direction)
    (start target : Time) : List Packet → Prop
  | stay {key : Time} {chapter : Chapter} {things : List Packet}
      (floor : volume.chapters.floor? target = some (key, chapter))
      (same : volume.keyAt moment = some key)
      (strides : chapter.roster.Strides moment direction start target things) :
      Shows volume moment direction start target
        (things ++ chapter.channelsShown direction start target)
  | leave (floor : volume.chapters.floor? target = none) :
      Shows volume moment direction start target []
  | enter {key : Time} {chapter : Chapter} {things : List Packet}
      (floor : volume.chapters.floor? target = some (key, chapter))
      (other : volume.keyAt moment ≠ some key)
      (strides : chapter.roster.Strides none .forward origin target things) :
      Shows volume moment direction start target
        (volume.entrance (volume.infoAt moment) chapter.header.info target ++
          (things ++ chapter.channelsShown .forward origin target))

theorem get?_of_floor? {t : Time} (h : volume.chapters.floor? t = some (key, chapter)) :
    volume.chapters.get? key = some chapter :=
  SortedMap.get?_eq_some_iff.2 (Timeline.floor?_eq_some_iff.1 h).1

/-- The world at a time begins with the chapter at that time. -/
theorem keyAt_some {t : Time} (h : volume.chapters.floor? t = some (key, chapter)) :
    volume.keyAt (some t) = some key := by
  rw [keyAt, Option.bind_some, Timeline.floorKey?, h]
  rfl

/-- The active world is left. -/
theorem leaveActive_sequenceAt (moment : Option Time) :
    (volume.sequenceAt moment).leaveActive =
      .ok (volume.sequence (fun _ => none) none, volume.infoAt moment) := by
  cases hkey : volume.keyAt moment with
  | none =>
    have hstate : volume.stateAt moment = fun _ => none := by
      funext key
      rw [stateAt, hkey, if_neg (by simp)]
    have hinfo : volume.infoAt moment = none := by
      cases moment with
      | none => rfl
      | some t =>
        rw [keyAt, Option.bind_some, Timeline.floorKey?, Option.map_eq_none_iff] at hkey
        rw [infoAt, Option.bind_some, hkey]
        rfl
    rw [sequenceAt, hkey, hstate, hinfo]
    rfl
  | some key =>
    obtain ⟨t, rfl, hfloor⟩ := Option.bind_eq_some_iff.1 hkey
    obtain ⟨chapter, hfloor⟩ := Timeline.floorKey?_eq_some_iff.1 hfloor
    have hget := get?_of_floor? hfloor
    have hstate : volume.stateAt (some t) key = some (some t) := by rw [stateAt, hkey, if_pos rfl]
    have hworld : (volume.sequenceAt (some t)).world key = .ok (chapter.worldAt (some t)) := by
      rw [sequenceAt, world_sequence hget, hstate]
      rfl
    have hnone : Function.update (volume.stateAt (some t)) key none = fun _ => none := by
      funext k
      by_cases hk : k = key
      · rw [hk, Function.update_self]
      · rw [Function.update_of_ne hk, stateAt, hkey, if_neg fun h => hk (Option.some.inj h).symm]
    have hactive : (volume.sequenceAt (some t)).active = some key := hkey
    have hset : ({ volume.sequenceAt (some t) with active := none } : WorldSequence).setWorld key
        (chapter.worldAt (some t)).unload = volume.sequence (fun _ => none) none := by
      rw [Chapter.unload_worldAt, ← hnone]
      exact setWorld_sequence hget none
    simp only [WorldSequence.leaveActive, hactive, hworld, bind, Except.bind, hset, pure,
      Except.pure]
    rw [infoAt, Option.bind_some, hfloor]
    rfl

/-- A restorer that shows the corrections in effect, as they are shown when nothing was. -/
theorem restore_replayAt (moment : Option Time) (target : Time) :
    (volume.replayAt moment).restore target =
      .emit () (volume.corrections.shown correctionDiscipline .forward origin target) := by
  have hplay : (volume.replayAt moment).corrections.play correctionDiscipline origin target =
      .ok (volume.corrections.shown correctionDiscipline .forward origin target) :=
    Track.step_loaded volume.correctionsAt volume.corrections correctionDiscipline .forward origin
      target
  rw [Replay.restore, hplay]
  rfl

/-- An entrance shows what the chapters say, and leaves the sequence alone. -/
theorem entrance_eq (s : WorldSequence) (previous : Option WorldInfo) (info : WorldInfo)
    (target : Time) (moment : Option Time) :
    s.entrance previous info target (volume.replayAt moment).restore =
      .emit s (volume.entrance previous info target) := by
  have hrejoin : ((Outcome.emit s [info.joinPacket]).andThen fun s =>
      ((volume.replayAt moment).restore target).map fun _ => s).andThen (fun s =>
        .emit s [info.respawnPacket, Packet.neutralPosition]) =
      .emit s (info.joinPacket ::
        (volume.corrections.shown correctionDiscipline .forward origin target ++
          [info.respawnPacket, .neutralPosition])) := by
    simp only [restore_replayAt, Outcome.emit, Outcome.map, Outcome.andThen, List.cons_append,
      List.nil_append]
  cases previous with
  | none =>
    rw [entrance, Option.any_none, if_neg (by simp)]
    exact hrejoin
  | some old =>
    rw [entrance, Option.any_some]
    by_cases h : old.respawnSuffices info = true
    · rw [if_pos h]
      simp only [WorldSequence.entrance, if_pos h]
    · rw [if_neg h, ← hrejoin]
      simp only [WorldSequence.entrance, if_neg h]

/-- If no other world has been stepped, a step of the world of the target is all there is to do. -/
theorem update_eq_stateAt {target : Time}
    (hfloor : volume.chapters.floor? target = some (key, chapter))
    {state : Time → Option (Option Time)} (hother : ∀ k, k ≠ key → state k = none) :
    Function.update state key (some (some target)) = volume.stateAt (some target) := by
  funext k
  rw [stateAt, keyAt_some hfloor]
  by_cases hk : k = key
  · rw [hk, Function.update_self, if_pos rfl]
  · rw [Function.update_of_ne hk, hother k hk, if_neg fun h => hk (Option.some.inj h).symm]

/-- Another world is entered. -/
theorem enterWorld_eq (h : volume.StoredIn log root) {target : Time} (htarget : 0 ≤ target)
    (hfloor : volume.chapters.floor? target = some (key, chapter)) (previous : Option WorldInfo)
    (moment : Option Time) :
    ∃ things, (volume.sequence (fun _ => none) none).enterWorld log previous key target
        (volume.replayAt moment).restore =
      .emit (volume.sequenceAt (some target))
        (volume.entrance previous chapter.header.info target ++
          (things ++ chapter.channelsShown .forward origin target)) ∧
      chapter.roster.Strides none .forward origin target things := by
  have hget := get?_of_floor? hfloor
  have hstored := h.chapters _ (SortedMap.get?_eq_some_iff.1 hget)
  have hlead : Direction.forward.leads origin target = true := by
    rw [Direction.leads_forward, origin]
    lia
  obtain ⟨things, hstep, hshows⟩ := Chapter.step_worldAt hstored none hlead
  refine ⟨things, ?_, hshows⟩
  -- the world is loaded and played from the origin
  have hplay : ((volume.sequence (fun _ => none) none).updateWorld key fun world =>
      (world.load log).andThen fun world => world.step log .forward origin target) =
      .emit (volume.sequence (Function.update (fun _ => none) key (some (some target))) none)
        (things ++ chapter.channelsShown .forward origin target) := by
    refine updateWorld_sequence hget ?_
    show ((World.ofHeader chapter.header).load log).andThen _ = _
    rw [Chapter.load_ofHeader hstored, Outcome.done_eq_emit]
    exact Outcome.emit_andThen_emit hstep
  have hstate : Function.update (fun _ => none) key (some (some target)) =
      volume.stateAt (some target) := update_eq_stateAt hfloor fun _ _ => rfl
  rw [WorldSequence.enterWorld, world_sequence hget]
  show ((WorldSequence.entrance _ previous chapter.header.info target _).andThen _).andThen _ = _
  rw [entrance_eq, Outcome.emit_andThen_emit hplay, hstate, sequenceAt, keyAt_some hfloor,
    Outcome.emit_andThen]
  simp only [Outcome.done, Outcome.emit, List.append_nil]
  rfl

/-- **A step of the worlds takes them to the target**, wherever the client was before. -/
theorem step_sequenceAt (h : volume.StoredIn log root) (moment : Option Time)
    {direction : Direction} {start target : Time} (htarget : 0 ≤ target)
    (hlead : direction.leads start target) :
    ∃ packets, (volume.sequenceAt moment).step log direction start target
        (volume.replayAt moment).restore = .emit (volume.sequenceAt (some target)) packets ∧
      volume.Shows moment direction start target packets := by
  have htimeline : (volume.sequenceAt moment).track.timeline = .ok
      (volume.chapters.map fun key chapter => chapter.world (volume.stateAt moment key)) := rfl
  have hactive : (volume.sequenceAt moment).active = volume.keyAt moment := rfl
  rw [WorldSequence.step, htimeline]
  simp only [Timeline.floorKey?_map, hactive]
  cases hfloor : volume.chapters.floor? target with
  | none =>
    -- nothing has begun by the target, so the active world is left and none is entered
    have hkey : volume.keyAt (some target) = none := by
      rw [keyAt, Option.bind_some, Timeline.floorKey?, hfloor]
      rfl
    have hstate : volume.stateAt (some target) = fun _ => none := by
      funext k
      rw [stateAt, hkey, if_neg (by simp)]
    refine ⟨[], ?_, .leave hfloor⟩
    rw [Timeline.floorKey?, hfloor]
    simp only [Option.map_none, WorldSequence.switch, leaveActive_sequenceAt]
    rw [sequenceAt, hkey, hstate]
    rfl
  | some e =>
    obtain ⟨key, chapter⟩ := e
    have hkey : volume.chapters.floorKey? target = some key := by
      rw [Timeline.floorKey?, hfloor]
      rfl
    have hget := get?_of_floor? hfloor
    simp only [hkey]
    by_cases hsame : volume.keyAt moment = some key
    · -- the world goes on
      obtain ⟨things, hstep, hshows⟩ := Chapter.step_worldAt
        (h.chapters _ (SortedMap.get?_eq_some_iff.1 hget)) moment hlead
      refine ⟨_, ?_, .stay hfloor hsame hshows⟩
      rw [if_pos hsame]
      have hstate : volume.stateAt moment key = some moment := by rw [stateAt, if_pos hsame]
      have hupdate : Function.update (volume.stateAt moment) key (some (some target)) =
          volume.stateAt (some target) := update_eq_stateAt hfloor fun k hk => by
        rw [stateAt, hsame, if_neg fun h => hk (Option.some.inj h).symm]
      rw [sequenceAt, sequenceAt, keyAt_some hfloor, ← hupdate, hsame]
      refine updateWorld_sequence hget ?_
      rw [hstate]
      exact hstep
    · -- another world is entered, after the active one has been left
      obtain ⟨things, henter, hshows⟩ :=
        enterWorld_eq h htarget hfloor (volume.infoAt moment) moment
      refine ⟨_, ?_, .enter hfloor hsame hshows⟩
      rw [if_neg hsame]
      simp only [WorldSequence.switch, leaveActive_sequenceAt]
      exact henter

/-! ### Seeks -/

/-- The direction of a seek. -/
def seekDirection (moment : Option Time) (target : Time) : Direction :=
  if moment.getD origin ≤ target then .forward else .backward

/-- A seek leads in its direction. -/
theorem leads_seekDirection {moment : Option Time} {target : Time} (htarget : 0 ≤ target)
    (hother : moment ≠ some target) :
    (seekDirection moment target).leads (moment.getD origin) target := by
  rw [seekDirection]
  cases moment with
  | none =>
    have hlt : origin < target := by rw [origin]; lia
    rw [Option.getD_none, if_pos (Int.le_of_lt hlt), Direction.leads_forward]
    exact hlt
  | some start =>
    rw [Option.getD_some]
    by_cases hle : start ≤ target
    · rw [if_pos hle, Direction.leads_forward]
      refine Int.lt_iff_le_and_ne.2 ⟨hle, ?_⟩
      rintro rfl
      exact hother rfl
    · rw [if_neg hle, Direction.leads_backward]
      exact Int.not_le.1 hle

/-- What a seek to another moment shows. -/
def SeekShows (volume : Volume) (moment : Option Time) (target : Time)
    (packets : List Packet) : Prop :=
  ∃ worlds, volume.Shows moment (seekDirection moment target) (moment.getD origin) target worlds ∧
    packets = volume.corrections.shown correctionDiscipline (seekDirection moment target)
      (moment.getD origin) target ++ worlds

/-- **A seek takes the seeker to the target**, wherever it was before. -/
theorem seek_seekerAt (h : volume.StoredIn log root) {moment : Option Time} {target : Time}
    (htarget : 0 ≤ target) (hother : moment ≠ some target) :
    ∃ packets, (volume.seekerAt moment).seek log target =
      .emit (volume.seekerAt (some target)) packets ∧ volume.SeekShows moment target packets := by
  have hlead := leads_seekDirection htarget hother
  obtain ⟨worlds, hstep, hshows⟩ := step_sequenceAt h moment htarget hlead
  refine ⟨_, ?_, worlds, hshows, rfl⟩
  -- a step in the wrong direction is refused, which this one is not
  have hback : (seekDirection moment target).leads target (moment.getD origin) = false := by
    generalize seekDirection moment target = direction at hlead
    cases direction with
    | forward =>
      rw [Direction.leads_forward] at hlead
      rw [Direction.leads, decide_eq_false (Int.not_lt.2 (Int.le_of_lt hlead))]
    | backward =>
      rw [Direction.leads_backward] at hlead
      rw [Direction.leads, decide_eq_false (Int.not_lt.2 (Int.le_of_lt hlead))]
  -- the corrections are shown first, then the worlds
  have hreplay : (volume.replayAt moment).step log (seekDirection moment target)
      (moment.getD origin) target = .emit (volume.replayAt (some target))
        (volume.corrections.shown correctionDiscipline (seekDirection moment target)
          (moment.getD origin) target ++ worlds) := by
    have hcorrections : (volume.replayAt moment).corrections.step correctionDiscipline
        (seekDirection moment target) (moment.getD origin) target = .ok _ :=
      Track.step_loaded volume.correctionsAt volume.corrections correctionDiscipline _ _ target
    rw [Replay.step, hback, if_neg (by simp), hcorrections]
    refine Outcome.emit_andThen_emit ?_
    show ((volume.sequenceAt moment).step log _ _ target (volume.replayAt moment).restore).map _ = _
    rw [hstep]
    rfl
  have hcurrent : ¬ (volume.seekerAt moment).current = some target := hother
  have hpoisoned : (volume.seekerAt moment).poisoned = false := rfl
  rw [Seeker.seek, hpoisoned, if_neg (by simp), if_neg (Int.not_lt.2 htarget), if_neg hcurrent]
  show ((volume.replayAt moment).step log (seekDirection moment target) (moment.getD origin)
    target).map _ = _
  have hok : ((volume.replayAt moment).step log (seekDirection moment target)
      (moment.getD origin) target).isOk = true := by
    rw [hreplay]
    rfl
  rw [hreplay, Outcome.emit_map]
  exact congrArg (Outcome.emit · _) (if_pos hok)

/-- A seek to where the seeker is already shows nothing. -/
theorem seek_self (moment : Time) (hmoment : 0 ≤ moment) :
    (volume.seekerAt (some moment)).seek log moment = .done (volume.seekerAt (some moment)) := by
  have hpoisoned : (volume.seekerAt (some moment)).poisoned = false := rfl
  rw [Seeker.seek, hpoisoned, if_neg (by simp), if_neg (Int.not_lt.2 hmoment)]
  exact if_pos rfl

/-- A seek to before the recording fails and changes nothing. -/
theorem seek_negative (moment : Option Time) {target : Time} (htarget : target < 0) :
    (volume.seekerAt moment).seek log target =
      .fail (volume.seekerAt moment) (.negativeTime target) := by
  have hpoisoned : (volume.seekerAt moment).poisoned = false := rfl
  rw [Seeker.seek, hpoisoned, if_neg (by simp), if_pos htarget]

end Volume

end Playhead
