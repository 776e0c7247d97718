import Playhead.Proofs.Blocks
import Playhead.Proofs.Indexer.Shape

/-!
# Things that last

A thing **lasts** when a packet starts it and none of those that follow ends it
(`Playhead.Recording.Lasting`): the client stays in the world, the thing is not taken away, and
nothing is started in its place. Which packets start a thing depends on what is there already, so
it is up to the indexer (`Playhead.Indexer.Starts`); a stage tells the same
(`Playhead.Indexer.starts_iff`).

A packet that neither takes a thing away nor starts it anew leaves its life where it began
(`Playhead.Stage.retains_receive`). So at the end of the recording a thing that lasts is on the
stage that lasts (`Playhead.Ledger.After.present_of_lasting`), and it is over when that stage is
closed (`Playhead.Ledger.Closes.exists_last`).
-/

namespace Playhead

namespace Packet

/-- The key of the thing that a packet starts, if it starts any. -/
def startedKey? : Packet → Option ThingKey
  | spawnEntity id .. => some (.entity id)
  | chunkData x z _ => some (.chunk x z)
  | gameEvent event _ => if event = GameEvent.rainBegins then some .weather else none
  | _ => none

/-- Whether a packet takes away what is under a key. -/
def Removes (key : ThingKey) : Packet → Prop
  | removeEntities ids => ∃ id ∈ ids, key = .entity id
  | unloadChunk x z => key = .chunk x z
  | gameEvent event _ => event = GameEvent.rainEnds ∧ key = .weather
  | _ => False

end Packet

/-! ### What starts a thing -/

/-- Whether a packet starts a thing on a stage: an entity always, a chunk unless the one that is
there takes its blocks, and rain unless it falls already. -/
def Stage.Starts (stage : Stage) (packet : Packet) (key : ThingKey) : Prop :=
  packet.startedKey? = some key ∧
    match packet with
    | .chunkData x z data => stage.StartsChunk x z data
    | .gameEvent _ _ => stage.present .weather = none
    | _ => True

/-- Whether a packet starts a thing after a recording. -/
def Recording.Starts (recording : Recording) (packet : Packet) (key : ThingKey) : Prop :=
  ∃ now ledger stage, Ledger.After recording now ledger ∧ ledger.current = some stage ∧
    stage.Starts packet key

/-- After a recording there is one stage, so a packet starts a thing on it or does not. -/
theorem Ledger.After.starts_iff {recording : Recording} {now : Time} {ledger : Ledger}
    (h : Ledger.After recording now ledger) {stage : Stage} (hstage : ledger.current = some stage)
    (packet : Packet) (key : ThingKey) :
    recording.Starts packet key ↔ stage.Starts packet key :=
  h.exists_stage_iff hstage

/-- A packet starts a thing in the scene just when it does on the stage. -/
theorem Scene.Matches.starts_iff {scene : Scene} {stage : Stage} (h : scene.Matches stage)
    (packet : Packet) (key : ThingKey) :
    (scene.starts packet = true ∧ packet.startedKey? = some key) ↔ stage.Starts packet key := by
  refine and_comm.trans (and_congr_right fun hkey => ?_)
  cases packet with
  | spawnEntity => exact iff_of_true rfl trivial
  | chunkData x z data => exact h.starts_chunkData_iff x z data
  | gameEvent event value =>
    have hbegins : event = GameEvent.rainBegins := by
      by_contra hne
      exact absurd hkey (by simp [Packet.startedKey?, hne])
    simp only [Scene.starts, hbegins, decide_true, Bool.true_and, Option.isNone_iff_eq_none]
    exact h.weather.eq_none_iff
  | _ => exact absurd hkey (by simp [Packet.startedKey?])

/-- Whether a packet starts a thing in the index after a recording. -/
def Indexer.Starts (log : Log) (recording : Recording) (packet : Packet) (key : ThingKey) : Prop :=
  ∃ ix scene, pushAll recording (.start log) = .done ix ∧ ix.scene = some scene ∧
    scene.starts packet = true ∧ packet.startedKey? = some key

/-- Whether a packet starts a thing can be computed. -/
theorem Indexer.starts_of_any {log : Log} {recording : Recording} {packet : Packet}
    {key : ThingKey} (hok : (pushAll recording (.start log)).failure = none)
    (hstarts : (pushAll recording (.start log)).state.scene.any (·.starts packet) = true)
    (hkey : packet.startedKey? = some key) : Starts log recording packet key := by
  obtain ⟨scene, hopen, hstarts⟩ := (Option.any_eq_true _ _).1 hstarts
  exact ⟨_, scene, (silent_pushAll _ recording).eq_done hok, hopen, hstarts, hkey⟩

/-- The indexer starts a thing when the stage does. -/
theorem Indexer.starts_iff {log : Log} (hlog : log.Faithful) {recording : Recording}
    (htimes : ∀ e ∈ recording, e.1 ≤ Time.last) {ix : Indexer}
    (hpush : pushAll recording (.start log) = .done ix) (packet : Packet) (key : ThingKey) :
    recording.Starts packet key ↔ Starts log recording packet key :=
  exists_stage_iff_exists_scene hlog htimes hpush fun _ _ h => h.starts_iff packet key

/-! ### Lives that go on -/

namespace Stage

variable {stage stage' stage'' : Stage} {t : Time} {packet : Packet} {key : ThingKey}

/-- Whether a life under a key goes on from one stage to another, where it began. -/
def Retains (key : ThingKey) (stage stage' : Stage) : Prop :=
  ∀ life, stage.present key = some life →
    ∃ life', stage'.present key = some life' ∧ life'.spawn = life.spawn

theorem Retains.refl (key : ThingKey) (stage : Stage) : Retains key stage stage :=
  fun life hlife => ⟨life, hlife, rfl⟩

theorem Retains.trans (h : Retains key stage stage') (h' : Retains key stage' stage'') :
    Retains key stage stage'' := by
  intro life hlife
  obtain ⟨life', hlife', hspawn⟩ := h life hlife
  obtain ⟨life'', hlife'', hspawn'⟩ := h' life' hlife'
  exact ⟨life'', hlife'', hspawn'.trans hspawn⟩

/-- What is under the key stays there. -/
theorem Retains.of_eq (h : stage'.present key = stage.present key) : Retains key stage stage' :=
  fun life hlife => ⟨life, h.trans hlife, rfl⟩

/-- Another life ends. -/
theorem retains_retire {key' : ThingKey} (h : key ≠ key') (stage : Stage) (t : Time) :
    Retains key stage (stage.retire t key') :=
  .of_eq (by rw [present_retire, if_neg h])

/-- Other lives end. -/
theorem retains_close {keys : List ThingKey} (h : key ∉ keys) (stage : Stage) (t : Time) :
    Retains key stage (stage.close t keys) :=
  .of_eq (by rw [present_close, if_neg h])

/-- Another life begins. -/
theorem retains_place {role : Role} (h : key ≠ role.key) (stage : Stage) (t : Time) :
    Retains key stage (stage.place t role) :=
  .of_eq (by rw [present_place, if_neg h])

/-- A life goes on. -/
theorem retains_alter (key : ThingKey) (stage : Stage) (key' : ThingKey) (f : Role → Role) :
    Retains key stage (stage.alter key' f) := by
  intro life hlife
  rw [present_alter]
  split
  · next hkey =>
    subst hkey
    exact ⟨_, congrArg (Option.map _) hlife, rfl⟩
  · exact ⟨life, hlife, rfl⟩

/-- A chunk that does not start anew retains all lives. -/
theorem retains_receiveChunk {x z : Int32} {data : Bytes} {column : Column}
    (hdecode : Column.decode data = .ok column) (h : ¬ stage.Starts (.chunkData x z data) key) :
    Retains key stage (stage.receiveChunk t x z data column) := by
  rcases stage.receiveChunk_eq t x z data column with ⟨heq, hanew⟩ | ⟨_, changes, -, -, heq⟩
  · -- a chunk is started, so it is another one
    have hne : key ≠ .chunk x z := by
      rintro rfl
      exact h ⟨rfl, column, hdecode, hanew⟩
    rw [heq]
    exact (retains_retire hne stage t).trans (retains_place hne _ t)
  · rw [heq]
    exact retains_alter key stage _ _

/-- A game event that neither starts nor removes a thing retains all lives. -/
theorem retains_gameEvent {event : UInt8} {value : Float32Bits}
    (hstarts : ¬ stage.Starts (.gameEvent event value) key)
    (hremoves : ¬ (Packet.gameEvent event value).Removes key) :
    Retains key stage (stage.gameEvent t event value) := by
  rw [gameEvent]
  split
  · next hevent =>
    rw [beginRain]
    split
    · next hnone =>
      refine retains_place (fun hkey => hstarts ⟨?_, hnone⟩) stage t
      rw [Packet.startedKey?, if_pos hevent, hkey]
      rfl
    · exact retains_alter key stage _ _
  split
  · next hevent => exact retains_retire (fun hkey => hremoves ⟨hevent, hkey⟩) stage t
  split
  · exact retains_alter key stage _ _
  split
  · exact .of_eq rfl
  · exact .refl key stage

/-- **A packet that does not end a thing leaves its life where it began.** -/
theorem retains_receive (hstarts : ¬ stage.Starts packet key) (hremoves : ¬ packet.Removes key)
    (t : Time) : Retains key stage (stage.receive t packet) := by
  cases packet with
  | spawnEntity id uuid kind location =>
    have hne : key ≠ .entity id := by
      rintro rfl
      exact hstarts ⟨rfl, trivial⟩
    exact (retains_retire hne stage t).trans (retains_place hne _ t)
  | teleportEntity => exact retains_alter key stage _ _
  | removeEntities ids =>
    rw [receive_removeEntities]
    refine retains_close (fun hkey => hremoves ?_) stage t
    obtain ⟨id, hid, rfl⟩ := List.mem_map.1 hkey
    exact ⟨id, hid, rfl⟩
  | chunkData x z data =>
    rw [receive]
    split
    · next hdecode => exact retains_receiveChunk hdecode hstarts
    · exact .refl key stage
  | unloadChunk => exact retains_retire hremoves stage t
  | blockUpdate position state =>
    rcases stage.updateBlock_eq t position state with ⟨heq, -⟩ | ⟨_, _, -, -, -, heq⟩
    · rw [receive, heq]
      exact .refl key stage
    · rw [receive, heq]
      exact retains_alter key stage _ _
  | gameEvent => exact retains_gameEvent hstarts hremoves
  | setTime | setViewCenter | setViewDistance => exact .of_eq rfl
  | joinGame | respawn | playerPosition | changeDifficulty | foreign => exact .refl key stage

/-- **A thing that is started is there**, from that moment on. -/
theorem Starts.present_receive (h : stage.Starts packet key) (t : Time) :
    ∃ life, (stage.receive t packet).present key = some life ∧ life.spawn = t := by
  obtain ⟨hkey, hstarts⟩ := h
  cases packet with
  | spawnEntity id uuid kind location =>
    obtain rfl := Option.some.inj hkey
    exact ⟨_, (present_place ..).trans (if_pos rfl), rfl⟩
  | chunkData x z data =>
    obtain rfl := Option.some.inj hkey
    obtain ⟨column, hdecode, hanew⟩ := hstarts
    simp only [receive, hdecode]
    rcases stage.receiveChunk_eq t x z data column with ⟨heq, -⟩ | ⟨life, _, hlife, hdiff, -⟩
    · rw [heq]
      exact ⟨_, (present_place ..).trans (if_pos rfl), rfl⟩
    · exact absurd (hdiff.symm.trans (hanew life hlife)) (by simp)
  | gameEvent event value =>
    rw [Packet.startedKey?] at hkey
    split at hkey
    · next hevent =>
      obtain rfl := Option.some.inj hkey
      rw [receive, gameEvent, if_pos hevent, beginRain, hstarts]
      exact ⟨_, (present_place ..).trans (if_pos rfl), rfl⟩
    · exact absurd hkey (by simp)
  | _ => exact absurd hkey (by simp [Packet.startedKey?])

/-- A packet that starts a thing is not an entrance. -/
theorem Starts.not_isEntrance (h : stage.Starts packet key) : ¬ packet.IsEntrance := by
  obtain ⟨hkey, -⟩ := h
  cases packet with
  | joinGame | respawn => exact absurd hkey (by simp [Packet.startedKey?])
  | _ => exact id

/-! ### Lives that are closed -/

/-- What is past stays past when a thing goes. -/
theorem mem_past_retire_of_mem {life : Life} (h : life ∈ stage.past) (t : Time) (key : ThingKey) :
    life ∈ (stage.retire t key).past := by
  rw [retire]
  split
  · exact h
  · dsimp only
    split
    · exact h
    · exact List.mem_append_left _ h

/-- A life that has lasted is past when its thing goes. -/
theorem endedAt_mem_past_retire {life : Life} (hlife : stage.present key = some life)
    (hspawn : life.spawn < t) : life.endedAt t ∈ (stage.retire t key).past := by
  rw [retire, hlife]
  dsimp only
  rw [if_neg (Int.not_le.2 hspawn)]
  exact List.mem_concat_self

/-- What is past stays past when the stage closes. -/
theorem mem_past_close_of_mem {life : Life} (h : life ∈ stage.past) (t : Time)
    (keys : List ThingKey) : life ∈ (stage.close t keys).past := by
  induction keys generalizing stage with
  | nil => exact h
  | cons key keys ih => exact ih (mem_past_retire_of_mem h t key)

/-- **A life that ends with the stage is recorded**, unless it has only just begun. -/
theorem endedAt_mem_past_close {life : Life} (hlife : stage.present key = some life)
    (hspawn : life.spawn < t) {keys : List ThingKey} (hkey : key ∈ keys) :
    life.endedAt t ∈ (stage.close t keys).past := by
  induction keys generalizing stage with
  | nil => exact absurd hkey List.not_mem_nil
  | cons first keys ih =>
    by_cases hfirst : key = first
    · subst hfirst
      exact mem_past_close_of_mem (endedAt_mem_past_retire hlife hspawn) t keys
    · refine ih ?_ ((List.mem_cons.1 hkey).resolve_left hfirst)
      rw [present_retire, if_neg hfirst]
      exact hlife

end Stage

/-! ### Things that last -/

/-- The part of a recording in which a thing lasts: the packet that starts it, and those after,
none of which ends it. Which packets start a thing depends on what was recorded before. -/
structure Recording.Lasting (Starts : Recording → Packet → ThingKey → Prop) (recording : Recording)
    (key : ThingKey) (spawn : Time) (packet : Packet) (front back : Recording) : Prop where
  split : recording = front ++ (spawn, packet) :: back
  starts : Starts front packet key
  stays : ∀ e ∈ back, ¬ e.2.IsEntrance
  kept : ∀ e ∈ back, ¬ e.2.Removes key
  alone : ∀ mid t other rest, back = mid ++ (t, other) :: rest →
    ¬ Starts (front ++ (spawn, packet) :: mid) other key

namespace Recording.Lasting

variable {Starts Starts' : Recording → Packet → ThingKey → Prop} {recording front back : Recording}
  {key : ThingKey} {spawn : Time} {packet : Packet}

/-- Where two ways to start things agree, the same things last. -/
theorem congr (h : recording.Lasting Starts key spawn packet front back)
    (hiff : ∀ front rest packet, recording = front ++ rest →
      (Starts front packet key ↔ Starts' front packet key)) :
    recording.Lasting Starts' key spawn packet front back where
  split := h.split
  starts := (hiff front _ packet h.split).1 h.starts
  stays := h.stays
  kept := h.kept
  alone mid t other rest hback hstarts := by
    refine h.alone mid t other rest hback ((hiff _ ((t, other) :: rest) other ?_).2 hstarts)
    rw [h.split, hback, List.append_assoc, List.cons_append]

/-- What lasts in the index lasts on stage. -/
theorem on_stage {log : Log} (hlog : log.Faithful) (htimes : ∀ e ∈ recording, e.1 ≤ Time.last)
    {ix : Indexer} (hpush : Indexer.pushAll recording (.start log) = .done ix)
    (h : recording.Lasting (Indexer.Starts log) key spawn packet front back) :
    recording.Lasting Recording.Starts key spawn packet front back := by
  refine h.congr fun front rest packet hsplit => ?_
  -- on the way to the end the indexer has been everywhere
  rw [hsplit, Indexer.pushAll_append] at hpush
  obtain ⟨mid, hfront, -⟩ := Outcome.andThen_eq_done_iff.1 hpush
  refine (Indexer.starts_iff hlog (fun e he => ?_) hfront packet key).symm
  exact htimes e (hsplit ▸ List.mem_append_left _ he)

/-- What lasts has lasted before the last packet. -/
theorem of_concat {last last' : Time × Packet}
    (h : Lasting Starts (recording ++ [last]) key spawn packet front (back ++ [last'])) :
    last' = last ∧ recording.Lasting Starts key spawn packet front back := by
  have hall := h.split
  rw [← List.cons_append, ← List.append_assoc] at hall
  obtain ⟨hsplit, hlast⟩ := List.append_inj' hall rfl
  obtain rfl := List.singleton_inj.1 hlast
  refine ⟨rfl, hsplit, h.starts, fun e he => h.stays e (List.mem_append_left _ he),
    fun e he => h.kept e (List.mem_append_left _ he), fun mid t other rest hback => ?_⟩
  refine h.alone mid t other (rest ++ [last]) ?_
  rw [hback, List.append_assoc, List.cons_append]

/-- Packets among which none starts anything under the key end nothing there unless they remove
it. -/
theorem of_silent {log : Log} (hsplit : recording = front ++ (spawn, packet) :: back)
    (hstarts : Indexer.Starts log front packet key)
    (hsilent : ∀ e ∈ back,
      ¬ e.2.IsEntrance ∧ ¬ e.2.Removes key ∧ e.2.startedKey? ≠ some key) :
    recording.Lasting (Indexer.Starts log) key spawn packet front back where
  split := hsplit
  starts := hstarts
  stays e he := (hsilent e he).1
  kept e he := (hsilent e he).2.1
  alone mid t other rest hback := by
    rintro ⟨_, _, -, -, -, hkey⟩
    exact (hsilent (t, other) (by rw [hback]; exact List.mem_append_right _ (.head _))).2.2 hkey

end Recording.Lasting

namespace Ledger

variable {ledger ledger' : Ledger} {recording front back : Recording} {now t spawn : Time}
  {packet : Packet} {key : ThingKey} {stage : Stage} {life : Life}

/-- A packet that does not lead to another world is received by the stage that lasts. -/
theorem Receives.current_eq (h : ledger.Receives t packet ledger')
    (hentrance : ¬ packet.IsEntrance) (hstage : ledger.current = some stage) :
    ledger'.current = some (stage.receive t packet) := by
  cases h with
  | join | respawn | stray => exact absurd trivial hentrance
  | correct hslot =>
    -- the stage does not hear of corrective packets
    cases packet with
    | changeDifficulty | foreign => exact hstage
    | _ => exact absurd hslot (by simp [CorrectionSlot.of?])
  | other => exact congrArg (Option.map _) hstage

/-- **What lasts is on the stage that lasts**, and began when it was started. -/
theorem After.present_of_lasting (h : After recording now ledger)
    (hlasting : recording.Lasting Recording.Starts key spawn packet front back) :
    ∃ stage life, ledger.current = some stage ∧ stage.present key = some life ∧
      life.spawn = spawn := by
  induction h generalizing back with
  | blank => exact absurd hlasting.split (by simp)
  | @packet recording now t ledger ledger' last hbefore hle hreceives ih =>
    rcases List.eq_nil_or_concat back with rfl | ⟨back, e, rfl⟩
    · -- the last packet is the one that starts the thing
      obtain ⟨rfl, hlast⟩ := List.append_inj' hlasting.split rfl
      obtain ⟨rfl, rfl⟩ := Prod.mk.inj (List.singleton_inj.1 hlast)
      obtain ⟨_, _, stage, hafter, hstage, hstarts⟩ := hlasting.starts
      obtain rfl := hbefore.unique hafter
      obtain ⟨life, hlife, hspawn⟩ := hstarts.present_receive t
      exact ⟨_, life, hreceives.current_eq hstarts.not_isEntrance hstage, hlife, hspawn⟩
    · rw [List.concat_eq_append] at hlasting
      obtain ⟨rfl, hbefore'⟩ := hlasting.of_concat
      obtain ⟨stage, life, hstage, hlife, hspawn⟩ := ih hbefore'
      have hnot : ¬ stage.Starts last key := by
        rw [← hbefore.starts_iff hstage, hbefore'.split]
        exact hlasting.alone back t last [] rfl
      obtain ⟨life', hlife', hspawn'⟩ := Stage.retains_receive hnot
        (hlasting.kept _ List.mem_concat_self) t life hlife
      exact ⟨_, life', hreceives.current_eq (hlasting.stays _ List.mem_concat_self) hstage, hlife',
        hspawn'.trans hspawn⟩

/-- **When the stage that lasts is closed**, it is the last of all, and what is on it is over. -/
theorem Closes.exists_last (hcloses : ledger.Closes t ledger') (horder : ledger.Orderly t)
    (hstage : ledger.current = some stage) (hlife : stage.present key = some life)
    (hspawn : life.spawn < t) :
    ∃ last, ledger'.closed.get? stage.start = some last ∧ life.endedAt t ∈ last.past ∧
      (∀ old ∈ last.past, old.despawn ≤ t) ∧
        ∀ e ∈ ledger'.closed.entries, e.1 ≤ stage.start := by
  cases hcloses with
  | idle hidle => exact absurd (hidle.symm.trans hstage) (by simp)
  | @busy stage' keys hbusy hcover =>
    obtain rfl := Option.some.inj (hstage.symm.trans hbusy)
    obtain ⟨hthen, hbefore⟩ := horder.current stage hstage
    have hkey : key ∈ keys := (hcover.all key).2 (by rw [hlife]; exact Option.some_ne_none life)
    refine ⟨stage.close t keys, SortedMap.get?_insert_self .., ?_, fun old hold => ?_,
      fun e he => ?_⟩
    · exact Stage.endedAt_mem_past_close hlife hspawn hkey
    · exact ((hthen.close keys).past old hold).2.2
    · rcases SortedMap.mem_insert_iff.1 he with rfl | ⟨he, -⟩
      · exact Int.le_refl _
      · exact hbefore e he

end Ledger

end Playhead
