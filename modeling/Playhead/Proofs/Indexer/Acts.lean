import Playhead.Proofs.Indexer.Stage
import Playhead.Proofs.World.Act

/-!
# The world being recorded, as an act

A stage can be played while it lasts: the lives that are over and those that last make an act
(`Playhead.Stage.act`). Whatever arrives at some time, the act stays the same at every moment before
it (`Playhead.Stage.Moves.sameAt`). From that time on only the lives that last are shown, so that
what a client has to show is a function of the key (`Playhead.Stage.shows_iff`), and every move of
the stage replaces what is under one key.
-/

namespace Playhead

/-! ### Acts that are the same at a moment -/

/-- Lives of which the same is shown at a moment, and the second of which lasts. -/
structure Life.AlikeAt (s : Time) (life life' : Life) : Prop where
  alive : life'.AliveAt s
  key : life'.role.key = life.role.key
  figure : ∀ minY, life'.role.figure minY s = life.role.figure minY s

namespace Act

/-- Acts of which the same is shown at a moment. -/
structure SameAt (s : Time) (act act' : Act) : Prop where
  info : act'.info = act.info
  onward : ∀ life ∈ act.lives, life.AliveAt s → ∃ life' ∈ act'.lives, life.AlikeAt s life'
  back : ∀ life' ∈ act'.lives, life'.AliveAt s → ∃ life ∈ act.lives, life'.AlikeAt s life
  line : ∀ channel, (act'.line channel).at? s = (act.line channel).at? s

namespace SameAt

variable {s : Time} {act act' act'' : Act}

theorem refl (s : Time) (act : Act) : SameAt s act act where
  info := rfl
  onward life hlife halive := ⟨life, hlife, halive, rfl, fun _ => rfl⟩
  back life hlife halive := ⟨life, hlife, halive, rfl, fun _ => rfl⟩
  line _ := rfl

theorem trans (h : SameAt s act act') (h' : SameAt s act' act'') : SameAt s act act'' where
  info := h'.info.trans h.info
  onward life hlife halive := by
    obtain ⟨life', hlife', hlike⟩ := h.onward life hlife halive
    obtain ⟨life'', hlife'', hlike'⟩ := h'.onward life' hlife' hlike.alive
    exact ⟨life'', hlife'', hlike'.alive, hlike'.key.trans hlike.key,
      fun minY => (hlike'.figure minY).trans (hlike.figure minY)⟩
  back life'' hlife'' halive := by
    obtain ⟨life', hlife', hlike'⟩ := h'.back life'' hlife'' halive
    obtain ⟨life, hlife, hlike⟩ := h.back life' hlife' hlike'.alive
    exact ⟨life, hlife, hlike.alive, hlike.key.trans hlike'.key,
      fun minY => (hlike.figure minY).trans (hlike'.figure minY)⟩
  line channel := (h'.line channel).trans (h.line channel)

theorem minY (h : SameAt s act act') : act'.minY = act.minY := by
  rw [Act.minY, h.info, Act.minY]

/-- **Whoever plays an act plays every act that is the same.** -/
theorem plays (h : SameAt s act act') {client : Client} (hplays : act.Plays s client) :
    act'.Plays s client where
  sound := hplays.sound
  join := h.info ▸ hplays.join
  dimension := h.info ▸ hplays.dimension
  shows := by
    rw [h.minY]
    refine ⟨fun life' hlife' halive => ?_, fun key hkey => ?_⟩
    · obtain ⟨life, hlife, hlike⟩ := h.back life' hlife' halive
      rw [← hlike.key, ← hlike.figure]
      exact hplays.shows.living life hlife hlike.alive
    · refine hplays.shows.nothing key fun life hlife halive hsame => ?_
      obtain ⟨life', hlife', hlike⟩ := h.onward life hlife halive
      exact hkey life' hlife' hlike.alive (hlike.key.trans hsame)
  signals channel := (h.line channel).trans (hplays.signals channel)

end SameAt

end Act

namespace Stage

/-- What a client can be shown of a stage. -/
def act (stage : Stage) : Act :=
  ⟨stage.info, {life | life ∈ stage.past ∨ ∃ key, stage.present key = some life}, stage.line⟩

variable {stage stage' : Stage} {s t now : Time} {client : Client}

/-! ### Before something arrives -/

/-- A life that ends is the same before. -/
theorem sameAt_retire (h : stage.Orderly t) (hs : s < t) (hlast : s < Time.last)
    (key : ThingKey) : Act.SameAt s stage.act (stage.retire t key).act where
  info := info_retire ..
  onward life hlife halive := by
    rcases hlife with hlife | ⟨key', hlife⟩
    · refine ⟨life, .inl ?_, halive, rfl, fun _ => rfl⟩
      rw [retire]
      split
      · exact hlife
      · dsimp only
        split
        · exact hlife
        · exact List.mem_append_left _ hlife
    · by_cases hkey : key' = key
      · subst hkey
        have hspawn : ¬ t ≤ life.spawn := fun hle => absurd halive.1 (by lia)
        refine ⟨life.endedAt t, .inl ?_, ⟨halive.1, hs⟩, rfl, fun _ => rfl⟩
        rw [retire, hlife]
        dsimp only
        rw [if_neg hspawn]
        exact List.mem_append_right _ List.mem_cons_self
      · refine ⟨life, .inr ⟨key', ?_⟩, halive, rfl, fun _ => rfl⟩
        rw [present_retire, if_neg hkey, hlife]
  back life' hlife' halive := by
    rcases hlife' with hlife' | ⟨key', hlife'⟩
    · rcases mem_past_retire hlife' with hlife' | ⟨old, hold, -, rfl⟩
      · exact ⟨life', .inl hlife', halive, rfl, fun _ => rfl⟩
      · refine ⟨old, .inr ⟨key, hold⟩, ⟨halive.1, ?_⟩, rfl, fun _ => rfl⟩
        rw [(h.present key old hold).2.1]
        exact hlast
    · exact ⟨life', .inr ⟨key', (present_of_retire hlife').2⟩, halive, rfl, fun _ => rfl⟩
  line channel := by
    show Timeline.at? ((stage.retire t key).line channel) s = _
    rw [line_retire]
    rfl

/-- A life that begins was not there before. -/
theorem sameAt_place (hs : s < t) {role : Role} (hfree : stage.present role.key = none) :
    Act.SameAt s stage.act (stage.place t role).act where
  info := rfl
  onward life hlife halive := by
    refine ⟨life, hlife.imp_right fun ⟨key, hlife⟩ => ⟨key, ?_⟩, halive, rfl, fun _ => rfl⟩
    rw [present_place, if_neg, hlife]
    rintro rfl
    exact absurd (hfree.symm.trans hlife) (by simp)
  back life' hlife' halive := by
    rcases hlife' with hlife' | ⟨key, hlife'⟩
    · exact ⟨life', .inl hlife', halive, rfl, fun _ => rfl⟩
    · rcases of_update_eq_some hlife' with ⟨-, rfl⟩ | ⟨-, hlife'⟩
      · have hspawn : t ≤ s := halive.1
        exact absurd hspawn (Int.not_le.2 hs)
      · exact ⟨life', .inr ⟨key, hlife'⟩, halive, rfl, fun _ => rfl⟩
  line _ := rfl

/-- A life that goes on is the same before. -/
theorem sameAt_alter (h : stage.Orderly t) (hs : s < t) {key : ThingKey} {f : Role → Role}
    (hf : ∀ role, role.key = key → Role.GoesOnAt t role (f role)) :
    Act.SameAt s stage.act (stage.alter key f).act := by
  -- what happens now does not show before
  have hlike : ∀ life, stage.present key = some life →
      ({ life with role := f life.role } : Life).role.key = life.role.key ∧
        ∀ minY, (f life.role).figure minY s = life.role.figure minY s := by
    intro life hlife
    obtain ⟨hkey, -, hwithin⟩ := h.present key life hlife
    have hgoes := hf life.role hkey
    exact ⟨hgoes.key, fun minY => hgoes.before (fun τ hτ => (hwithin.times τ hτ).2) minY s hs⟩
  refine ⟨rfl, fun life hlife halive => ?_, fun life' hlife' halive => ?_, fun _ => rfl⟩
  · rcases hlife with hlife | ⟨key', hlife⟩
    · exact ⟨life, .inl hlife, halive, rfl, fun _ => rfl⟩
    · by_cases hkey : key' = key
      · subst hkey
        obtain ⟨hkey, hfigure⟩ := hlike life hlife
        refine ⟨{ life with role := f life.role }, .inr ⟨key', ?_⟩, halive, hkey, hfigure⟩
        rw [present_alter, if_pos rfl, hlife]
        rfl
      · refine ⟨life, .inr ⟨key', ?_⟩, halive, rfl, fun _ => rfl⟩
        rw [present_alter, if_neg hkey, hlife]
  · rcases hlife' with hlife' | ⟨key', hlife'⟩
    · exact ⟨life', .inl hlife', halive, rfl, fun _ => rfl⟩
    · rw [present_alter] at hlife'
      split at hlife'
      · obtain ⟨life, hlife, rfl⟩ := Option.map_eq_some_iff.1 hlife'
        obtain ⟨hkey, hfigure⟩ := hlike life hlife
        exact ⟨life, .inr ⟨key, hlife⟩, halive, hkey.symm, fun minY => (hfigure minY).symm⟩
      · exact ⟨life', .inr ⟨key', hlife'⟩, halive, rfl, fun _ => rfl⟩

/-- What arrives on a channel was not there before. -/
theorem sameAt_signal (h : stage.Orderly t) (hs : s < t) (channel : Channel) (packet : Packet) :
    Act.SameAt s stage.act (stage.signal channel t packet).act :=
  { Act.SameAt.refl s stage.act with
    line := fun channel' => by
      show Timeline.at? (Function.update stage.line channel _ channel') s = _
      rw [Function.update_apply]
      split
      · next hchannel =>
        rw [hchannel, Timeline.at?_insert fun e he => (h.signals channel e he).2,
          if_neg (Int.not_le.2 hs)]
        rfl
      · rfl }

/-- **Whatever arrives, nothing changes before.** -/
theorem Moves.sameAt {packet : Packet} (hmoves : stage.Moves t packet stage')
    (h : stage.Orderly t) (hs : s < t) (hlast : s < Time.last) :
    Act.SameAt s stage.act stage'.act := by
  induction hmoves with
  | stay => exact .refl s _
  | retire before _ ih => exact ih.trans (sameAt_retire (before.orderly h) hs hlast _)
  | place _ _ hfree _ _ _ ih => exact ih.trans (sameAt_place hs hfree)
  | alter before _ hgoes _ ih => exact ih.trans (sameAt_alter (before.orderly h) hs hgoes)
  | setColumn _ _ _ ih => exact ih
  | signal before _ ih => exact ih.trans (sameAt_signal (before.orderly h) hs _ _)

/-- Nothing changes before all lives end. -/
theorem sameAt_close (h : stage.Orderly t) (hs : s < t) (hlast : s < Time.last)
    (keys : List ThingKey) : Act.SameAt s stage.act (stage.close t keys).act := by
  induction keys generalizing stage with
  | nil => exact .refl s _
  | cons key keys ih => exact (sameAt_retire h hs hlast key).trans (ih (h.retire key))

/-! ### From now on -/

/-- What is shown under a key of the lives that last. -/
def figures (stage : Stage) (s : Time) (key : ThingKey) : Option Figure :=
  (stage.present key).map fun life => life.role.figure stage.minY s

/-- **From now on just the lives that last are shown.** -/
theorem shows_iff (h : stage.Orderly now) (hs : now ≤ s) (hlast : s < Time.last) :
    client.Shows stage.minY stage.act.lives s ↔ client.look = stage.figures s := by
  -- those that have gone are not alive any more, and those that are there are
  have hpast : ∀ life ∈ stage.past, ¬ life.AliveAt s := fun life hlife halive => by
    have hend := (h.past life hlife).2.2
    have hlate := halive.2
    lia
  have hpresent : ∀ key life, stage.present key = some life →
      life.role.key = key ∧ life.AliveAt s := fun key life hlife => by
    obtain ⟨hkey, hend, hwithin⟩ := h.present key life hlife
    exact ⟨hkey, Int.le_trans hwithin.spawn_le hs, hend ▸ hlast⟩
  constructor
  · intro hshows
    funext key
    cases hkey : stage.present key with
    | none =>
      rw [figures, hkey]
      refine hshows.nothing key fun life hlife halive hsame => ?_
      rcases hlife with hlife | ⟨key', hlife⟩
      · exact hpast life hlife halive
      · obtain rfl := hsame.symm.trans (hpresent key' life hlife).1
        exact absurd (hkey.symm.trans hlife) (by simp)
    | some life =>
      obtain ⟨hsame, halive⟩ := hpresent key life hkey
      rw [figures, hkey]
      have hliving := hshows.living life (.inr ⟨key, hkey⟩) halive
      rwa [hsame] at hliving
  · intro hlook
    refine ⟨fun life hlife halive => ?_, fun key hkey => ?_⟩
    · rcases hlife with hlife | ⟨key, hlife⟩
      · exact absurd halive (hpast life hlife)
      · rw [hlook, (hpresent key life hlife).1, figures, hlife]
        rfl
    · rw [hlook, figures, Option.map_eq_none_iff]
      cases hlife : stage.present key with
      | none => rfl
      | some life =>
        obtain ⟨hsame, halive⟩ := hpresent key life hlife
        exact absurd hsame (hkey life (.inr ⟨key, hlife⟩) halive)

/-- A thing that goes is not to be seen. -/
theorem figures_retire (stage : Stage) (t s : Time) (key : ThingKey) :
    (stage.retire t key).figures s = Function.update (stage.figures s) key none := by
  funext key'
  rw [figures, present_retire, Function.update_apply, minY, info_retire]
  split <;> rfl

/-- A thing that is placed is to be seen. -/
theorem figures_place (stage : Stage) (t s : Time) (role : Role) :
    (stage.place t role).figures s =
      Function.update (stage.figures s) role.key (some (role.figure stage.minY s)) := by
  funext key'
  rw [figures, present_place, Function.update_apply]
  split <;> rfl

/-- A thing that is altered is to be seen as it has become. -/
theorem figures_alter (stage : Stage) (s : Time) (key : ThingKey) (f : Role → Role) :
    (stage.alter key f).figures s = Function.update (stage.figures s) key
      ((stage.present key).map fun life => (f life.role).figure stage.minY s) := by
  funext key'
  rw [figures, present_alter, Function.update_apply]
  split
  · rw [Option.map_map]
    rfl
  · rfl

/-- Things that go with the stage are not to be seen. -/
theorem figures_close (stage : Stage) (t s : Time) (keys : List ThingKey) (key : ThingKey) :
    (stage.close t keys).figures s key = if key ∈ keys then none else stage.figures s key := by
  rw [figures, present_close, minY, info_close]
  split <;> rfl

end Stage

end Playhead
