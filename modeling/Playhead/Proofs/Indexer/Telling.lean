import Playhead.Proofs.Indexer.Linear
import Playhead.Proofs.Indexer.Writing

/-!
# The index tells the recording

When all packets of a recording suit the client, everything in its index is stored as it was
recorded: the chapters are the stages that are over (`Playhead.Chapter.Records.act_eq`), and the
volume tells the story of the recording (`Playhead.Volume.Tells`). If the names of all dimensions
fit the wire, the volume is in the log and can be played (`Playhead.Recording.exists_volume`).
-/

namespace Playhead

open Wire (Fits)

/-! ### Chapters and stages -/

namespace Chapter

variable {chapter : Chapter} {stage : Stage} {log : Log}

/-- Lives that make sense are stored as they are. -/
theorem Records.lives_eq {now : Time} (h : chapter.Records stage) (hsound : stage.Sound now) :
    chapter.roster.lives = stage.past := by
  rw [h.lives]
  conv_rhs => rw [← List.map_id stage.past]
  exact List.map_congr_left fun life hlife =>
    Life.stored_eq (hsound.past life hlife).consistent (hsound.past life hlife).packable

/-- **A chapter is the act of the stage** that it records. -/
theorem Records.act_eq {now : Time} (h : chapter.Records stage) (hsound : stage.Sound now)
    (hover : ∀ key, stage.present key = none) : chapter.act = stage.act := by
  have hlives : {life | life ∈ chapter.roster.lives} =
      {life | life ∈ stage.past ∨ ∃ key, stage.present key = some life} := by
    ext life
    rw [h.lives_eq hsound]
    simp [hover]
  rw [Chapter.act, Stage.act, hlives, h.info, h.line]

/-- A chapter that records a sound stage can be played. -/
theorem Records.playable {now : Time} (h : chapter.Records stage) (hsound : stage.Sound now)
    (horder : stage.Orderly now) (hstored : chapter.StoredIn log) :
    chapter.Playable log stage.start := by
  have hlives := h.lives_eq hsound
  have hminY : chapter.act.minY = stage.minY := by
    rw [Act.minY, Chapter.act, h.info]
    rfl
  have hlife : ∀ p ∈ chapter.roster, p.2 ∈ stage.past := fun p hp => by
    rw [← hlives]
    exact List.mem_map_of_mem hp
  refine ⟨⟨hstored.told, fun p hp => ?_, by rw [hlives]; exact horder.apart⟩, horder.nonneg,
    fun channel e he => ?_, fun channel => ?_, fun channel e he => ?_⟩
  · obtain ⟨hwithin, -, -⟩ := horder.past p.2 (hlife p hp)
    rw [hminY]
    exact ⟨hwithin.nonneg, fun τ hτ => (hwithin.times τ hτ).1,
      (hsound.past p.2 (hlife p hp)).consistent⟩
  · exact horder.kinds channel e (h.line ▸ he)
  · rw [h.line]
    exact horder.begins channel
  · exact (horder.signals channel e (h.line ▸ he)).1

end Chapter

/-! ### Volumes and recordings -/

namespace Volume

/-- A volume that tells what a client shows to which a recording is applied. -/
structure Tells (volume : Volume) (recording : Recording) : Prop where
  depicts : ∀ t, t < Time.last → volume.story.Depicts t (recording.clientAt t)
  corrections : ∀ t,
    (volume.corrections.at? t).getD [] = (recording.clientAt t).corrections.values
  nonneg : ∀ e ∈ volume.corrections.entries, 0 ≤ e.1

variable {volume : Volume} {ledger : Ledger}

/-- **The volume tells the story of the ledger that it records.** -/
theorem Records.story_eq {now : Time} (h : volume.Records ledger) (hnone : ledger.current = none)
    (horder : ledger.Orderly now) (hsound : ledger.All fun stage => stage.Sound now) :
    volume.story = ledger.story := by
  rw [Ledger.story_of_none hnone]
  refine SortedMap.ext_get? fun key => ?_
  rw [story, Ledger.closedStory, SortedMap.get?_map, SortedMap.get?_map]
  have hkey := h.chapters key
  generalize volume.chapters.get? key = chapter at hkey
  generalize hstage : ledger.closed.get? key = stage at hkey
  cases hkey with
  | none => rfl
  | @some chapter stage hrecords =>
    have hmem := SortedMap.get?_eq_some_iff.1 hstage
    exact congrArg some (hrecords.act_eq (hsound.closed _ hmem) (horder.ended _ hmem))

end Volume

/-- **The index of a recording is in the log, can be played, and tells the recording**, if all
packets suit the client and the names of dimensions fit the wire. -/
theorem Recording.exists_volume {recording : Recording} {log log' : Log} {root : Handle}
    (hlog : log.Faithful) (htimes : ∀ e ∈ recording, e.1 ≤ Time.last)
    (hok : recording.index log = .ok (root, log'))
    (hsuits : ∀ front t packet back, recording = front ++ (t, packet) :: back →
      packet.Suits (Recording.client front))
    (hnames : ∀ e ∈ recording, ∀ dimension, e.2.Brings dimension → Fits dimension.name) :
    ∃ volume : Volume, volume.StoredIn log' root ∧ volume.Playable log' ∧
      volume.Tells recording := by
  obtain ⟨now, ledger, closed, volume, hnow, hafter, hcloses, hrecords, hstored, -⟩ :=
    Recording.exists_records hlog htimes hok
  have hfollows := hafter.follows hsuits
  have horder := hafter.orderly.mono hnow
  have horder' := hcloses.orderly horder
  have hsound := hcloses.all (hfollows.knows.mono hnow).sound
    fun stage keys _ hstage => hstage.close Time.last keys
  -- the name of a dimension comes from the packet that has brought it
  have hfits : volume.NamesFit := fun e he => by
    obtain ⟨stage, hmem, hrecord⟩ := hrecords.of_mem he
    obtain ⟨packet, hpacket, hbrings⟩ := (hcloses.all hafter.begun fun stage keys _ h => by
      rwa [Stage.start_close, Stage.info_close]).closed _ hmem
    rw [hrecord.info]
    exact hnames _ hpacket _ hbrings
  refine ⟨volume, hstored hfits, ⟨fun e he => ?_, fun e he => ?_⟩, fun t ht => ?_, fun t => ?_,
    fun e he => ?_⟩
  · obtain ⟨stage, hmem, hrecord⟩ := hrecords.of_mem he
    obtain ⟨hstart, horderly⟩ := horder'.closed _ hmem
    exact hstart ▸ hrecord.playable (hsound.closed _ hmem) horderly
      ((hstored hfits).chapters e he)
  · exact (horder'.snapshots e (hrecords.corrections ▸ he)).2
  · rw [hrecords.story_eq hcloses.current_eq_none horder' hsound]
    exact hcloses.depicts horder ht ht (hfollows.depicts t ht)
  · rw [hrecords.corrections, hcloses.snapshots_eq.1]
    exact hfollows.snapshots t
  · exact (horder'.snapshots e (hrecords.corrections ▸ he)).1.1

end Playhead
