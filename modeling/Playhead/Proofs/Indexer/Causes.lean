import Playhead.Proofs.Footprint
import Playhead.Proofs.Indexer.Writing

/-!
# Whatever is in an index was caused by a packet

Everything that an index marks at a moment has a cause (`Playhead.Recording.Explains`): a packet
about the same subject was recorded at that moment, or one that brings the client into another
world, or the time is up. A packet leaves marks at its own time only, and only of subjects that it
is about (`Playhead.Stage.Moves.explained`); a join or a respawn ends all lives and begins all
channels. So every stage of a ledger is explained (`Playhead.Ledger.After.explained`), and with it
the volume that is written (`Playhead.Recording.exists_explained`).
-/

namespace Playhead

/-- Whether a recording explains that something becomes of a subject at a moment. -/
def Recording.Explains (recording : Recording) (τ : Time) (subject : Subject) : Prop :=
  τ = Time.last ∨ ∃ packet, (τ, packet) ∈ recording ∧
    (packet.IsEntrance ∨ packet.Concerns subject)

/-- More packets explain more. -/
theorem Recording.Explains.mono {recording recording' : Recording} {τ : Time} {subject : Subject}
    (h : recording.Explains τ subject) (hle : ∀ e ∈ recording, e ∈ recording') :
    recording'.Explains τ subject :=
  h.imp_right fun ⟨packet, hmem, hpacket⟩ => ⟨packet, hle _ hmem, hpacket⟩

/-! ### Lives -/

namespace Role

/-- Blocks of a chunk are read back inside it. -/
theorem Inside.stored {role : Role} (h : role.Inside) : role.stored.Inside := by
  cases role with
  | chunk x z data line =>
    refine ⟨h.1, fun e he c hc => ?_⟩
    obtain ⟨e', he', rfl⟩ := List.mem_map.1 he
    obtain ⟨c', hc', rfl⟩ := List.mem_map.1 hc
    exact Position.chunk_unpack_pack (h.2 e' he' c' hc') h.1
  | entity | weather => trivial

end Role

namespace Life

variable {recording : Recording} {life : Life} {t : Time}

/-- A life with a cause for everything that is marked of it, and with all blocks in their place. -/
structure Explained (recording : Recording) (life : Life) : Prop where
  inside : life.role.Inside
  marks : ∀ τ, life.Marks τ → recording.Explains τ (.thing life.role.key)

theorem marks_stored {τ : Time} : life.stored.Marks τ ↔ life.Marks τ := by
  rw [Marks, Marks, stored, Role.times_stored]

/-- A life that is explained is explained as it is stored. -/
theorem Explained.stored (h : life.Explained recording) : life.stored.Explained recording := by
  refine ⟨h.inside.stored, fun τ hτ => ?_⟩
  rw [Life.stored, Role.key_stored]
  exact h.marks τ (marks_stored.1 hτ)

/-- A life that ends is explained if its end is. -/
theorem Explained.endedAt (h : life.Explained recording)
    (ht : recording.Explains t (.thing life.role.key)) :
    (life.endedAt t).Explained recording := by
  refine ⟨h.inside, fun τ hτ => ?_⟩
  rcases hτ with hspawn | rfl | htimes
  · exact h.marks τ (.inl hspawn)
  · exact ht
  · exact h.marks τ (.inr (.inr htimes))

/-- A life that begins is explained if its beginning is. -/
theorem explained_lifeFrom {role : Role} (hinside : role.Inside) (htimes : ∀ τ ∈ role.times, τ = t)
    (ht : recording.Explains t (.thing role.key)) : (role.lifeFrom t).Explained recording := by
  refine ⟨hinside, fun τ hτ => ?_⟩
  rcases hτ with rfl | rfl | hτ
  · exact ht
  · exact .inl rfl
  · rw [htimes τ hτ]
    exact ht

/-- A life that goes on is explained if what happens to it is. -/
theorem Explained.goOn (h : life.Explained recording) {role : Role}
    (hgoes : Role.GoesOnAt t life.role role) (hinside : role.Inside)
    (ht : recording.Explains t (.thing life.role.key)) :
    ({ life with role } : Life).Explained recording := by
  refine ⟨hinside, fun τ hτ => ?_⟩
  dsimp only
  rw [hgoes.key]
  rcases hτ with hspawn | hdespawn | hτ
  · exact h.marks τ (.inl hspawn)
  · exact h.marks τ (.inr (.inl hdespawn))
  · rcases hgoes.times τ hτ with hτ | rfl
    · exact h.marks τ (.inr (.inr hτ))
    · exact ht

end Life

/-! ### Stages -/

namespace Stage

variable {recording recording' : Recording} {stage stage' : Stage} {t : Time} {packet : Packet}

/-- A stage on which everything has a cause. -/
structure Explained (recording : Recording) (stage : Stage) : Prop where
  past : ∀ life ∈ stage.past, life.Explained recording
  present : ∀ key life, stage.present key = some life →
    life.role.key = key ∧ life.Explained recording
  line : ∀ channel, ∀ τ ∈ (stage.line channel).keys, recording.Explains τ (.channel channel)

/-- More packets explain more of a stage. -/
theorem Explained.mono (h : stage.Explained recording)
    (hle : ∀ e ∈ recording, e ∈ recording') : stage.Explained recording' where
  past life hlife :=
    have hexplained := h.past life hlife
    ⟨hexplained.inside, fun τ hτ => (hexplained.marks τ hτ).mono hle⟩
  present key life hlife :=
    have ⟨hkey, hexplained⟩ := h.present key life hlife
    ⟨hkey, hexplained.inside, fun τ hτ => (hexplained.marks τ hτ).mono hle⟩
  line channel τ hτ := (h.line channel τ hτ).mono hle

/-- A stage that begins is explained if everything is at that moment. -/
theorem explained_begin (ht : ∀ subject, recording.Explains t subject) (info : WorldInfo)
    (seeds : Channel → Packet) : (begin t info seeds).Explained recording where
  past life hlife := absurd hlife List.not_mem_nil
  present key life hlife := absurd hlife (by simp [begin])
  line channel τ hτ := by
    obtain ⟨e, he, rfl⟩ := List.mem_map.1 hτ
    rw [mem_ofList_singleton he]
    exact ht _

/-- A stage is explained when a thing goes, if that is. -/
theorem Explained.retire (h : stage.Explained recording) {key : ThingKey}
    (ht : recording.Explains t (.thing key)) : (stage.retire t key).Explained recording where
  past life hlife := by
    rcases mem_past_retire hlife with hlife | ⟨old, hold, -, rfl⟩
    · exact h.past life hlife
    · obtain ⟨rfl, hexplained⟩ := h.present key old hold
      exact hexplained.endedAt ht
  present key' life hlife := h.present key' life (present_of_retire hlife).2
  line channel := by
    rw [line_retire]
    exact h.line channel

/-- A stage is explained when it closes, if everything is at that moment. -/
theorem Explained.close (h : stage.Explained recording)
    (ht : ∀ subject, recording.Explains t subject) (keys : List ThingKey) :
    (stage.close t keys).Explained recording := by
  induction keys generalizing stage with
  | nil => exact h
  | cons key keys ih => exact ih (h.retire (ht _))

/-- A stage is explained when a thing is placed, if that is. -/
theorem Explained.place (h : stage.Explained recording) {role : Role} (hinside : role.Inside)
    (htimes : ∀ τ ∈ role.times, τ = t) (ht : recording.Explains t (.thing role.key)) :
    (stage.place t role).Explained recording :=
  { h with
    present := fun key life hlife => by
      rcases of_update_eq_some hlife with ⟨hkey, rfl⟩ | ⟨-, hlife⟩
      · exact ⟨hkey.symm, Life.explained_lifeFrom hinside htimes ht⟩
      · exact h.present key life hlife }

/-- A stage is explained when a thing is altered, if that is. -/
theorem Explained.alter (h : stage.Explained recording) {key : ThingKey} {f : Role → Role}
    (hgoes : ∀ role, role.key = key → Role.GoesOnAt t role (f role))
    (hinside : ∀ role, role.key = key → role.Inside → (f role).Inside)
    (ht : recording.Explains t (.thing key)) : (stage.alter key f).Explained recording :=
  { h with
    present := fun key' life hlife => by
      rw [present_alter] at hlife
      split at hlife
      · next hsame =>
        subst hsame
        obtain ⟨old, hold, rfl⟩ := Option.map_eq_some_iff.1 hlife
        obtain ⟨hkey, hexplained⟩ := h.present key' old hold
        exact ⟨(hgoes _ hkey).key.trans hkey,
          hexplained.goOn (hgoes _ hkey) (hinside _ hkey hexplained.inside) (hkey ▸ ht)⟩
      · exact h.present key' life hlife }

/-- A stage is explained when a channel has something new, if that is. -/
theorem Explained.signal (h : stage.Explained recording) {channel : Channel}
    (ht : recording.Explains t (.channel channel)) :
    (stage.signal channel t packet).Explained recording :=
  { h with
    line := fun channel' τ hτ => by
      rw [Stage.signal] at hτ
      by_cases hc : channel' = channel
      · subst hc
        simp only [Function.update_self] at hτ
        rcases SortedMap.mem_keys_insert.1 hτ with hτ | rfl
        · exact h.line channel' τ hτ
        · exact ht
      · simp only [Function.update_of_ne hc] at hτ
        exact h.line channel' τ hτ }

/-- **A packet that is recorded explains what it does.** -/
theorem Moves.explained (hmoves : stage.Moves t packet stage') (hmem : (t, packet) ∈ recording)
    (hfits : packet.ChunkFits) (h : stage.Explained recording) : stage'.Explained recording := by
  have hcause {subject : Subject} (hconcerns : packet.Concerns subject) :
      recording.Explains t subject := .inr ⟨packet, hmem, .inr hconcerns⟩
  induction hmoves with
  | stay => exact h
  | retire _ hconcerns ih => exact ih.retire (hcause hconcerns)
  | place _ hconcerns _ htimes _ hinside ih =>
    exact ih.place (hinside hfits) htimes (hcause hconcerns)
  | alter _ hconcerns hgoes hinside ih => exact ih.alter hgoes (hinside hfits) (hcause hconcerns)
  | setColumn _ _ _ ih => exact { ih with }
  | signal _ hkind ih => exact ih.signal (hcause ((Packet.isAbout_of_channel hkind _).2 rfl))

end Stage

/-! ### Ledgers -/

namespace Ledger

variable {recording : Recording} {ledger ledger' : Ledger} {now t : Time} {packet : Packet}

/-- A packet that brings the client into another world explains everything. -/
theorem explains_of_isEntrance (hmem : (t, packet) ∈ recording) (h : packet.IsEntrance)
    (subject : Subject) : recording.Explains t subject := .inr ⟨packet, hmem, .inl h⟩

/-- Snapshots are kept when packets are received that are in the recording. -/
theorem Receives.mem_keys_snapshots (hreceives : ledger.Receives t packet ledger')
    (hmem : (t, packet) ∈ recording)
    (h : ∀ τ ∈ ledger.snapshots.keys, recording.Explains τ .corrections) :
    ∀ τ ∈ ledger'.snapshots.keys, recording.Explains τ .corrections := by
  have hinsert (packets : List Packet) (ht : recording.Explains t .corrections) :
      ∀ τ ∈ (ledger.snapshots.insert t packets).keys, recording.Explains τ .corrections := by
    intro τ hτ
    rcases SortedMap.mem_keys_insert.1 hτ with hτ | rfl
    · exact h τ hτ
    · exact ht
  cases hreceives with
  | join hcloses =>
    dsimp only
    rw [hcloses.snapshots_eq.1]
    exact hinsert [] (explains_of_isEntrance hmem trivial _)
  | respawn _ hcloses =>
    dsimp only
    rwa [hcloses.snapshots_eq.1]
  | stray => exact h
  | correct hcorrective =>
    have habout := Packet.isAbout_corrections (hcorrective ▸ Option.some_ne_none _)
    exact hinsert _ (.inr ⟨packet, hmem, .inr ((habout _).2 rfl)⟩)
  | other => exact h

/-- **Everything in a ledger has a cause in the recording.** -/
theorem After.explained (h : After recording now ledger) (hfits : ∀ e ∈ recording, e.2.ChunkFits) :
    (ledger.All fun stage => stage.Explained recording) ∧
      ∀ τ ∈ ledger.snapshots.keys, recording.Explains τ .corrections := by
  induction h with
  | blank =>
    exact ⟨all_blank _, fun τ hτ => absurd hτ List.not_mem_nil⟩
  | @packet recording now t ledger ledger' packet hbefore hle hreceives ih =>
    obtain ⟨hall, hsnapshots⟩ := ih fun e he => hfits e (List.mem_append_left _ he)
    have hmono : ∀ e ∈ recording, e ∈ recording ++ [(t, packet)] := fun _ =>
      List.mem_append_left _
    have hmem : (t, packet) ∈ recording ++ [(t, packet)] := List.mem_concat_self
    refine ⟨hreceives.all (hall.imp fun _ hexplained => hexplained.mono hmono)
      (fun stage keys hentrance _ hexplained =>
        hexplained.close (explains_of_isEntrance hmem hentrance) keys)
      (fun info seeds hbrings =>
        Stage.explained_begin (explains_of_isEntrance hmem hbrings.isEntrance) info seeds)
      fun stage _ _ _ hexplained =>
        (stage.moves_receive t packet).explained hmem (hfits _ hmem) hexplained,
      hreceives.mem_keys_snapshots hmem fun τ hτ => (hsnapshots τ hτ).mono hmono⟩

end Ledger

/-! ### Volumes -/

namespace Volume

/-- A volume that marks nothing without a cause. -/
structure Explained (volume : Volume) (recording : Recording) : Prop where
  sorted : volume.Sorted
  begun : ∀ key ∈ volume.chapters.keys, ∃ packet, (key, packet) ∈ recording ∧ packet.IsEntrance
  marks : ∀ τ subject, volume.Marks τ subject → recording.Explains τ subject

end Volume

/-- **The index of a recording is explained by it**, if the chunks lie where blocks have coordinates
on the wire. -/
theorem Recording.exists_explained {recording : Recording} {log log' : Log} {root : Handle}
    (hlog : log.Faithful) (htimes : ∀ e ∈ recording, e.1 ≤ Time.last)
    (hok : recording.index log = .ok (root, log')) (hfits : ∀ e ∈ recording, e.2.ChunkFits)
    {seeker : Seeker} (hopen : Seeker.openAt log' root = .ok seeker) :
    ∃ volume : Volume, volume.StoredIn log' root ∧ volume.Explained recording := by
  obtain ⟨now, ledger, closed, volume, hnow, hafter, hcloses, hrecords, hstored, hnames⟩ :=
    Recording.exists_records hlog htimes hok
  have horder := hcloses.orderly (hafter.orderly.mono hnow)
  obtain ⟨hall, hsnapshots⟩ := hafter.explained hfits
  -- what explains a stage explains it after it has been closed
  have hexplained := hcloses.all hall fun stage keys _ h => h.close (fun _ => .inl rfl) keys
  have hbegun := hcloses.all hafter.begun fun stage keys _ h => by
    rwa [Stage.start_close, Stage.info_close]
  refine ⟨volume, hstored (hnames seeker hopen), ⟨fun e he life hlife => ?_, fun e he channel => ?_,
    fun e he => ?_⟩, fun key hkey => ?_, fun τ subject hmarks => ?_⟩
  · obtain ⟨stage, hmem, hrecord⟩ := hrecords.of_mem he
    obtain ⟨old, hold, rfl⟩ := hrecord.exists_past hlife
    exact ((hexplained.closed _ hmem).past old hold).inside.stored
  · obtain ⟨stage, hmem, hrecord⟩ := hrecords.of_mem he
    rw [hrecord.line]
    exact (horder.closed _ hmem).2.kinds channel
  · exact (horder.snapshots e (hrecords.corrections ▸ he)).2
  · obtain ⟨e, he, rfl⟩ := List.mem_map.1 hkey
    obtain ⟨stage, hmem, -⟩ := hrecords.of_mem he
    obtain ⟨packet, hpacket, hbrings⟩ := hbegun.closed _ hmem
    exact ⟨packet, (horder.closed _ hmem).1 ▸ hpacket, hbrings.isEntrance⟩
  · cases subject with
    | thing key =>
      obtain ⟨e, he, life, hlife, rfl, hmark⟩ := hmarks
      obtain ⟨stage, hmem, hrecord⟩ := hrecords.of_mem he
      obtain ⟨old, hold, rfl⟩ := hrecord.exists_past hlife
      exact ((hexplained.closed _ hmem).past old hold).stored.marks τ hmark
    | channel channel =>
      obtain ⟨e, he, hkey⟩ := hmarks
      obtain ⟨stage, hmem, hrecord⟩ := hrecords.of_mem he
      exact (hexplained.closed _ hmem).line channel τ (hrecord.line ▸ hkey)
    | corrections =>
      have hkey : τ ∈ volume.corrections.keys := hmarks
      rw [hrecords.corrections, hcloses.snapshots_eq.1] at hkey
      exact hsnapshots τ hkey

end Playhead
