import Playhead.Packet.Correction
import Playhead.Proofs.World.Chapter

/-!
# What packets are about

Every packet is about some **subjects**: things, channels of the world, or the corrective packets
(`Playhead.Packet.Concerns`). Packets that bring the client into a world, and the position of the
player, are about none, and most others about just one (`Playhead.Packet.IsAbout`).
-/

namespace Playhead

/-- What a packet can be about. -/
inductive Subject where
  | thing (key : ThingKey)
  | channel (channel : Channel)
  | corrections
  deriving DecidableEq, Repr

namespace Packet

/-- Whether a packet is about a subject. -/
def Concerns (packet : Packet) (subject : Subject) : Prop :=
  match packet with
  | spawnEntity id .. | teleportEntity id .. => subject = .thing (.entity id)
  | removeEntities ids => ∃ id ∈ ids, subject = .thing (.entity id)
  | chunkData x z _ | unloadChunk x z => subject = .thing (.chunk x z)
  | blockUpdate position _ => subject = .thing (Client.chunkKey position)
  | gameEvent event _ =>
    (event ∈ [GameEvent.rainBegins, GameEvent.rainEnds, GameEvent.rainLevel] ∧
      subject = .thing .weather) ∨ (event = GameEvent.thunderLevel ∧ subject = .channel .thunder)
  | setTime .. => subject = .channel .clock
  | setViewCenter .. => subject = .channel .viewCenter
  | setViewDistance _ => subject = .channel .viewDistance
  | changeDifficulty .. | foreign .. => subject = .corrections
  | joinGame .. | respawn .. | playerPosition .. => False

/-- A packet that is about one subject. -/
def IsAbout (packet : Packet) (subject : Subject) : Prop :=
  ∀ other, packet.Concerns other ↔ other = subject

/-- A packet of a channel is about the channel. -/
theorem isAbout_of_channel {packet : Packet} {channel : Channel}
    (h : Channel.of? packet = some channel) : packet.IsAbout (.channel channel) := by
  cases packet with
  | setTime | setViewCenter | setViewDistance =>
    obtain rfl := Option.some.inj h
    exact fun _ => Iff.rfl
  | gameEvent event value =>
    rw [Channel.of?] at h
    split at h
    · next hevent =>
      obtain rfl := Option.some.inj h
      subst hevent
      exact fun other => ⟨fun hconcerns => hconcerns.elim (fun hrain => absurd hrain.1 (by decide))
        And.right, fun hother => .inr ⟨rfl, hother⟩⟩
    · exact absurd h (by simp)
  | _ => exact absurd h (by simp [Channel.of?])

/-- A corrective packet is about the corrections. -/
theorem isAbout_corrections {packet : Packet} (h : CorrectionSlot.of? packet ≠ none) :
    packet.IsAbout .corrections := by
  cases packet with
  | changeDifficulty | foreign => exact fun _ => Iff.rfl
  | _ => exact absurd rfl h

/-- Game events of rain are about the weather. -/
theorem isAbout_weather {event : UInt8} (value : Float32Bits)
    (h : event ∈ [GameEvent.rainBegins, GameEvent.rainEnds, GameEvent.rainLevel]) :
    (gameEvent event value).IsAbout (.thing .weather) := by
  have hthunder : event ≠ GameEvent.thunderLevel := by
    rintro rfl
    exact absurd h (by decide)
  exact fun other => ⟨fun hconcerns => hconcerns.elim And.right fun h' => absurd h'.1 hthunder,
    fun hother => .inl ⟨h, hother⟩⟩

/-- Whether the chunk that a packet brings lies where blocks have coordinates on the wire. -/
def ChunkFits : Packet → Prop
  | chunkData x z _ => ChunkInRange x z
  | _ => True

end Packet

namespace Role

/-- Whether all blocks of a chunk that change lie in the chunk, and it where blocks have coordinates
on the wire. -/
def Inside : Role → Prop
  | chunk x z _ line =>
    ChunkInRange x z ∧ ∀ e ∈ line.entries, ∀ c ∈ e.2, c.position.chunk = (x, z)
  | _ => True

end Role

end Playhead
