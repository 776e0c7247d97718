import Playhead.Proofs.Packet
import Playhead.Proofs.Wire.Faithful

/-!
# Which packets survive the wire

A position that is read can always be written again (`Playhead.Position.packable_unpack`), a text
that is read is short enough to be, and everything else has no limits of its own. So a packet
survives just when its texts fit and its positions can be packed (`Playhead.Packet.Sendable`), and
no reader ever gives a packet of another kind. `Playhead.codecs_faithful` states this for packets
and for the other records that are made of positions and names.
-/

namespace Playhead

open Wire

/-! ### Positions and block changes -/

instance (p : Position) : Decidable p.Packable := inferInstanceAs (Decidable (_ ∧ _))

/-- A position that was unpacked can be packed: none of its coordinates is out of range. -/
theorem Position.packable_unpack (word : Nat) : (unpack word).Packable := by
  have hwide (v : Int) : -0x2000000 ≤ (Int32.ofInt (v.bmod 0x4000000)).toInt ∧
      (Int32.ofInt (v.bmod 0x4000000)).toInt < 0x2000000 := by
    have hlo : -0x2000000 ≤ v.bmod 0x4000000 := Int.le_bmod (by decide)
    have hhi : v.bmod 0x4000000 < 0x2000000 := Int.bmod_lt (by decide)
    rw [Int32.toInt_ofInt_of_le (by omega) (by omega)]
    exact ⟨hlo, hhi⟩
  have hnarrow (v : Int) : -0x800 ≤ (Int16.ofInt (v.bmod 0x1000)).toInt ∧
      (Int16.ofInt (v.bmod 0x1000)).toInt < 0x800 := by
    have hlo : -0x800 ≤ v.bmod 0x1000 := Int.le_bmod (by decide)
    have hhi : v.bmod 0x1000 < 0x800 := Int.bmod_lt (by decide)
    rw [Int16.toInt_ofInt_of_le (by omega) (by omega)]
    exact ⟨hlo, hhi⟩
  exact ⟨hwide _, hnarrow _, hwide _⟩

/-- Every position is written, fitting or not. -/
theorem Position.codec_encodes (p : Position) : codec.Encodes p := by
  have hlt : p.pack < 256 ^ 8 := by
    rw [pack]
    omega
  obtain ⟨written, h⟩ := fixedWidth_encodes hlt
  exact ⟨written, h⟩

/-- What is read as a position can be packed. -/
theorem Position.codec_yields : Position.codec.Yields Packable := by
  intro bytes p rest hread
  obtain ⟨⟨word, rest'⟩, -, hread⟩ := Codec.ok_of_bind hread
  obtain ⟨rfl, rfl⟩ : unpack word = p ∧ rest' = rest := by simpa [pure, Except.pure] using hread
  exact ⟨packable_unpack word, codec_encodes _⟩

/-- What is read as a block change lies where positions can be packed. -/
theorem BlockChange.codec_yields : BlockChange.codec.Yields fun c => c.position.Packable :=
  (Position.codec_yields.pair (varint_yields.pair varint_yields)).iso (fun _ => rfl)
    fun _ h => h.1

/-! ### Records -/

theorem Location.codec_yields : Location.codec.Yields fun _ => True :=
  (u64_yields.pair (u64_yields.pair (u64_yields.pair (u32_yields.pair u32_yields)))).iso
    (fun _ => rfl) fun _ _ => trivial

theorem Uuid.codec_yields : Uuid.codec.Yields fun _ => True :=
  (u64_yields.pair u64_yields).iso (fun _ => rfl) fun _ _ => trivial

theorem JoinSettings.codec_yields : JoinSettings.codec.Yields fun _ => True :=
  (i32_yields.pair (bool_yields.pair (varint_yields.pair (varint_yields.pair
    byteRun_yields)))).iso (fun _ => rfl) fun _ _ => trivial

theorem Dimension.codec_yields : Dimension.codec.Yields fun d => Fits d.name :=
  (text_yields.pair (i64_yields.pair (u8_yields.pair (bool_yields.pair i32_yields)))).iso
    (fun _ => rfl) fun _ h => h.1

theorem WorldInfo.codec_yields : WorldInfo.codec.Yields fun i => Fits i.dimension.name :=
  (JoinSettings.codec_yields.pair Dimension.codec_yields).iso (fun _ => rfl) fun _ h => h.2

theorem WorldHeader.codec_yields :
    WorldHeader.codec.Yields fun h => Fits h.info.dimension.name := by
  have hhandle : Stored.handle.Yields fun n => n < 256 ^ 8 := fixedWidth_yields 8
  exact (WorldInfo.codec_yields.pair (hhandle.pair (hhandle.pair (hhandle.pair (hhandle.pair
    hhandle))))).iso (fun _ => rfl) fun _ h => h.1

/-! ### Packets -/

namespace Packet

/-- The texts in a packet. -/
def texts : Packet → List String
  | joinGame _ dimension | respawn dimension => [dimension.name]
  | _ => []

/-- The positions in a packet. -/
def positions : Packet → List Position
  | blockUpdate position _ => [position]
  | _ => []

/-- **The packets that survive the wire**: their texts are short enough to be read, and their
positions lose no bits. -/
def Sendable (p : Packet) : Prop := (∀ s ∈ p.texts, Fits s) ∧ ∀ q ∈ p.positions, q.Packable

instance (p : Packet) : Decidable p.Sendable := inferInstanceAs (Decidable (_ ∧ _))

/-- A packet that can be sent comes back as it is. -/
theorem back_of_sendable {p : Packet} (h : p.Sendable) : p.back = some p := by
  cases p with
  | joinGame settings dimension =>
    have hname : Fits dimension.name := h.1 _ List.mem_cons_self
    simp [back, Dimension.back, hname]
  | respawn dimension =>
    have hname : Fits dimension.name := h.1 _ List.mem_cons_self
    simp [back, Dimension.back, hname]
  | blockUpdate position state =>
    have hposition : position.Packable := h.2 _ List.mem_cons_self
    rw [back, Position.unpack_pack hposition]
  | _ => rfl

/-- No packet belongs to two variants. -/
theorem variants_pairwise :
    variants.Pairwise fun a b => ∀ payload, a.project (b.inject payload) = none := by
  simp [variants]

/-- What is read as a packet can be sent. -/
theorem codec_yields : codec.Yields Sendable := by
  refine Codec.Yields.oneOf varint_encodes variants_pairwise ?_
  -- one law for each variant, in the order of the tags
  simp only [variants, List.forall_mem_cons]
  refine ⟨⟨_, JoinSettings.codec_yields.pair Dimension.codec_yields, ?_⟩,
    ⟨_, Dimension.codec_yields, ?_⟩,
    ⟨_, Location.codec_yields.pair varint_yields, ?_⟩,
    ⟨_, varint_yields.pair (Uuid.codec_yields.pair (varint_yields.pair Location.codec_yields)), ?_⟩,
    ⟨_, varint_yields.pair (Location.codec_yields.pair bool_yields), ?_⟩,
    ⟨_, listOf_yields varint_yields, ?_⟩,
    ⟨_, i32_yields.pair (i32_yields.pair byteRun_yields), ?_⟩,
    ⟨_, i32_yields.pair i32_yields, ?_⟩,
    ⟨_, Position.codec_yields.pair varint_yields, ?_⟩,
    ⟨_, u8_yields.pair u32_yields, ?_⟩,
    ⟨_, i64_yields.pair i64_yields, ?_⟩,
    ⟨_, varint_yields.pair varint_yields, ?_⟩,
    ⟨_, varint_yields, ?_⟩,
    ⟨_, u8_yields.pair bool_yields, ?_⟩,
    ⟨_, varint_yields.pair byteRun_yields, ?_⟩,
    fun _ h => absurd h List.not_mem_nil⟩
  all_goals
    intro payload
    refine ⟨trivial, fun hcarried => ?_⟩
    simp [Sendable, texts, positions, hcarried]

end Packet

/-! ### Both laws together -/

/-- **Exactly the packets whose texts fit and whose positions can be packed survive the wire**,
whatever follows them, and only such packets are ever read. The same holds of block changes, of
what identifies a world, and of its header. -/
theorem codecs_faithful :
    Packet.codec.FaithfulOn (fun p => (∀ s ∈ p.texts, Fits s) ∧ ∀ q ∈ p.positions, q.Packable) ∧
    BlockChange.codec.FaithfulOn (fun c => c.position.Packable) ∧
    WorldInfo.codec.FaithfulOn (fun i => Fits i.dimension.name) ∧
    WorldHeader.codec.FaithfulOn (fun h => Fits h.info.dimension.name) := by
  refine ⟨?packet, ?change, ?info, ?header⟩
  case packet =>
    exact Packet.codec_readsBack.faithfulOn Packet.codec_yields fun _ => Packet.back_of_sendable
  case change =>
    exact BlockChange.codec_readsBack.faithfulOn BlockChange.codec_yields fun _ h =>
      congrArg some (BlockChange.stored_of_packable h)
  case info =>
    refine WorldInfo.codec_readsBack.faithfulOn WorldInfo.codec_yields fun i h => ?_
    rw [Dimension.back, if_pos h]
    rfl
  case header =>
    exact WorldHeader.codec_readsBack.faithfulOn WorldHeader.codec_yields fun _ h => if_pos h

end Playhead
