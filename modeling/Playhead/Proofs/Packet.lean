import Playhead.Proofs.Wire.Frame
import Playhead.Packet.Codec
import Playhead.Stored
import Playhead.World.Info

/-!
# Packets and stored values are read back

What comes back of a position is its low bits (`Playhead.Position.unpack_pack` says when that is
all of it), what comes back of a dimension is itself if its name fits, and everything else comes
back as it is. `Playhead.Packet.back` says so for packets. **The packets of things and channels
come back unchanged**, since they hold neither positions nor names
(`Playhead.Packet.back_of_isPlain`).
-/

namespace Playhead

open Wire

/-! ### Positions -/

namespace Position

theorem unpack_pack_x {p : Position} (hlo : -0x2000000 ≤ p.x.toInt) (hhi : p.x.toInt < 0x2000000) :
    (unpack p.pack).x = p.x := by
  refine Eq.trans (congrArg Int32.ofInt ?_) (Int32.ofInt_toInt p.x)
  rw [pack, Int.bmod_def]
  generalize p.x.toInt = x at *
  generalize p.y.toInt = y at *
  generalize p.z.toInt = z at *
  split <;> omega

theorem unpack_pack_z {p : Position} (hlo : -0x2000000 ≤ p.z.toInt) (hhi : p.z.toInt < 0x2000000) :
    (unpack p.pack).z = p.z := by
  refine Eq.trans (congrArg Int32.ofInt ?_) (Int32.ofInt_toInt p.z)
  rw [pack, Int.bmod_def]
  generalize p.x.toInt = x at *
  generalize p.y.toInt = y at *
  generalize p.z.toInt = z at *
  split <;> omega

theorem unpack_pack_y {p : Position} (hlo : -0x800 ≤ p.y.toInt) (hhi : p.y.toInt < 0x800) :
    (unpack p.pack).y = p.y := by
  refine Eq.trans (congrArg Int16.ofInt ?_) (Int16.ofInt_toInt p.y)
  rw [pack, Int.bmod_def]
  generalize p.x.toInt = x at *
  generalize p.y.toInt = y at *
  generalize p.z.toInt = z at *
  split <;> omega

/-- **A position whose coordinates fit survives packing.** -/
theorem unpack_pack {p : Position} (h : p.Packable) : unpack p.pack = p := by
  obtain ⟨⟨hx, hx'⟩, ⟨hy, hy'⟩, hz, hz'⟩ := h
  have hax := unpack_pack_x hx hx'
  have hay := unpack_pack_y hy hy'
  have haz := unpack_pack_z hz hz'
  obtain ⟨x, y, z⟩ := p
  exact Position.mk.injEq .. ▸ ⟨hax, hay, haz⟩

/-- A position is read back as its packed bits give it. -/
theorem codec_readsBack : codec.ReadsBack fun p => some (unpack p.pack) :=
  (Codec.ReadsBack.iso (fixedWidth_exact 8) unpack pack).congr fun _ => rfl

end Position

/-- What is stored of a block change: its position loses its high bits. -/
def BlockChange.stored (c : BlockChange) : BlockChange :=
  { c with position := .unpack c.position.pack }

theorem BlockChange.stored_of_packable {c : BlockChange} (h : c.position.Packable) :
    c.stored = c := by
  rw [BlockChange.stored, Position.unpack_pack h]

/-- A change is read back, but for what its position loses. -/
theorem BlockChange.codec_readsBack : BlockChange.codec.ReadsBack fun c => some c.stored :=
  ((Position.codec_readsBack.pair (varint_exact.pair varint_exact)).iso _ _).congr fun _ => rfl

/-! ### Records -/

theorem Location.codec_exact : Location.codec.Exact :=
  (u64_exact.pair (u64_exact.pair (u64_exact.pair (u32_exact.pair u32_exact)))).iso fun _ => rfl

theorem Uuid.codec_exact : Uuid.codec.Exact :=
  (u64_exact.pair u64_exact).iso fun _ => rfl

theorem JoinSettings.codec_exact : JoinSettings.codec.Exact :=
  (i32_exact.pair (bool_exact.pair (varint_exact.pair (varint_exact.pair byteRun_exact)))).iso
    fun _ => rfl

/-- What comes back of a dimension: nothing if its name is too long. -/
def Dimension.back (d : Dimension) : Option Dimension := if Fits d.name then some d else none

/-- A dimension is read back unless its name is too long. -/
theorem Dimension.codec_readsBack : Dimension.codec.ReadsBack Dimension.back := by
  refine ((text_readsBack.pair
    (i64_exact.pair (u8_exact.pair (bool_exact.pair i32_exact)))).iso _ _).congr fun d => ?_
  simp only [textBack, Dimension.back]
  split <;> rfl

/-- A world is read back unless the name of its dimension is too long. -/
theorem WorldInfo.codec_readsBack :
    WorldInfo.codec.ReadsBack fun i => i.dimension.back.map fun d => ⟨i.join, d⟩ := by
  refine ((Codec.ReadsBack.pair JoinSettings.codec_exact
    Dimension.codec_readsBack).iso _ _).congr fun i => ?_
  cases h : i.dimension.back <;> rfl

/-- The header of a world is read back unless the name of its dimension is too long. -/
theorem WorldHeader.codec_readsBack :
    WorldHeader.codec.ReadsBack fun h => if Fits h.info.dimension.name then some h else none := by
  have hhandle : Stored.handle.Exact := fixedWidth_exact 8
  refine ((WorldInfo.codec_readsBack.pair (hhandle.pair (hhandle.pair (hhandle.pair
    (hhandle.pair hhandle))))).iso _ _).congr fun h => ?_
  simp only [Dimension.back]
  split <;> rfl

/-! ### Packets -/

namespace Packet

/-- What comes back of a packet. -/
def back : Packet → Option Packet
  | joinGame settings dimension => dimension.back.map (joinGame settings)
  | respawn dimension => dimension.back.map respawn
  | blockUpdate position state => some (blockUpdate (.unpack position.pack) state)
  | packet => some packet

/-- Whether a packet holds no name and no position. -/
def IsPlain : Packet → Prop
  | joinGame .. | respawn .. | blockUpdate .. => False
  | _ => True

theorem back_of_isPlain {p : Packet} (h : p.IsPlain) : p.back = some p := by
  cases p <;> simp only [IsPlain] at h <;> rfl

theorem length_variants : variants.length = 15 := rfl

/-- A packet is read back as `Packet.back` says. -/
theorem codec_readsBack : codec.ReadsBack back := by
  refine Codec.ReadsBack.oneOf varint_exact (by rw [length_variants]; decide) ?_
  -- one law for each variant, in the order of the tags
  simp only [variants, List.forall_mem_cons]
  refine ⟨⟨_, Codec.ReadsBack.pair JoinSettings.codec_exact Dimension.codec_readsBack, ?_⟩,
    ⟨_, Dimension.codec_readsBack, ?_⟩,
    ⟨_, Location.codec_exact.pair varint_exact, ?_⟩,
    ⟨_, varint_exact.pair (Uuid.codec_exact.pair (varint_exact.pair Location.codec_exact)), ?_⟩,
    ⟨_, varint_exact.pair (Location.codec_exact.pair bool_exact), ?_⟩,
    ⟨_, listOf_exact varint_exact, ?_⟩,
    ⟨_, i32_exact.pair (i32_exact.pair byteRun_exact), ?_⟩,
    ⟨_, i32_exact.pair i32_exact, ?_⟩,
    ⟨_, Position.codec_readsBack.pair varint_exact, ?_⟩,
    ⟨_, u8_exact.pair u32_exact, ?_⟩,
    ⟨_, i64_exact.pair i64_exact, ?_⟩,
    ⟨_, varint_exact.pair varint_exact, ?_⟩,
    ⟨_, varint_exact, ?_⟩,
    ⟨_, u8_exact.pair bool_exact, ?_⟩,
    ⟨_, varint_exact.pair byteRun_exact, ?_⟩,
    fun _ h => absurd h List.not_mem_nil⟩
  all_goals
    intro p payload hp
    cases p <;> simp only [Option.some.injEq, reduceCtorEq] at hp
    subst hp
    first | rfl | (simp only [back, Option.bind_some]; rename_i d; cases d.back <;> rfl)

end Packet

/-! ### Stored values -/

namespace Stored

theorem level_exact : level.Exact := u32_exact.mapError _

theorem location_exact : location.Exact := Location.codec_exact.mapError _

/-- Block changes are read back, but for what their positions lose. -/
theorem changes_readsBack : changes.ReadsBack fun cs => some (cs.map BlockChange.stored) :=
  ((listOf_readsBack BlockChange.codec_readsBack).mapError _).congr fun cs =>
    Codec.mapM_some_comp BlockChange.stored cs

/-- A packet in its frame is read back as the packet is. -/
theorem packet_readsBack (compression : Option Compression) :
    (packet compression).ReadsBack Packet.back :=
  (framed_readsBack Packet.codec_readsBack compression).mapError _

/-- Packets in their frames are read back if each of them is. -/
theorem packets_readsBack (compression : Option Compression) :
    (packets compression).ReadsBack fun ps => ps.mapM Packet.back :=
  (listOf_readsBack (framed_readsBack Packet.codec_readsBack compression)).mapError _

theorem mapM_back_of_isPlain {ps : List Packet} (h : ∀ p ∈ ps, p.IsPlain) :
    ps.mapM Packet.back = some ps :=
  Codec.mapM_eq_self fun p hp => Packet.back_of_isPlain (h p hp)

theorem handle_exact : handle.Exact := fixedWidth_exact 8

end Stored

end Playhead
