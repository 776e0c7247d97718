import Playhead.Packet.Codec
import Playhead.Stored

/-!
# What identifies a world

A world is a stretch of a session in one dimension. Its `WorldInfo` decides how the client is
brought there: between worlds of equal join settings a respawn is enough, otherwise the client has
to join anew. Its header is what the log holds of it: the info and the handles of its parts.
-/

namespace Playhead

open Wire (Codec Fault)

/-- The settings of the session and the dimension of a world. -/
structure WorldInfo where
  join : JoinSettings
  dimension : Dimension
  deriving DecidableEq, Repr, Inhabited

namespace WorldInfo

/-- Whether a respawn leads from one world to the other. -/
def respawnSuffices (a b : WorldInfo) : Bool := a.join = b.join

/-- The packet that joins the world. -/
def joinPacket (info : WorldInfo) : Packet := .joinGame info.join info.dimension

/-- The packet that respawns into the world. -/
def respawnPacket (info : WorldInfo) : Packet := .respawn info.dimension

/-- The settings, then the dimension. -/
def codec : Codec Fault WorldInfo :=
  (JoinSettings.codec.pair Dimension.codec).iso (fun v => ⟨v.1, v.2⟩)
    (fun i => (i.join, i.dimension))

end WorldInfo

/-- A world as it is stored. -/
structure WorldHeader where
  info : WorldInfo
  things : Handle
  viewCenter : Handle
  viewDistance : Handle
  clock : Handle
  thunder : Handle
  deriving DecidableEq, Repr, Inhabited

/-- The info, then the handles. -/
def WorldHeader.codec : Codec Fault WorldHeader :=
  (WorldInfo.codec.pair (Stored.handle.pair (Stored.handle.pair (Stored.handle.pair
    (Stored.handle.pair Stored.handle))))).iso
    (fun v => ⟨v.1, v.2.1, v.2.2.1, v.2.2.2.1, v.2.2.2.2.1, v.2.2.2.2.2⟩)
    (fun h => (h.info, h.things, h.viewCenter, h.viewDistance, h.clock, h.thunder))

end Playhead
