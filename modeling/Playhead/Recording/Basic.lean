import Playhead.Packet.Basic
import Playhead.Failure

/-!
# Recordings

A recording is what was sent to a client: packets, each with the time at which it was sent.
-/

namespace Playhead

/-- A recording: packets with the time at which each was sent. -/
abbrev Recording := List (Time × Packet)

end Playhead
