import Playhead.World.Basic

/-!
# The worlds of a recording

The worlds of a recording are a track of their own: each holds from its key to the next. At most
one of them is **active**, the one that the client is in.

A step whose target lies in the active world is a step of that world. Any other step **switches**:
the active world is left without a word, and the client is brought into the world of the target –
by a respawn if it comes from a world of the same session, else by a join, after which the
corrective packets in effect are restored, and a respawn – and that world is played from its
beginning to the target. If anything fails on the way, no world is active, so the next world is
entered through a join.
-/

namespace Playhead

/-- The worlds of a recording and the key of the active one. -/
structure WorldSequence where
  track : Track World
  active : Option Time

/-- What restores the corrective packets in effect at a moment: the packets, and the failure it
ends with, if any. -/
abbrev Restore := Time → Outcome Unit

namespace WorldSequence

/-- The sequence at a handle, not loaded yet. -/
def atHandle (handle : Handle) : WorldSequence := ⟨.atHandle handle, none⟩

/-- The active world. -/
def activeWorld (s : WorldSequence) : Except Failure (Option World) :=
  match s.active with
  | none => .ok none
  | some key => do
    let worlds ← s.track.timeline
    return worlds.get? key

/-- Reads the headers of all worlds; none is active then. -/
def load (s : WorldSequence) (log : Log) : Outcome WorldSequence :=
  ((s.track.load World.codec log).map fun track => { s with track }).andThen fun s =>
    .done { s with active := none }

/-- Forgets all worlds. -/
def unload (s : WorldSequence) : WorldSequence := ⟨s.track.unload, none⟩

/-- The world with a key. -/
def world (s : WorldSequence) (key : Time) : Except Failure World := do
  let worlds ← s.track.timeline
  match worlds.get? key with
  | some world => return world
  | none => .error (.notLoaded s.track.handle)

/-- The sequence with one world replaced. -/
def setWorld (s : WorldSequence) (key : Time) (world : World) : WorldSequence :=
  { s with track.loaded := s.track.loaded.map fun worlds => worlds.modify key fun _ => world }

/-- Applies a step to the world with a key. -/
def updateWorld (s : WorldSequence) (key : Time) (step : World → Outcome World) :
    Outcome WorldSequence :=
  match s.world key with
  | .error failure => .fail s failure
  | .ok world => (step world).map (s.setWorld key)

/-- The packets that bring the client into a world. -/
def entrance (s : WorldSequence) (previous : Option WorldInfo) (info : WorldInfo) (target : Time)
    (restore : Restore) : Outcome WorldSequence :=
  let arrival := [info.respawnPacket, Packet.neutralPosition]
  -- A client that joins forgets everything, so the corrective packets are sent again.
  let rejoin : Outcome WorldSequence :=
    ((Outcome.emit s [info.joinPacket]).andThen fun s => (restore target).map fun _ => s).andThen
      fun s => .emit s arrival
  match previous with
  | some old => if old.respawnSuffices info then .emit s arrival else rejoin
  | none => rejoin

/-- Leaves the active world; the client is not told. The info of the world that was left. -/
def leaveActive (s : WorldSequence) : Except Failure (WorldSequence × Option WorldInfo) :=
  match s.active with
  | none => .ok (s, none)
  | some key => do
    let world ← s.world key
    return ({ s with active := none }.setWorld key world.unload, some world.info)

/-- Brings the client into the world with a key, as it is at the target. -/
def enterWorld (s : WorldSequence) (log : Log) (previous : Option WorldInfo) (key target : Time)
    (restore : Restore) : Outcome WorldSequence :=
  match s.world key with
  | .error failure => .fail s failure
  | .ok world =>
    ((s.entrance previous world.info target restore).andThen fun s =>
      s.updateWorld key fun world =>
        (world.load log).andThen fun world => world.step log .forward origin target).andThen
          fun s => .done { s with active := some key }

/-- Leaves the active world for that of the target, if there is one. -/
def switch (s : WorldSequence) (log : Log) (found : Option Time) (target : Time)
    (restore : Restore) : Outcome WorldSequence :=
  match s.leaveActive with
  | .error failure => .fail { s with active := none } failure
  | .ok (s, previous) =>
    match found with
    | none => .done s
    | some key => s.enterWorld log previous key target restore

/-- Takes the client from `start` to `target`. -/
def step (s : WorldSequence) (log : Log) (direction : Direction) (start target : Time)
    (restore : Restore) : Outcome WorldSequence :=
  match s.track.timeline with
  | .error failure => .fail s failure
  | .ok worlds =>
    match worlds.floorKey? target with
    | some key =>
      if s.active = some key then
        s.updateWorld key fun world => world.step log direction start target
      else s.switch log (some key) target restore
    | none => s.switch log none target restore

end WorldSequence

end Playhead
