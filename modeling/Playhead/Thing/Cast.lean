import Playhead.Thing.Basic

/-!
# The cast of a world

The cast is all things of a world in the order of their records, with those that are active marked.
`Playhead.Cast.validAt` is the moment at which the marks are right, if they are known to be: then
exactly the things alive at that moment are active.

A step goes from one moment to another. If the marks are not right for its start, it rebuilds them
from scratch (`Playhead.Cast.assemble`). Otherwise only three groups of things are concerned:

* those that **leave** – active, with the end of their life (its beginning, on the way back) inside
  the span;
* those that **enter** – with the beginning of their life (its end) inside the span, and alive at
  the target;
* those that **stay**, whose tracks make the step.

Things leave before others enter, both in order of the time at which they do and then of the
records. The marks count as right for the target as soon as all have entered; a failure before that
leaves the earlier claim in place.
-/

namespace Playhead

open Wire (Codec)

/-- A thing, and whether the client shows it. -/
structure Member where
  thing : Thing
  active : Bool

/-- The things of one world. -/
structure Cast where
  handle : Handle
  members : Array Member
  /-- The moment for which the active members are known to be the living ones. -/
  validAt : Option Time
  loaded : Bool

namespace Cast

/-- The cast at a handle, not loaded yet. -/
def atHandle (handle : Handle) : Cast := ⟨handle, #[], none, false⟩

/-- The indices of the active members, in order. -/
def activeIndices (cast : Cast) : List Nat :=
  (List.range cast.members.size).filter fun i => (cast.members[i]?.map (·.active)).getD false

/-- The active things, in order. -/
def active (cast : Cast) : List Thing :=
  (cast.members.toList.filter (·.active)).map (·.thing)

/-- All members inactive and without their tracks; the client is not told. -/
def release (cast : Cast) : Cast :=
  { cast with
    members := cast.members.map fun m =>
      if m.active then ⟨m.thing.release, false⟩ else m
    validAt := none }

/-- Reads records until there are `count` of them or one cannot be read. -/
def readMembers (log : Log) : Nat → Array Member → Bytes → Array Member × Option Failure
  | 0, done, _ => (done, none)
  | count + 1, done, bytes =>
    match (ThingRecord.codec log.compression).decode bytes with
    | .error failure => (done, some failure)
    | .ok (record, rest) => readMembers log count (done.push ⟨.ofRecord record, false⟩) rest

/-- The number of records at the cast's handle, and the bytes of the records. -/
def readCount (cast : Cast) (log : Log) : Except Failure (Nat × Bytes) := do
  let bytes ← (log.since cast.handle).mapError .log
  (Wire.length.decode bytes).mapError .wire

/-- Reads all records; no track is loaded. If a record cannot be read, the ones before it stay. -/
def load (cast : Cast) (log : Log) : Outcome Cast :=
  match cast.readCount log with
  | .error failure => .fail cast failure
  | .ok (count, bytes) =>
    let (members, failure) := readMembers log count #[] bytes
    { state := ⟨cast.handle, members, none, failure.isNone || cast.loaded⟩
      emitted := []
      failure := failure }

/-- Forgets all records; the client is not told. -/
def unload (cast : Cast) : Cast := ⟨cast.handle, #[], none, false⟩

/-- The members, by index, for which a time of theirs is after `start` and not after `stop`, in
order of that time and then of the index. -/
def indicesWithin (cast : Cast) (time : ThingRecord → Time) (start stop : Time) : List Nat :=
  let timed := cast.members.toList.zipIdx.map fun (m, i) => (time m.thing.record, i)
  ((timed.filter fun e => start < e.1 ∧ e.1 ≤ stop).mergeSort fun a b => a.1 ≤ b.1).map (·.2)

/-- Applies a step to one member and marks it. -/
def updateMember (cast : Cast) (i : Nat) (step : Thing → Outcome Thing) (active : Bool) :
    Outcome Cast :=
  match cast.members[i]? with
  | none => .done cast
  | some m =>
    let o := step m.thing
    o.map fun thing =>
      { cast with
        members := cast.members.setIfInBounds i ⟨thing, if o.isOk then active else m.active⟩ }

/-- A member leaves. -/
def leave (i : Nat) (cast : Cast) : Outcome Cast :=
  cast.updateMember i Thing.unload false

/-- A member enters, as it is at a moment. -/
def enter (log : Log) (t : Time) (i : Nat) (cast : Cast) : Outcome Cast :=
  cast.updateMember i (fun thing => thing.activate log t) true

/-- Whether the member at an index has a record with a property. -/
def hasRecord (cast : Cast) (p : ThingRecord → Bool) (i : Nat) : Bool :=
  match cast.members[i]? with
  | some m => p m.thing.record
  | none => false

/-- Whether the member at an index is active. -/
def isActive (cast : Cast) (i : Nat) : Bool :=
  match cast.members[i]? with
  | some m => m.active
  | none => false

/-- Sends every active member away and has those enter that live at a moment. -/
def assemble (cast : Cast) (log : Log) (t : Time) : Outcome Cast :=
  if !cast.loaded then .fail cast (.notLoaded cast.handle)
  else
    let living := (cast.indicesWithin (·.spawn) origin t).filter
      (cast.hasRecord fun r => t < r.despawn)
    ((Outcome.forEach cast leave cast.activeIndices).andThen fun cast =>
      Outcome.forEach cast (enter log t) living).andThen fun cast =>
        .done { cast with validAt := some t }

/-- The active members whose life has its end in the direction of the step inside the span. -/
def leaving (cast : Cast) (direction : Direction) (start target : Time) : List Nat :=
  (match direction with
    | .forward => cast.indicesWithin (·.despawn) start target
    | .backward => cast.indicesWithin (·.spawn) target start).filter cast.isActive

/-- The members whose life has its beginning in the direction of the step inside the span, and
which live at the target. -/
def entering (cast : Cast) (direction : Direction) (start target : Time) : List Nat :=
  match direction with
  | .forward =>
    (cast.indicesWithin (·.spawn) start target).filter (cast.hasRecord fun r => target < r.despawn)
  | .backward =>
    (cast.indicesWithin (·.despawn) target start).filter
      (cast.hasRecord fun r => r.spawn ≤ target)

/-- A member that stays makes the step. -/
def stay (direction : Direction) (start target : Time) (i : Nat) (cast : Cast) : Outcome Cast :=
  cast.updateMember i (fun thing => thing.step direction start target) true

/-- Takes a cast whose marks are right at `start` to `target`. -/
def advance (cast : Cast) (log : Log) (direction : Direction) (start target : Time) :
    Outcome Cast :=
  (Outcome.forEach cast leave (cast.leaving direction start target)).andThen fun cast =>
    -- Those who enter are at the target already, so they are not among those who stay.
    let staying := cast.activeIndices
    ((Outcome.forEach cast (enter log target) (cast.entering direction start target)).andThen
      fun cast => .done { cast with validAt := some target }).andThen fun cast =>
        Outcome.forEach cast (stay direction start target) staying

end Cast

/-- Whether a step leads in its direction. -/
def Direction.leads (direction : Direction) (start target : Time) : Bool :=
  match direction with
  | .forward => start < target
  | .backward => target < start

namespace Cast

/-- Takes the cast from `start` to `target`; nothing happens unless that is the direction. -/
def step (cast : Cast) (log : Log) (direction : Direction) (start target : Time) : Outcome Cast :=
  if !direction.leads start target then .done cast
  else
    (if cast.validAt = some start then Outcome.done cast else cast.assemble log start).andThen
      fun cast => cast.advance log direction start target

/-! ### Writing a cast -/

/-- Whether a record may be written. -/
def enlist (records : List ThingRecord) (r : ThingRecord) : Except Failure (List ThingRecord) :=
  if r.despawn ≤ r.spawn then .error (.invalidInterval r.spawn r.despawn)
  else .ok (records ++ [r])

/-- The region of a cast: the number of records and the records. -/
def regionCodec (compression : Option Compression) : Codec Failure (List ThingRecord) :=
  Codec.list (Wire.length.mapError .wire) (ThingRecord.codec compression)

/-- Writes records; their handle. -/
def commit (log : Log) (records : List ThingRecord) : Except Failure (Handle × Log) := do
  let bytes ← (regionCodec log.compression).encode records
  return log.commit bytes

end Cast

end Playhead
