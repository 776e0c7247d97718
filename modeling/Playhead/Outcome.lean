import Playhead.Failure
import Playhead.Packet.Basic

/-!
# Steps that emit packets and may fail midway

A step of playback changes a state and emits packets, and it may fail after having done some of
both. Neither is taken back: what was emitted has been seen by the client. So the outcome of a step
is the state it left, the packets it emitted and, perhaps, the failure it ended with. Steps are put
together by `Playhead.Outcome.andThen`, which goes on only if there was no failure.
-/

namespace Playhead

/-- The state a step left, what it emitted, and the failure it ended with. -/
structure Outcome (σ : Type) where
  state : σ
  emitted : List Packet
  failure : Option Failure

namespace Outcome

variable {σ τ α : Type}

/-- Nothing was emitted and nothing went wrong. -/
def done (state : σ) : Outcome σ := ⟨state, [], none⟩

/-- Packets were emitted. -/
def emit (state : σ) (packets : List Packet) : Outcome σ := ⟨state, packets, none⟩

/-- The step failed before it emitted anything. -/
def fail (state : σ) (failure : Failure) : Outcome σ := ⟨state, [], some failure⟩

/-- The state that a step reached, unless something went wrong. -/
def result (o : Outcome σ) : Except Failure σ :=
  match o.failure with
  | none => .ok o.state
  | some failure => .error failure

/-- The outcome of a computation that leaves the state alone and gives packets all at once. -/
def ofPackets (state : σ) : Except Failure (List Packet) → Outcome σ
  | .ok packets => emit state packets
  | .error failure => fail state failure

/-- Whether nothing went wrong. -/
def isOk (o : Outcome σ) : Bool := o.failure.isNone

/-- The outcome seen as one of a larger state. -/
def map (o : Outcome σ) (f : σ → τ) : Outcome τ := ⟨f o.state, o.emitted, o.failure⟩

/-- One step, and another one if there was no failure. -/
def andThen (o : Outcome σ) (next : σ → Outcome σ) : Outcome σ :=
  match o.failure with
  | some _ => o
  | none =>
    let o' := next o.state
    ⟨o'.state, o.emitted ++ o'.emitted, o'.failure⟩

/-- One step for each member of a list, up to the first failure. -/
def forEach (state : σ) (step : α → σ → Outcome σ) : List α → Outcome σ
  | [] => done state
  | x :: xs => (step x state).andThen fun state => forEach state step xs

end Outcome

end Playhead
