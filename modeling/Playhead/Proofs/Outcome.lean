import Playhead.Outcome

/-!
# Steps that succeed

Most steps of playback, on a state that holds together, emit known packets and reach a known state.
For those, one step after the other emits one list after the other
(`Playhead.Outcome.emit_andThen`), and a step for each member of a list emits one list for each
member (`Playhead.Outcome.forEach_eq`).

Of a step that may fail one still knows what it keeps: a property of the state it leaves, whether or
not it fails, and one of each packet it emits (`Playhead.Outcome.Keeps`). Some steps emit nothing at
all and fail only in few ways (`Playhead.Outcome.Silent`).
-/

namespace Playhead

namespace Outcome

variable {σ τ α : Type}

theorem done_eq_emit (state : σ) : done state = emit state [] := rfl

theorem emit_andThen (state : σ) (packets : List Packet) (next : σ → Outcome σ) :
    (emit state packets).andThen next =
      ⟨(next state).state, packets ++ (next state).emitted, (next state).failure⟩ := rfl

/-- Packets, and then those of a step that is known to succeed. -/
theorem emit_andThen_emit {state state' : σ} {packets packets' : List Packet}
    {g : σ → Outcome σ} (h : g state = emit state' packets') :
    (emit state packets).andThen g = emit state' (packets ++ packets') := by
  rw [emit_andThen, h]
  rfl

theorem emit_map (state : σ) (packets : List Packet) (f : σ → τ) :
    (emit state packets).map f = emit (f state) packets := rfl

theorem emit_isOk (state : σ) (packets : List Packet) : (emit state packets).isOk = true := rfl

/-- **A step for each member of a list**, where each succeeds from the states that the ones before
it reach. -/
theorem forEach_eq {f : τ → σ} {step : α → σ → Outcome σ} {next : τ → α → τ}
    {packets : α → List Packet} (Reached : τ → Prop) {xs : List α} {t : τ} (ht : Reached t)
    (h : ∀ x ∈ xs, ∀ t, Reached t →
      step x (f t) = emit (f (next t x)) (packets x) ∧ Reached (next t x)) :
    forEach (f t) step xs = emit (f (xs.foldl next t)) (xs.flatMap packets) := by
  induction xs generalizing t with
  | nil => rfl
  | cons x xs ih =>
    obtain ⟨hstep, hnext⟩ := h x List.mem_cons_self t ht
    rw [forEach, hstep]
    exact emit_andThen_emit (ih hnext fun y hy => h y (List.mem_cons_of_mem _ hy))

/-! ### Steps that emit nothing -/

@[simp]
theorem done_inj {state state' : σ} : done state = done state' ↔ state = state' :=
  ⟨fun h => congrArg Outcome.state h, congrArg done⟩

@[simp]
theorem done_ne_fail (state state' : σ) (failure : Failure) : done state ≠ fail state' failure :=
  fun h => absurd (congrArg Outcome.failure h) nofun

@[simp]
theorem fail_ne_done (state state' : σ) (failure : Failure) : fail state failure ≠ done state' :=
  fun h => absurd (congrArg Outcome.failure h) nofun

@[simp]
theorem done_andThen (state : σ) (next : σ → Outcome σ) : (done state).andThen next = next state :=
  rfl

@[simp]
theorem done_map (state : σ) (f : σ → τ) : (done state).map f = done (f state) := rfl

@[simp]
theorem fail_map (state : σ) (failure : Failure) (f : σ → τ) :
    (fail state failure).map f = fail (f state) failure := rfl

@[simp]
theorem done_result (state : σ) : (done state).result = .ok state := rfl

/-- Doing nothing afterwards changes nothing. -/
@[simp]
theorem andThen_done (o : Outcome σ) : o.andThen done = o := by
  obtain ⟨state, emitted, failure⟩ := o
  cases failure with
  | some failure => rfl
  | none => exact congrArg (Outcome.mk state · none) (List.append_nil emitted)

/-- A step that emits nothing and does not fail reaches the state it leaves. -/
theorem eq_done {o : Outcome σ} (hsilent : o.emitted = []) (hok : o.failure = none) :
    o = done o.state := by
  obtain ⟨state, emitted, failure⟩ := o
  obtain rfl : emitted = [] := hsilent
  obtain rfl : failure = none := hok
  rfl

/-- One step after the other reaches a state just when both of them do. -/
theorem andThen_eq_done_iff {o : Outcome σ} {next : σ → Outcome σ} {state' : σ} :
    o.andThen next = done state' ↔ ∃ state, o = done state ∧ next state = done state' := by
  constructor
  · obtain ⟨state, emitted, failure⟩ := o
    cases failure with
    | some failure => exact fun h => absurd (congrArg Outcome.failure h) nofun
    | none =>
      intro h
      obtain ⟨hstate, hemitted, hfailure⟩ := Outcome.mk.inj h
      obtain ⟨rfl, hnext⟩ := List.append_eq_nil_iff.1 hemitted
      refine ⟨state, rfl, ?_⟩
      rw [← hstate, done, ← hnext, ← hfailure]
  · rintro ⟨state, rfl, h⟩
    exact h

/-- A step seen as one of a larger state reaches what it reaches. -/
theorem map_eq_done_iff {o : Outcome σ} {f : σ → τ} {state' : τ} :
    o.map f = done state' ↔ ∃ state, o = done state ∧ f state = state' := by
  constructor
  · obtain ⟨state, emitted, failure⟩ := o
    intro h
    obtain ⟨rfl, rfl, rfl⟩ := Outcome.mk.inj h
    exact ⟨state, rfl, rfl⟩
  · rintro ⟨state, rfl, rfl⟩
    rfl

/-! ### Steps of which it is known that they succeeded -/

/-- After a failure nothing else is done. -/
theorem andThen_of_failed {o : Outcome σ} {next : σ → Outcome σ} (h : o.failure ≠ none) :
    o.andThen next = o := by
  rw [andThen]
  split
  · rfl
  · next hnone => exact absurd hnone h

/-- After a success the next step is done, and its packets come after those that were there. -/
theorem andThen_of_ok {o : Outcome σ} {next : σ → Outcome σ} (h : o.failure = none) :
    o.andThen next =
      ⟨(next o.state).state, o.emitted ++ (next o.state).emitted, (next o.state).failure⟩ := by
  rw [andThen, h]

/-- It does not matter how three steps in a row are put together. -/
theorem andThen_assoc (o : Outcome σ) (next last : σ → Outcome σ) :
    (o.andThen next).andThen last = o.andThen fun state => (next state).andThen last := by
  obtain ⟨state, emitted, failure⟩ := o
  cases failure with
  | some failure => rfl
  | none => cases h : (next state).failure <;> simp [andThen, h]

/-- Both of two steps succeeded if they did one after the other. -/
theorem of_andThen {o : Outcome σ} {next : σ → Outcome σ} (h : (o.andThen next).failure = none) :
    o.failure = none ∧ (next o.state).failure = none ∧
      (o.andThen next).state = (next o.state).state := by
  by_cases ho : o.failure = none
  · rw [andThen_of_ok ho] at h ⊢
    exact ⟨ho, h, rfl⟩
  · rw [andThen_of_failed ho] at h
    exact absurd h ho

/-! ### What a step keeps, even if it fails -/

/-- The state that a step leaves has a property, and so has everything it emits. -/
def Keeps (P : σ → Prop) (Q : Packet → Prop) (o : Outcome σ) : Prop :=
  P o.state ∧ ∀ packet ∈ o.emitted, Q packet

namespace Keeps

variable {P : σ → Prop} {Q : Packet → Prop} {state : σ} {o : Outcome σ}

theorem done (h : P state) : (Outcome.done state).Keeps P Q :=
  ⟨h, fun _ hp => absurd hp List.not_mem_nil⟩

theorem fail (h : P state) (failure : Failure) : (Outcome.fail state failure).Keeps P Q :=
  ⟨h, fun _ hp => absurd hp List.not_mem_nil⟩

/-- Packets that all have a property are emitted. -/
theorem ofPackets {packets : Except Failure (List Packet)} (h : P state)
    (hpackets : ∀ shown, packets = .ok shown → ∀ packet ∈ shown, Q packet) :
    (Outcome.ofPackets state packets).Keeps P Q := by
  cases packets with
  | error failure => exact fail h failure
  | ok shown => exact ⟨h, hpackets shown rfl⟩

/-- A step that emits nothing reaches a state with a property, and leaves one if it fails. -/
theorem of_emitted (h : o.emitted = []) (hstate : P o.state) : o.Keeps P Q := by
  refine ⟨hstate, ?_⟩
  rw [h]
  exact fun _ hp => absurd hp List.not_mem_nil

theorem map {P' : τ → Prop} {f : σ → τ} (h : o.Keeps P Q) (himp : ∀ state, P state → P' (f state)) :
    (o.map f).Keeps P' Q :=
  ⟨himp _ h.1, h.2⟩

/-- Both of two steps keep it, so they keep it one after the other. -/
theorem andThen {next : σ → Outcome σ} (h : o.Keeps P Q)
    (hnext : ∀ state, P state → (next state).Keeps P Q) : (o.andThen next).Keeps P Q := by
  by_cases ho : o.failure = none
  · obtain ⟨hstate, hemitted⟩ := hnext _ h.1
    rw [andThen_of_ok ho]
    exact ⟨hstate, fun packet hp => (List.mem_append.1 hp).elim (h.2 packet) (hemitted packet)⟩
  · rw [andThen_of_failed ho]
    exact h

/-- Each of many steps keeps it, so all of them do. -/
theorem forEach {step : α → σ → Outcome σ} {xs : List α} (h : P state)
    (hstep : ∀ x ∈ xs, ∀ state, P state → (step x state).Keeps P Q) :
    (Outcome.forEach state step xs).Keeps P Q := by
  induction xs generalizing state with
  | nil => exact done h
  | cons x xs ih =>
    rw [Outcome.forEach]
    exact (hstep x List.mem_cons_self state h).andThen fun state' hstate' =>
      ih hstate' fun y hy => hstep y (List.mem_cons_of_mem _ hy)

end Keeps

/-! ### Steps that emit nothing, whether or not they fail -/

/-- The step emits nothing, and if it fails, then in one of some ways. -/
structure Silent (R : Failure → Prop) (o : Outcome σ) : Prop where
  emitted : o.emitted = []
  failure : ∀ failure, o.failure = some failure → R failure

namespace Silent

variable {R R' : Failure → Prop} {state : σ} {o : Outcome σ}

theorem done (state : σ) : (Outcome.done state).Silent R := ⟨rfl, nofun⟩

theorem fail {failure : Failure} (h : R failure) (state : σ) :
    (Outcome.fail state failure).Silent R :=
  ⟨rfl, fun _ hfailure => Option.some.inj hfailure ▸ h⟩

theorem mono (h : o.Silent R) (himp : ∀ failure, R failure → R' failure) : o.Silent R' :=
  ⟨h.emitted, fun failure hfailure => himp failure (h.failure failure hfailure)⟩

theorem map (h : o.Silent R) (f : σ → τ) : (o.map f).Silent R := ⟨h.emitted, h.failure⟩

theorem andThen {next : σ → Outcome σ} (h : o.Silent R) (hnext : ∀ state, (next state).Silent R) :
    (o.andThen next).Silent R := by
  by_cases ho : o.failure = none
  · rw [andThen_of_ok ho, h.emitted, (hnext o.state).emitted]
    exact ⟨rfl, (hnext o.state).failure⟩
  · rw [andThen_of_failed ho]
    exact h

theorem forEach {step : α → σ → Outcome σ} (h : ∀ x state, (step x state).Silent R)
    (xs : List α) (state : σ) : (Outcome.forEach state step xs).Silent R := by
  induction xs generalizing state with
  | nil => exact done state
  | cons x xs ih => exact (h x state).andThen ih

/-- Without a failure it reaches the state it leaves. -/
theorem eq_done (h : o.Silent R) (hok : o.failure = none) : o = .done o.state :=
  Outcome.eq_done h.emitted hok

end Silent

/-! ### Steps on two kinds of states

A change of the state that every step commutes with commutes with the steps put together. -/

section Change

variable {f : σ → τ}

/-- Two steps commute with a change of the state if the second does. -/
theorem map_andThen {o : Outcome σ} {next : σ → Outcome σ} {next' : τ → Outcome τ}
    (h : ∀ state, next' (f state) = (next state).map f) :
    (o.map f).andThen next' = (o.andThen next).map f := by
  obtain ⟨state, emitted, failure⟩ := o
  cases failure with
  | some failure => rfl
  | none =>
    simp only [andThen, map, h]

/-- Many steps commute with a change of the state if each of them does. -/
theorem forEach_map {step : α → σ → Outcome σ} {step' : α → τ → Outcome τ}
    (h : ∀ x state, step' x (f state) = (step x state).map f) (xs : List α) (state : σ) :
    forEach (f state) step' xs = (forEach state step xs).map f := by
  induction xs generalizing state with
  | nil => rfl
  | cons x xs ih =>
    rw [forEach, forEach, h]
    exact map_andThen ih

end Change

end Outcome

end Playhead
