import Mathlib.Data.Set.Defs
import Playhead.Proofs.Thing.Cast

/-!
# A client that shows the living

A client shows a set of lives at a moment (`Playhead.Client.Shows`) when it shows the figure of
each that lives then, and nothing else. Lives with one key have to be **apart**: never two of them
at the same moment.

Rebuilding a cast brings any client that shows what the cast has active to show the living
(`Playhead.Roster.shows_assemble`), and an incremental step brings a client that shows the living of
its start to show those of its target (`Playhead.Roster.shows_advance`). Along the way each member
is shown as it was at one moment or as it will be at the other, which is its **status**.
-/

namespace Playhead

namespace Life

/-- Lives that do not get into each other's way. -/
def Apart (a b : Life) : Prop := a.role.key = b.role.key → ∀ t, ¬ (a.AliveAt t ∧ b.AliveAt t)

end Life

/-- A client that shows just the lives that last at a moment. -/
structure Client.Shows (client : Client) (minY : Int32) (lives : Set Life) (t : Time) : Prop where
  living : ∀ life ∈ lives, life.AliveAt t →
    client.look life.role.key = some (life.role.figure minY t)
  nothing : ∀ key, (∀ life ∈ lives, life.AliveAt t → life.role.key ≠ key) → client.look key = none

/-- Clients that show the same lives show the same things. -/
theorem Client.Shows.look_eq {a b : Client} {minY : Int32} {lives : Set Life} {t : Time}
    (ha : a.Shows minY lives t) (hb : b.Shows minY lives t) : a.look = b.look := by
  funext key
  by_cases h : ∃ life ∈ lives, life.AliveAt t ∧ life.role.key = key
  · obtain ⟨life, hlife, halive, rfl⟩ := h
    rw [ha.living life hlife halive, hb.living life hlife halive]
  · have hnone : ∀ life ∈ lives, life.AliveAt t → life.role.key ≠ key :=
      fun life hlife halive hkey => h ⟨life, hlife, halive, hkey⟩
    rw [ha.nothing key hnone, hb.nothing key hnone]

/-- Clients that look alike show the same lives. -/
theorem Client.Shows.of_look {a b : Client} {minY : Int32} {lives : Set Life} {t : Time}
    (h : a.Shows minY lives t) (hlook : b.look = a.look) : b.Shows minY lives t :=
  ⟨fun life hlife halive => by rw [hlook, h.living life hlife halive],
    fun key hkey => by rw [hlook, h.nothing key hkey]⟩

namespace Roster

variable {roster : Roster} {minY : Int32} {client client' : Client}
  {status : Nat → Option Time}

/-- A client that shows every member as it is at the moment of its status, if it has one. -/
structure Displays (roster : Roster) (minY : Int32) (status : Nat → Option Time)
    (client : Client) : Prop where
  shown : ∀ i p t, roster[i]? = some p → status i = some t →
    client.look p.2.role.key = some (p.2.role.figure minY t)
  nothing : ∀ key, (∀ i p t, roster[i]? = some p → status i = some t → p.2.role.key ≠ key) →
    client.look key = none

/-- The lives of a roster. -/
def lives (roster : Roster) : List Life := roster.map (·.2)

/-- The lives of a roster are those at its places. -/
theorem mem_lives {life : Life} :
    life ∈ roster.lives ↔
      ∃ (i : Nat) (p : ThingRecord × Life), roster[i]? = some p ∧ p.2 = life := by
  rw [lives, List.mem_map]
  constructor
  · rintro ⟨p, hp, rfl⟩
    obtain ⟨i, hi⟩ := List.mem_iff_getElem?.1 hp
    exact ⟨i, p, hi, rfl⟩
  · rintro ⟨i, p, hp, rfl⟩
    exact ⟨p, List.mem_of_getElem? hp, rfl⟩

/-- **Showing the lives alive at a time is displaying the roster as of then.** -/
theorem shows_iff_displays {t : Time} : client.Shows minY {life | life ∈ roster.lives} t ↔
    roster.Displays minY (fun i => if roster.alive t i then some t else none) client := by
  have hstatus : ∀ {i : Nat} {p : ThingRecord × Life} {s : Time}, roster[i]? = some p →
      ((if roster.alive t i then some t else none) = some s ↔ p.2.AliveAt t ∧ s = t) := by
    intro i p s hp
    by_cases halive : roster.alive t i = true
    · obtain ⟨q, hq, hlives⟩ := alive_iff.1 halive
      obtain rfl := Option.some.inj (hp.symm.trans hq)
      rw [if_pos halive, Option.some.injEq]
      exact ⟨fun h => ⟨hlives, h.symm⟩, fun h => h.2.symm⟩
    · rw [if_neg halive]
      exact ⟨fun h => absurd h (by simp), fun h => absurd (alive_iff.2 ⟨p, hp, h.1⟩) halive⟩
  constructor
  · intro h
    refine ⟨fun i p s hp hs => ?_, fun key hkey => h.nothing key fun life hlife halive => ?_⟩
    · obtain ⟨halive, rfl⟩ := (hstatus hp).1 hs
      exact h.living p.2 (mem_lives.2 ⟨i, p, hp, rfl⟩) halive
    · obtain ⟨i, p, hp, rfl⟩ := mem_lives.1 hlife
      exact hkey i p t hp ((hstatus hp).2 ⟨halive, rfl⟩)
  · intro h
    refine ⟨fun life hlife halive => ?_, fun key hkey => h.nothing key fun i p s hp hs => ?_⟩
    · obtain ⟨i, p, hp, rfl⟩ := mem_lives.1 hlife
      exact h.shown i p t hp ((hstatus hp).2 ⟨halive, rfl⟩)
    · exact hkey p.2 (mem_lives.2 ⟨i, p, hp, rfl⟩) ((hstatus hp).1 hs).1

/-! ### One member -/

/-- What is shown of one member changes. -/
theorem Displays.update (h : roster.Displays minY status client) {i : Nat}
    {p : ThingRecord × Life} (hp : roster[i]? = some p) (s : Option Time)
    (hbecomes : client.Becomes client' p.2.role.key (s.map fun t => p.2.role.figure minY t))
    (halone : ∀ j q, j ≠ i → roster[j]? = some q → status j ≠ none →
      q.2.role.key ≠ p.2.role.key) :
    roster.Displays minY (Function.update status i s) client' := by
  refine ⟨fun j q t hq ht => ?_, fun key hkey => ?_⟩
  · rw [hbecomes.look]
    -- the member itself is shown as it is now, and the others have other keys
    by_cases hji : j = i
    · subst hji
      obtain rfl := Option.some.inj (hp.symm.trans hq)
      rw [Function.update_self] at ht
      rw [Function.update_self, ht]
      rfl
    · rw [Function.update_of_ne hji] at ht
      rw [Function.update_of_ne (halone j q hji hq (by rw [ht]; simp))]
      exact h.shown j q t hq ht
  · rw [hbecomes.look]
    by_cases hkp : key = p.2.role.key
    · subst hkp
      rw [Function.update_self]
      cases s with
      | none => rfl
      | some t => exact absurd rfl (hkey i p t hp (Function.update_self ..))
    · rw [Function.update_of_ne hkp]
      refine h.nothing key fun j q t hq ht => ?_
      by_cases hji : j = i
      · subst hji
        obtain rfl := Option.some.inj (hp.symm.trans hq)
        exact Ne.symm hkp
      · exact hkey j q t hq (by rw [Function.update_of_ne hji, ht])

/-! ### Many members -/

/-- **Members are shown anew one after the other.** They and those that are shown have different
keys, and the packets of each do what they should to a client that shows it by its status. -/
theorem Displays.forEach {is : List Nat} (hnodup : is.Nodup) (s : Option Time)
    (f : Life → List Packet) (hclient : client.Sound) (hminY : client.minY = minY)
    (h : roster.Displays minY status client)
    (his : ∀ i ∈ is, i < roster.length)
    (halone : ∀ i p j q, roster[i]? = some p → roster[j]? = some q → i ≠ j →
      (i ∈ is ∨ status i ≠ none) → (j ∈ is ∨ status j ≠ none) → p.2.role.key ≠ q.2.role.key)
    (hstep : ∀ i ∈ is, ∀ p, roster[i]? = some p → ∀ c : Client, c.Sound → c.minY = minY →
      (∀ t, status i = some t → c.look p.2.role.key = some (p.2.role.figure minY t)) →
      c.Becomes (c.applyAll (f p.2)) p.2.role.key (s.map fun t => p.2.role.figure minY t)) :
    let client' := client.applyAll (is.flatMap (roster.packets f))
    client'.bare = client.bare ∧ client'.Sound ∧
      roster.Displays minY (fun j => if j ∈ is then s else status j) client' := by
  induction is generalizing client status with
  | nil =>
    simp only [List.not_mem_nil, if_false]
    exact ⟨rfl, hclient, h⟩
  | cons i is ih =>
    obtain ⟨hi, hnodup⟩ := List.nodup_cons.1 hnodup
    obtain ⟨p, hp⟩ : ∃ p, roster[i]? = some p :=
      ⟨_, List.getElem?_eq_getElem (his i List.mem_cons_self)⟩
    have hbecomes := hstep i List.mem_cons_self p hp client hclient hminY fun t ht =>
      h.shown i p t hp ht
    have hdisplays := h.update hp s hbecomes fun j q hji hq hj =>
      halone j q i p hq hp hji (.inr hj) (.inl List.mem_cons_self)
    -- the members that are still to come are as they were
    have hothers : ∀ j ∈ is, Function.update status i s j = status j := by
      intro j hj
      refine Function.update_of_ne ?_ ..
      rintro rfl
      exact hi hj
    have hcases : ∀ j, j ∈ is ∨ Function.update status i s j ≠ none →
        j ∈ i :: is ∨ status j ≠ none := by
      rintro j (hj | hj)
      · exact .inl (List.mem_cons_of_mem _ hj)
      · by_cases hji : j = i
        · exact .inl (hji ▸ List.mem_cons_self)
        · rw [Function.update_of_ne hji] at hj
          exact .inr hj
    obtain ⟨hbare, hsound, hrest⟩ := ih hnodup hbecomes.sound (hbecomes.minY.trans hminY) hdisplays
      (fun j hj => his j (List.mem_cons_of_mem _ hj))
      (fun j q k r hq hr hjk hj hk => halone j q k r hq hr hjk (hcases j hj) (hcases k hk))
      fun j hj q hq c hc hcY hshown => hstep j (List.mem_cons_of_mem _ hj) q hq c hc hcY fun t ht =>
        hshown t (by rw [hothers j hj, ht])
    rw [List.flatMap_cons, packets_eq hp, Client.applyAll_append]
    refine ⟨hbare.trans hbecomes.bare, hsound, ?_⟩
    have hstatus : (fun j => if j ∈ is then s else Function.update status i s j) =
        fun j => if j ∈ i :: is then s else status j := by
      funext j
      by_cases hj : j ∈ is
      · rw [if_pos hj, if_pos (List.mem_cons_of_mem _ hj)]
      · rw [if_neg hj]
        by_cases hji : j = i
        · rw [hji, Function.update_self, if_pos List.mem_cons_self]
        · rw [Function.update_of_ne hji, if_neg (by simp [hji, hj])]
    rwa [hstatus] at hrest

/-! ### Whole steps -/

/-- Members that live at the same moment have different keys. -/
theorem key_ne_of_alive (h : roster.lives.Pairwise Life.Apart) {i j : Nat}
    {p q : ThingRecord × Life} (hp : roster[i]? = some p) (hq : roster[j]? = some q) (hij : i ≠ j)
    {t : Time} (hi : roster.alive t i = true) (hj : roster.alive t j = true) :
    p.2.role.key ≠ q.2.role.key := by
  obtain ⟨p', hp', halive⟩ := alive_iff.1 hi
  obtain rfl := Option.some.inj (hp.symm.trans hp')
  obtain ⟨q', hq', halive'⟩ := alive_iff.1 hj
  obtain rfl := Option.some.inj (hq.symm.trans hq')
  have hpair := List.pairwise_iff_getElem.1 (List.pairwise_map.1 h)
  obtain ⟨hi, rfl⟩ := List.getElem?_eq_some_iff.1 hp
  obtain ⟨hj, rfl⟩ := List.getElem?_eq_some_iff.1 hq
  intro hkey
  rcases Nat.lt_or_gt_of_ne hij with hlt | hlt
  · exact hpair i j hi hj hlt hkey t ⟨halive, halive'⟩
  · exact hpair j i hj hi hlt hkey.symm t ⟨halive', halive⟩

variable (hsound : ∀ p ∈ roster, p.2.Sound minY) (hapart : roster.lives.Pairwise Life.Apart)
include hapart

/-- Members go. -/
theorem Displays.departures {is : List Nat} (hnodup : is.Nodup) (hclient : client.Sound)
    (hminY : client.minY = minY) (h : roster.Displays minY status client) {t : Time}
    (his : ∀ i ∈ is, roster.alive t i = true)
    (halive : ∀ i, status i ≠ none → roster.alive t i = true) :
    (client.applyAll (roster.departures is)).bare = client.bare ∧
      (client.applyAll (roster.departures is)).Sound ∧
      roster.Displays minY (fun j => if j ∈ is then none else status j)
        (client.applyAll (roster.departures is)) := by
  refine h.forEach hnodup none (fun life => [life.role.disappearance]) hclient hminY
    (fun i hi => lt_length_of_alive (his i hi)) (fun i p j q hp hq hij hi hj => ?_)
    fun i _ p _ c hc _ _ => Life.departs hc
  exact key_ne_of_alive hapart hp hq hij (hi.elim (his i) (halive i)) (hj.elim (his j) (halive j))

include hsound

/-- Members come. -/
theorem Displays.arrivals {is : List Nat} (hnodup : is.Nodup) (hclient : client.Sound)
    (hminY : client.minY = minY) (h : roster.Displays minY status client) {t : Time}
    (his : ∀ i ∈ is, roster.alive t i = true)
    (halive : ∀ i, status i ≠ none → roster.alive t i = true) :
    (client.applyAll (roster.arrivals t is)).bare = client.bare ∧
      (client.applyAll (roster.arrivals t is)).Sound ∧
      roster.Displays minY (fun j => if j ∈ is then some t else status j)
        (client.applyAll (roster.arrivals t is)) := by
  refine h.forEach hnodup (some t) (fun life => life.arrival t) hclient hminY
    (fun i hi => lt_length_of_alive (his i hi)) (fun i p j q hp hq hij hi hj => ?_)
    fun i hi p hp c hc hcY _ => ?_
  · exact key_ne_of_alive hapart hp hq hij (hi.elim (his i) (halive i))
      (hj.elim (his j) (halive j))
  · obtain ⟨q, hq, hlives⟩ := alive_iff.1 (his i hi)
    obtain rfl := Option.some.inj (hp.symm.trans hq)
    exact Life.arrives (hsound p (List.mem_of_getElem? hp)) hc hcY hlives.1

/-- Members stay. -/
theorem Displays.passages {is : List Nat} (hnodup : is.Nodup) (hclient : client.Sound)
    (hminY : client.minY = minY) (h : roster.Displays minY status client) {direction : Direction}
    {a b : Time} (hlead : direction.leads a b) (his : ∀ i ∈ is, roster.alive b i = true)
    (hstays : ∀ i ∈ is, status i = some a ∧ roster.alive a i = true)
    (halive : ∀ i, status i ≠ none → roster.alive b i = true) :
    (client.applyAll (roster.passages direction a b is)).bare = client.bare ∧
      (client.applyAll (roster.passages direction a b is)).Sound ∧
      roster.Displays minY (fun j => if j ∈ is then some b else status j)
        (client.applyAll (roster.passages direction a b is)) := by
  refine h.forEach hnodup (some b) (fun life => life.role.shown direction a b) hclient hminY
    (fun i hi => lt_length_of_alive (his i hi)) (fun i p j q hp hq hij hi hj => ?_)
    fun i hi p hp c hc hcY hshown => ?_
  · exact key_ne_of_alive hapart hp hq hij (hi.elim (his i) (halive i))
      (hj.elim (his j) (halive j))
  · obtain ⟨q, hq, hlives⟩ := alive_iff.1 (his i hi)
    obtain rfl := Option.some.inj (hp.symm.trans hq)
    obtain ⟨hstatus, halive'⟩ := hstays i hi
    obtain ⟨q, hq, hlives'⟩ := alive_iff.1 halive'
    obtain rfl := Option.some.inj (hp.symm.trans hq)
    exact Life.passes (hsound p (List.mem_of_getElem? hp)) hc hcY hlead hlives'.1 hlives.1
      (hshown a hstatus)

/-- **Rebuilding shows the living**, on a client that shows the living of some moment or nothing. -/
theorem shows_assemble (hclient : client.Sound) (hminY : client.minY = minY)
    {leaving entering : List Nat} (hleaving : leaving.Nodup) (hentering : entering.Nodup)
    {s : Option Time} {t : Time}
    (hmem : ∀ i, i ∈ leaving ↔ s.any (roster.alive · i) = true)
    (hmem' : ∀ i, i ∈ entering ↔ roster.alive t i = true)
    (h : roster.Displays minY (fun i => s.bind fun s => if roster.alive s i then some s else none)
      client) :
    let client' := client.applyAll (roster.departures leaving ++ roster.arrivals t entering)
    client'.bare = client.bare ∧ client'.Sound ∧
      client'.Shows minY {life | life ∈ roster.lives} t := by
  -- when the first have gone nothing is shown
  have hgone : (client.applyAll (roster.departures leaving)).bare = client.bare ∧
      (client.applyAll (roster.departures leaving)).Sound ∧
      roster.Displays minY (fun _ => none) (client.applyAll (roster.departures leaving)) := by
    cases s with
    | none =>
      have hnil : leaving = [] := List.eq_nil_iff_forall_not_mem.2 fun i hi => by
        simpa using (hmem i).1 hi
      rw [hnil]
      exact ⟨rfl, hclient, h⟩
    | some s =>
      obtain ⟨hbare, hsound', hdisplays⟩ := h.departures hapart hleaving hclient hminY
        (fun i hi => (hmem i).1 hi) fun i hi => by simpa using hi
      refine ⟨hbare, hsound', ?_⟩
      have hstatus : (fun j => if j ∈ leaving then none
          else (some s).bind fun s => if roster.alive s j then some s else none) =
          fun _ => none := by
        funext j
        by_cases hj : j ∈ leaving
        · rw [if_pos hj]
        · have hgone : ¬ roster.alive s j = true := fun ha => hj ((hmem j).2 ha)
          rw [if_neg hj, Option.bind_some, if_neg hgone]
      rwa [hstatus] at hdisplays
  obtain ⟨hbare, hsound', hdisplays⟩ := hgone
  obtain ⟨hbare', hsound'', hdisplays'⟩ := hdisplays.arrivals hsound hapart hentering hsound'
    ((Client.minY_of_bare hbare).trans hminY) (fun i hi => (hmem' i).1 hi)
    fun i hi => absurd rfl hi
  have hstatus : (fun j => if j ∈ entering then some t else none) =
      fun i => if roster.alive t i then some t else none := by
    funext j
    simp only [hmem']
  rw [hstatus] at hdisplays'
  rw [Client.applyAll_append]
  exact ⟨hbare'.trans hbare, hsound'', shows_iff_displays.2 hdisplays'⟩

/-- **An incremental step shows the living of its target**, on a client that shows those of its
start. -/
theorem shows_advance (hclient : client.Sound) (hminY : client.minY = minY)
    {direction : Direction} {a b : Time} (hlead : direction.leads a b)
    {leaving entering staying : List Nat}
    (hparts : roster.Parts direction a b leaving entering staying)
    (h : client.Shows minY {life | life ∈ roster.lives} a) :
    let client' := client.applyAll (roster.departures leaving ++ (roster.arrivals b entering ++
      roster.passages direction a b staying))
    client'.bare = client.bare ∧ client'.Sound ∧
      client'.Shows minY {life | life ∈ roster.lives} b := by
  obtain ⟨hleaving, hmem, hentering, hmem', hstaying, hmem''⟩ := hparts
  have hnodup := nodup_of_precedes hleaving
  have hnodup' := nodup_of_precedes hentering
  have hnodup'' := hstaying.imp Nat.ne_of_lt
  have hstart : ∀ i, (if roster.alive a i then some a else none) ≠ none →
      roster.alive a i = true := fun i hi => by simpa using hi
  obtain ⟨hbare₁, hsound₁, hdisplays₁⟩ := (shows_iff_displays.1 h).departures hapart hnodup hclient
    hminY (fun i hi => ((hmem i).1 hi).1) hstart
  -- from now on everything that is shown lives at the target
  have hlasting : ∀ i, (if i ∈ leaving then none else if roster.alive a i then some a else none) ≠
      none → roster.alive b i = true := by
    intro i hi
    by_cases hl : i ∈ leaving
    · rw [if_pos hl] at hi
      exact absurd rfl hi
    · rw [if_neg hl] at hi
      exact Classical.not_not.1 fun hb => hl ((hmem i).2 ⟨hstart i hi, hb⟩)
  have hminY₁ := (Client.minY_of_bare hbare₁).trans hminY
  obtain ⟨hbare₂, hsound₂, hdisplays₂⟩ := hdisplays₁.arrivals hsound hapart hnodup' hsound₁ hminY₁
    (fun i hi => ((hmem' i).1 hi).1) hlasting
  have hminY₂ := (Client.minY_of_bare hbare₂).trans hminY₁
  obtain ⟨hbare₃, hsound₃, hdisplays₃⟩ := hdisplays₂.passages hsound hapart hnodup'' hsound₂ hminY₂
    hlead (fun i hi => ((hmem'' i).1 hi).2) (fun i hi => by
      obtain ⟨ha, hb⟩ := (hmem'' i).1 hi
      have hentered : i ∉ entering := fun he => ((hmem' i).1 he).2 ha
      have hleft : i ∉ leaving := fun hl => ((hmem i).1 hl).2 hb
      rw [if_neg hentered, if_neg hleft, if_pos ha]
      exact ⟨rfl, ha⟩) (fun i hi => by
      by_cases he : i ∈ entering
      · exact ((hmem' i).1 he).1
      · rw [if_neg he] at hi
        exact hlasting i hi)
  have hstatus : (fun j => if j ∈ staying then some b else if j ∈ entering then some b
      else if j ∈ leaving then none else if roster.alive a j then some a else none) =
      fun i => if roster.alive b i then some b else none := by
    funext j
    simp only [hmem'', hmem', hmem]
    cases ha : roster.alive a j <;> cases hb : roster.alive b j <;> simp
  rw [hstatus] at hdisplays₃
  rw [Client.applyAll_append, Client.applyAll_append]
  exact ⟨hbare₃.trans (hbare₂.trans hbare₁), hsound₃, shows_iff_displays.2 hdisplays₃⟩

end Roster

end Playhead
