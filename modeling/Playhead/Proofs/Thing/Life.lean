import Playhead.Proofs.Client
import Playhead.Proofs.Track

/-!
# Lives: what there is to know of a thing

A life says when a thing is there, what it is and what happens to it (`Playhead.Life`). What is
shown of it at a moment is its **figure** (`Playhead.Role.figure`). A client that shows the
figure of one moment shows that of another after the packets of the thing's track
(`Playhead.Life.passes`), a client that shows nothing shows it after its arrival
(`Playhead.Life.arrives`), and nothing is left of it after its departure
(`Playhead.Life.departs`). Everything else stays as it is.
-/

namespace Playhead

/-! ### What happens to one key -/

namespace Client

/-- What is shown under one key has become something else, and nothing else has changed. -/
structure Becomes (client client' : Client) (key : ThingKey) (figure : Option Figure) : Prop where
  look : client'.look = Function.update client.look key figure
  bare : client'.bare = client.bare
  sound : client'.Sound

namespace Becomes

variable {client client' client'' : Client} {key : ThingKey} {figure figure' : Option Figure}

theorem look_self (h : client.Becomes client' key figure) : client'.look key = figure := by
  rw [h.look, Function.update_self]

theorem minY (h : client.Becomes client' key figure) : client'.minY = client.minY :=
  minY_of_bare h.bare

theorem trans (h : client.Becomes client' key figure) (h' : client'.Becomes client'' key figure') :
    client.Becomes client'' key figure' :=
  ⟨by rw [h'.look, h.look, Function.update_idem], h'.bare.trans h.bare, h'.sound⟩

theorem refl (h : client.Sound) (hlook : client.look key = figure) :
    client.Becomes client key figure :=
  ⟨by rw [← hlook, Function.update_eq_self], rfl, h⟩

end Becomes

/-- A packet of a thing that changes one key. -/
theorem Sound.becomes {client : Client} (h : client.Sound) {p : Packet}
    (hthing : p.IsOfThing) (hsound : p.IsSound) {key : ThingKey} {figure : Option Figure}
    (hlook : (client.apply p).look = Function.update client.look key figure) :
    client.Becomes (client.apply p) key figure :=
  ⟨hlook, bare_apply client hthing, h.apply hsound⟩

/-- Block changes of one chunk are told one after the other, each by one of its states. -/
theorem Sound.tellChanges {client : Client} (h : client.Sound) (told : BlockChange → BlockState)
    {x z : Int32} {content : Content} (hlook : client.look (.chunk x z) = some (.chunk content))
    {changes : List BlockChange}
    (hch : ∀ c ∈ changes, c.position.chunk = (x, z) ∧ IdInRange (told c)) :
    client.Becomes (client.applyAll (changes.map fun c => .blockUpdate c.position (told c)))
      (.chunk x z) (some (.chunk (changes.foldl
        (fun content c => content.setBlock client.minY c.position (told c)) content))) := by
  induction changes generalizing client content with
  | nil => exact .refl h hlook
  | cons c changes ih =>
    obtain ⟨hchunk, hrange⟩ := hch c List.mem_cons_self
    have hkey : chunkKey c.position = .chunk x z := by rw [chunkKey, hchunk]
    have hfirst : client.Becomes (client.apply (.blockUpdate c.position (told c))) (.chunk x z)
        (some (.chunk (content.setBlock client.minY c.position (told c)))) := by
      have hthing : (Packet.blockUpdate c.position (told c)).IsOfThing := trivial
      refine h.becomes hthing hrange ?_
      rw [look_blockUpdate client h c.position hrange, hkey, hlook]
      rfl
    have hrest := ih hfirst.sound hfirst.look_self fun d hd => hch d (List.mem_cons_of_mem _ hd)
    rw [hfirst.minY] at hrest
    exact hfirst.trans hrest

/-- Block changes of one chunk are shown. -/
theorem Sound.runChanges {client : Client} (h : client.Sound) {x z : Int32} {content : Content}
    (hlook : client.look (.chunk x z) = some (.chunk content)) {changes : List BlockChange}
    (hch : ∀ c ∈ changes, c.position.chunk = (x, z) ∧ IdInRange c.after) :
    client.Becomes (client.applyAll (changes.map fun c => .blockUpdate c.position c.after))
      (.chunk x z) (some (.chunk (content.run client.minY changes))) :=
  h.tellChanges (fun c => c.after) hlook hch

/-- Block changes of one chunk are taken back. -/
theorem Sound.undoChanges {client : Client} (h : client.Sound) {x z : Int32} {content : Content}
    (hlook : client.look (.chunk x z) = some (.chunk content)) {changes : List BlockChange}
    (hch : ∀ c ∈ changes, c.position.chunk = (x, z) ∧ IdInRange c.before) :
    client.Becomes (client.applyAll (changes.map fun c => .blockUpdate c.position c.before))
      (.chunk x z) (some (.chunk (content.undo client.minY changes))) :=
  h.tellChanges (fun c => c.before) hlook hch

end Client

/-! ### Roles and lives -/

/-- What a thing is, how it appears, and what happens to it. -/
inductive Role where
  | entity (id : Int32) (uuid : Uuid) (kind : Int32) (place : Location) (line : Timeline Location)
  | chunk (x z : Int32) (data : Bytes) (line : Timeline (List BlockChange))
  | weather (line : Timeline Float32Bits)

/-- A thing from its appearance to its disappearance. -/
structure Life where
  spawn : Time
  despawn : Time
  role : Role

/-- The value in effect at a moment. -/
def Timeline.at? {V : Type} (line : Timeline V) (t : Time) : Option V := (line.floor? t).map (·.2)

/-- All block changes up to a moment, in order. -/
def Timeline.changesUpTo (line : Timeline (List BlockChange)) (t : Time) : List BlockChange :=
  (line.upTo t).flatMap (·.2)

namespace Timeline

variable {V : Type} {k t : Time}

/-- **What is in effect after an insertion at the end.** -/
theorem at?_insert {line : Timeline V} (h : ∀ e ∈ line.entries, e.1 ≤ k) (v : V) (t : Time) :
    at? (line.insert k v) t = if k ≤ t then some v else line.at? t := by
  rw [at?, floor?_insert h]
  split <;> rfl

/-- Before an insertion at the end, the changes are those that were. -/
theorem changesUpTo_insert_of_lt {line : Timeline (List BlockChange)}
    (h : ∀ e ∈ line.entries, e.1 ≤ k) (changes : List BlockChange) (ht : t < k) :
    changesUpTo (line.insert k changes) t = line.changesUpTo t := by
  rw [changesUpTo, upTo_insert_of_lt h changes ht, changesUpTo]

/-- From the last entry on all changes are counted. -/
theorem changesUpTo_eq {line : Timeline (List BlockChange)} (h : ∀ e ∈ line.entries, e.1 ≤ t) :
    line.changesUpTo t = line.entries.flatMap (·.2) := by
  rw [changesUpTo, upTo_eq_entries h]

/-- **Changes put at the end come after all others.** -/
theorem changesUpTo_insert {line : Timeline (List BlockChange)} (h : ∀ e ∈ line.entries, e.1 ≤ k)
    (changes : List BlockChange) (ht : k ≤ t) :
    changesUpTo (line.insert k ((line.get? k).getD [] ++ changes)) t =
      line.changesUpTo t ++ changes := by
  have hinsert : ∀ e ∈ (line.insert k ((line.get? k).getD [] ++ changes)).entries, e.1 ≤ t := by
    intro e he
    rcases SortedMap.mem_insert_iff.1 he with rfl | ⟨he, -⟩
    · exact ht
    · exact Int.le_trans (h e he) ht
  rw [changesUpTo_eq hinsert, changesUpTo_eq fun e he => Int.le_trans (h e he) ht,
    entries_insert h]
  conv_rhs => rw [entries_eq_append h]
  cases line.get? k <;> simp

end Timeline

namespace Role

/-- The key under which a thing is shown. -/
def key : Role → ThingKey
  | entity id .. => .entity id
  | chunk x z .. => .chunk x z
  | weather _ => .weather

/-- The packet with which a thing appears. -/
def appearance : Role → Packet
  | entity id uuid kind place _ => .spawnEntity id uuid kind place
  | chunk x z data _ => .chunkData x z data
  | weather _ => .beginRain

/-- The packet with which a thing disappears. -/
def disappearance : Role → Packet
  | entity id .. => .removeEntities [id]
  | chunk x z .. => .unloadChunk x z
  | weather _ => .endRain

/-- The loaded track of a thing. -/
def track (handle : Handle) : Role → ThingTrack
  | entity id _ _ _ line => .entity id ⟨handle, some line⟩
  | chunk _ _ _ line => .chunk ⟨handle, some line⟩
  | weather line => .weather ⟨handle, some line⟩

/-- The times at which something happens to a thing. -/
def times : Role → List Time
  | entity _ _ _ _ line => line.keys
  | chunk _ _ _ line => line.keys
  | weather line => line.keys

/-- What a step shows of a thing that stays. -/
def shown (direction : Direction) (start target : Time) : Role → List Packet
  | entity id _ _ _ line => line.shown (entityDiscipline id) direction start target
  | chunk _ _ _ line => line.shown chunkDiscipline direction start target
  | weather line => line.shown weatherDiscipline direction start target

/-- What is shown of a thing at a moment, in a world whose lowest height is `minY`. -/
def figure (minY : Int32) (t : Time) : Role → Figure
  | entity _ uuid kind place line => .entity ⟨uuid, kind, (line.at? t).getD place⟩
  | chunk _ _ data line =>
    match Column.decode data with
    | .ok column => .chunk (column.content.run minY (line.changesUpTo t))
    | .error _ => .chunk []
  | weather line => .rain ((line.at? t).getD 0)

/-- **A step of a loaded track shows what the role shows.** -/
theorem step_track (handle : Handle) (role : Role) (direction : Direction) (start target : Time) :
    (role.track handle).step direction start target = .ok (role.shown direction start target) := by
  cases role with
  | entity | chunk | weather => exact Track.step_loaded handle _ _ direction start target

theorem unload_track (handle : Handle) (role : Role) :
    (role.track handle).unload = .ofKey handle role.key := by
  cases role <;> rfl

end Role

namespace Life

/-- Whether a thing is there at a moment. -/
def AliveAt (life : Life) (t : Time) : Prop := life.spawn ≤ t ∧ t < life.despawn

instance (life : Life) (t : Time) : Decidable (life.AliveAt t) :=
  inferInstanceAs (Decidable (_ ∧ _))

/-- How a thing arrives as it is at a moment: it appears, and all that has happened to it since is
shown. -/
def arrival (life : Life) (t : Time) : List Packet :=
  life.role.appearance :: life.role.shown .forward origin t

/-- Whether what happens to a thing makes sense: an entity and rain have a place and a strength
from the beginning, and the block changes of a chunk lie in the chunk, are in range and find what
they change. -/
def Consistent (minY : Int32) (life : Life) : Prop :=
  match life.role with
  | .entity _ _ _ _ line => line.get? life.spawn ≠ none
  | .chunk x z data line => ∃ column, Column.decode data = .ok column ∧ column.InRange ∧
      Content.Chained minY column.content (line.entries.flatMap (·.2)) ∧
      ∀ e ∈ line.entries, ∀ c ∈ e.2,
        c.position.chunk = (x, z) ∧ IdInRange c.before ∧ IdInRange c.after
  | .weather line => line.get? life.spawn ≠ none

/-- A life that can be shown: it begins at a proper time, nothing happens before that, and what
happens makes sense. -/
structure Sound (minY : Int32) (life : Life) : Prop where
  nonneg : 0 ≤ life.spawn
  times : ∀ t ∈ life.role.times, life.spawn ≤ t
  consistent : life.Consistent minY

/-! ### Values in effect -/

variable {V : Type} {line : Timeline V} {spawn t : Time}

/-- From its beginning on a timeline has a value in effect. -/
theorem exists_floor? (h : line.get? spawn ≠ none) (ht : spawn ≤ t) :
    ∃ k v, line.floor? t = some (k, v) := by
  obtain ⟨v, hv⟩ := Option.ne_none_iff_exists'.1 h
  obtain ⟨k, w, hf, -⟩ := Timeline.exists_floor? (SortedMap.get?_eq_some_iff.1 hv) ht
  exact ⟨k, w, hf⟩

/-- What is shown of snapshots is the value in effect at the target, if that is a new one. -/
theorem shown_snapshots (emit : V → List Packet) {direction : Direction} {start : Time}
    (hlead : direction.leads start t) {k : Time} {v : V} (hf : line.floor? t = some (k, v)) :
    line.shown (.snapshots emit) direction start t =
      if line.floorKey? start = some k then [] else emit v := by
  have hkey : line.floorKey? t = some k := by rw [Timeline.floorKey?, hf]; rfl
  rw [Timeline.shown_snapshots hlead, hkey, hf, Option.map_some, Option.getD_some]

/-- From the moment before everything, the value in effect is shown. -/
theorem shown_origin (emit : V → List Packet) (hnonneg : 0 ≤ spawn)
    (htimes : ∀ k ∈ line.keys, spawn ≤ k) (ht : spawn ≤ t) {k : Time} {v : V}
    (hf : line.floor? t = some (k, v)) :
    line.shown (.snapshots emit) .forward origin t = emit v := by
  have hlead : Direction.forward.leads origin t := by
    rw [Direction.leads_forward, origin]
    lia
  rw [shown_snapshots emit hlead hf, if_neg]
  rw [Timeline.floorKey?, Timeline.floor?_eq_none_iff.2]
  · simp
  · intro e he
    have := htimes e.1 (List.mem_map_of_mem he)
    rw [origin]
    lia

theorem at?_eq_of_floorKey?_eq {a : Time} (h : line.floorKey? a = line.floorKey? t) :
    line.at? a = line.at? t := by
  rw [Timeline.at?, Timeline.at?, Timeline.floor?_eq_of_floorKey?_eq h]

/-! ### Changes up to a moment -/

/-- The changes up to a moment are those up to an earlier one and those in between. -/
theorem changesUpTo_append (line : Timeline (List BlockChange)) {a b : Time} (h : a ≤ b) :
    line.changesUpTo b = line.changesUpTo a ++ (line.between a b).flatMap (·.2) := by
  rw [Timeline.changesUpTo, Timeline.upTo_append_between line h, List.flatMap_append]
  rfl

/-- Whatever is chained as a whole is chained up to every moment. -/
theorem chained_changesUpTo {minY : Int32} {content : Content}
    {line : Timeline (List BlockChange)}
    (h : Content.Chained minY content (line.entries.flatMap (·.2))) (t : Time) :
    Content.Chained minY content (line.changesUpTo t) := by
  rw [Timeline.entries_eq_upTo_append line t, List.flatMap_append, Content.chained_append] at h
  exact h.1

/-- Between the origin and a moment is all up to the moment. -/
theorem between_origin {line : Timeline V} (hnonneg : 0 ≤ spawn)
    (htimes : ∀ k ∈ line.keys, spawn ≤ k) (t : Time) : line.between origin t = line.upTo t := by
  refine List.filter_congr fun e he => ?_
  have := htimes e.1 (List.mem_map_of_mem he)
  rw [decide_eq_decide, origin]
  exact ⟨fun h => h.2, fun h => ⟨by lia, h⟩⟩

/-- Forward, a chunk shows what its blocks become. -/
theorem shown_chunk_forward {line : Timeline (List BlockChange)} {a b : Time} (h : a ≤ b) :
    line.shown chunkDiscipline .forward a b =
      ((line.between a b).flatMap (·.2)).map fun c => .blockUpdate c.position c.after := by
  rw [chunkDiscipline, Timeline.shown_forward h, List.map_flatMap]

/-- Backward, a chunk shows what its blocks were, from the last change. -/
theorem shown_chunk_backward {line : Timeline (List BlockChange)} {a b : Time} (h : b ≤ a) :
    line.shown chunkDiscipline .backward a b =
      ((line.between b a).flatMap (·.2)).reverse.map fun c => .blockUpdate c.position c.before := by
  rw [chunkDiscipline, Timeline.shown_backward h, List.reverse_flatMap, List.map_flatMap]
  rfl

/-- A change up to a moment is of an entry. -/
theorem mem_changesUpTo {line : Timeline (List BlockChange)} {t : Time} {c : BlockChange}
    (h : c ∈ line.changesUpTo t) : ∃ e ∈ line.entries, c ∈ e.2 := by
  obtain ⟨e, he, hc⟩ := List.mem_flatMap.1 h
  exact ⟨e, List.mem_of_mem_filter he, hc⟩

/-! ### Arriving, passing, departing -/

variable {minY : Int32} {life : Life} {client : Client}

/-- **A departure leaves nothing of a thing.** -/
theorem departs (h : client.Sound) :
    client.Becomes (client.apply life.role.disappearance) life.role.key none := by
  cases hrole : life.role with
  | entity id uuid kind place line =>
    refine h.becomes (p := .removeEntities [id]) trivial trivial ?_
    funext key
    rw [Client.look_removeEntities, Function.update_apply]
    simp only [List.mem_singleton, exists_eq_left]
    rfl
  | chunk x z data line =>
    exact h.becomes (p := .unloadChunk x z) trivial trivial (Client.look_unloadChunk client x z)
  | weather line =>
    exact h.becomes (p := .endRain) Packet.isOfThing_endRain trivial (Client.look_endRain client)

/-- **An arrival shows a thing as it is at that moment.** -/
theorem arrives (hlife : life.Sound minY) (h : client.Sound) (hminY : client.minY = minY)
    {t : Time} (ht : life.spawn ≤ t) :
    client.Becomes (client.applyAll (life.arrival t)) life.role.key
      (some (life.role.figure minY t)) := by
  obtain ⟨spawn, despawn, role⟩ := life
  obtain ⟨hnonneg, htimes, hconsistent⟩ := hlife
  cases role with
  | entity id uuid kind place line =>
    -- the entity appears where it began and moves to where it is at once
    obtain ⟨k, v, hf⟩ := exists_floor? hconsistent ht
    have happear := h.becomes (p := .spawnEntity id uuid kind place) trivial trivial
      (Client.look_spawnEntity client id uuid kind place)
    have hmove := happear.sound.becomes (p := .teleportEntity id v false) trivial trivial
      (Client.look_teleportEntity _ id v false)
    rw [happear.look_self] at hmove
    have hshown : Role.shown .forward origin t (.entity id uuid kind place line) =
        [.teleportEntity id v false] :=
      shown_origin (fun location => [.teleportEntity id location false]) hnonneg htimes ht hf
    rw [arrival, hshown, Role.figure, Timeline.at?, hf]
    exact happear.trans hmove
  | weather line =>
    -- the rain begins and takes its strength at once
    obtain ⟨k, v, hf⟩ := exists_floor? hconsistent ht
    have happear := h.becomes (p := .beginRain) Packet.isOfThing_beginRain trivial
      (Client.look_beginRain client)
    have hlevel := happear.sound.becomes (p := .rainLevel v) (Packet.isOfThing_rainLevel v) trivial
      (Client.look_rainLevel _ v)
    rw [happear.look_self] at hlevel
    have hshown : Role.shown .forward origin t (.weather line) = [.rainLevel v] :=
      shown_origin (fun level => [.rainLevel level]) hnonneg htimes ht hf
    rw [arrival, hshown, Role.figure, Timeline.at?, hf]
    exact happear.trans hlevel
  | chunk x z data line =>
    obtain ⟨column, hdecode, hrange, hchained, hchanges⟩ := hconsistent
    have hsound : (Packet.chunkData x z data).IsSound := fun c hc => by
      obtain rfl := Except.ok.inj (hdecode.symm.trans hc)
      exact Column.sound_of_decode hdecode hrange
    have happear := h.becomes (p := .chunkData x z data) trivial hsound
      (Client.look_chunkData client hdecode)
    -- the chunk appears as it was sent, and its blocks change up to the moment
    have hafter : ∀ c ∈ line.changesUpTo t, c.position.chunk = (x, z) ∧ IdInRange c.after := by
      intro c hc
      obtain ⟨e, he, hce⟩ := mem_changesUpTo hc
      exact ⟨(hchanges e he c hce).1, (hchanges e he c hce).2.2⟩
    have hrun := happear.sound.runChanges happear.look_self hafter
    have horigin : origin ≤ t := by
      rw [origin]
      lia
    have hshown : Role.shown .forward origin t (.chunk x z data line) =
        (line.changesUpTo t).map fun c => .blockUpdate c.position c.after := by
      rw [Timeline.changesUpTo, ← between_origin hnonneg htimes]
      exact shown_chunk_forward horigin
    rw [arrival, hshown]
    simp only [Role.figure, hdecode]
    rw [happear.minY, hminY] at hrun
    exact happear.trans hrun

/-- **Snapshots lead from one moment to the other**, if each of them makes the client show it. When
the same one is in effect at both, nothing is shown, and nothing needs to be. -/
theorem passes_snapshots (emit : V → List Packet) (figure : Option V → Figure)
    (h : client.Sound) {key : ThingKey}
    (hemit : ∀ v, client.Becomes (client.applyAll (emit v)) key (some (figure (some v))))
    {direction : Direction} {a b k : Time} (hlead : direction.leads a b) {v : V}
    (hf : line.floor? b = some (k, v)) (hlook : client.look key = some (figure (line.at? a))) :
    client.Becomes (client.applyAll (line.shown (.snapshots emit) direction a b)) key
      (some (figure (line.at? b))) := by
  rw [shown_snapshots emit hlead hf]
  split
  · next hkey =>
    have hat : line.at? a = line.at? b :=
      at?_eq_of_floorKey?_eq (hkey.trans (by rw [Timeline.floorKey?, hf]; rfl))
    exact .refl h (hat ▸ hlook)
  · rw [Timeline.at?, hf]
    exact hemit v

/-- **Block changes lead from one moment to the other**, forwards by being made and backwards by
being taken back, the last first. -/
theorem passes_changes (h : client.Sound) {x z : Int32} {content : Content}
    {line : Timeline (List BlockChange)}
    (hchained : Content.Chained client.minY content (line.entries.flatMap (·.2)))
    (hchanges : ∀ e ∈ line.entries, ∀ c ∈ e.2,
      c.position.chunk = (x, z) ∧ IdInRange c.before ∧ IdInRange c.after)
    {direction : Direction} {a b : Time} (hlead : direction.leads a b)
    (hlook : client.look (.chunk x z) =
      some (.chunk (content.run client.minY (line.changesUpTo a)))) :
    client.Becomes (client.applyAll (line.shown chunkDiscipline direction a b)) (.chunk x z)
      (some (.chunk (content.run client.minY (line.changesUpTo b)))) := by
  have hbetween : ∀ {s t : Time}, ∀ c ∈ (line.between s t).flatMap (·.2),
      c.position.chunk = (x, z) ∧ IdInRange c.before ∧ IdInRange c.after := by
    intro s t c hc
    obtain ⟨e, he, hce⟩ := List.mem_flatMap.1 hc
    exact hchanges e (List.mem_of_mem_filter he) c hce
  cases direction with
  | forward =>
    have hle := Int.le_of_lt (Direction.leads_forward.1 hlead)
    have hafter : ∀ c ∈ (line.between a b).flatMap (·.2),
        c.position.chunk = (x, z) ∧ IdInRange c.after :=
      fun c hc => ⟨(hbetween c hc).1, (hbetween c hc).2.2⟩
    have hrun := h.runChanges hlook hafter
    rw [← Content.run_append, ← changesUpTo_append line hle] at hrun
    rw [shown_chunk_forward hle]
    exact hrun
  | backward =>
    have hle := Int.le_of_lt (Direction.leads_backward.1 hlead)
    -- the later changes are taken back from what all changes have made
    have hsplit := changesUpTo_append line hle
    have hbefore : ∀ c ∈ ((line.between b a).flatMap (·.2)).reverse,
        c.position.chunk = (x, z) ∧ IdInRange c.before := fun c hc =>
      ⟨(hbetween c (List.mem_reverse.1 hc)).1, (hbetween c (List.mem_reverse.1 hc)).2.1⟩
    have hundo := h.undoChanges hlook hbefore
    have hchain := chained_changesUpTo hchained a
    rw [hsplit, Content.chained_append] at hchain
    rw [hsplit, Content.run_append, Content.undo_run hchain.2] at hundo
    rw [shown_chunk_backward hle]
    exact hundo

/-- **A thing that stays passes from one moment to the other.** -/
theorem passes (hlife : life.Sound minY) (h : client.Sound) (hminY : client.minY = minY)
    {direction : Direction} {a b : Time} (hlead : direction.leads a b) (ha : life.spawn ≤ a)
    (hb : life.spawn ≤ b) (hlook : client.look life.role.key = some (life.role.figure minY a)) :
    client.Becomes (client.applyAll (life.role.shown direction a b)) life.role.key
      (some (life.role.figure minY b)) := by
  obtain ⟨spawn, despawn, role⟩ := life
  obtain ⟨-, -, hconsistent⟩ := hlife
  cases role with
  | entity id uuid kind place line =>
    obtain ⟨k, v, hf⟩ := exists_floor? hconsistent hb
    refine passes_snapshots (fun place => [.teleportEntity id place false])
      (fun found => .entity ⟨uuid, kind, found.getD place⟩) h (fun v => ?_) hlead hf hlook
    have hmove := h.becomes (p := .teleportEntity id v false) trivial trivial
      (Client.look_teleportEntity client id v false)
    rwa [show client.look (.entity id) = _ from hlook] at hmove
  | weather line =>
    obtain ⟨k, v, hf⟩ := exists_floor? hconsistent hb
    refine passes_snapshots (fun level => [.rainLevel level]) (fun found => .rain (found.getD 0)) h
      (fun v => ?_) hlead hf hlook
    have hlevel := h.becomes (p := .rainLevel v) (Packet.isOfThing_rainLevel v) trivial
      (Client.look_rainLevel client v)
    rwa [show client.look .weather = _ from hlook] at hlevel
  | chunk x z data line =>
    obtain ⟨column, hdecode, -, hchained, hchanges⟩ := hconsistent
    subst hminY
    simp only [Role.key, Role.figure, hdecode] at hlook ⊢
    exact passes_changes h hchained hchanges hlead hlook

end Life

end Playhead
