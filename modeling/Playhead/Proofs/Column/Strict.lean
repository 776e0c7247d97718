import Playhead.Proofs.Column.Grammar

/-!
# Strict containers

What a container does is defined for all of them, also for those whose form does not hold together:
a word or an id of a palette that is not there counts as zero, and a shift goes by its amount modulo
the width of a word. Here the same is done **strictly**: every division, every shift and every
lookup is checked first, and stops the run if it may not be made (`Playhead.Trap`).

Where the form of a container holds, a strict run does not stop, and comes to the same: there is one
lemma for each operation, up to `Playhead.Container.Formed.strictExchange_eq`. Reading does not need
a form, it makes one, so no byte string stops a strict reader
(`Playhead.Container.strictDecode_eq`).
-/

namespace Playhead

/-- What stops a strict run. -/
inductive Trap where
  /-- A division by zero. -/
  | division
  /-- A shift by 64 bits or more. -/
  | shift
  /-- No such word in packed data. -/
  | word
  /-- No such id in a palette. -/
  | slot
  /-- No such section. -/
  | level
  deriving DecidableEq, Repr

/-! ### Strict operations -/

namespace Strict

/-- Division, which traps at zero. -/
def divide (n d : Nat) : Except Trap Nat :=
  if d = 0 then .error .division else .ok (n / d)

/-- A shift to the left, which traps at the width of the word. -/
def shiftLeft (w : UInt64) (n : Nat) : Except Trap UInt64 :=
  if n < 64 then .ok (w <<< UInt64.ofNat n) else .error .shift

/-- A shift to the right, which traps at the width of the word. -/
def shiftRight (w : UInt64) (n : Nat) : Except Trap UInt64 :=
  if n < 64 then .ok (w >>> UInt64.ofNat n) else .error .shift

/-- The number of different entries of some width, which is found by a shift. -/
def capacity (bits : Nat) : Except Trap Nat :=
  if bits < 64 then .ok (Nat.pow 2 bits) else .error .shift

/-- A member of an array. -/
def look {α : Type} (trap : Trap) (xs : Array α) (i : Nat) : Except Trap α :=
  match xs[i]? with
  | some x => .ok x
  | none => .error trap

/-- The lowest bits, as many as the width. -/
def mask (bits : Nat) : Except Trap UInt64 := do
  let above ← shiftLeft 1 bits
  return above - 1

/-- A strict reader after another one, which may have refused the bytes. -/
def andThen {α β : Type} (read : Except Failure α) (f : α → Except Trap (Except Failure β)) :
    Except Trap (Except Failure β) :=
  match read with
  | .ok a => f a
  | .error e => .ok (.error e)

end Strict

open Strict (divide shiftLeft shiftRight capacity look mask andThen)

namespace PackedArray

/-- The word of an entry, and where in it the entry starts. -/
def strictPlace (a : PackedArray) (i : Nat) : Except Trap (Nat × Nat) := do
  let perWord ← divide 64 a.bits
  let word ← divide i perWord
  return (word, i % perWord * a.bits)

/-- An entry; its word has to be there. -/
def strictGet (a : PackedArray) (i : Nat) : Except Trap UInt64 := do
  let (word, shift) ← a.strictPlace i
  let w ← look .word a.words word
  let shifted ← shiftRight w shift
  let ones ← mask a.bits
  return shifted &&& ones

/-- Sets an entry; its word has to be there. -/
def strictSet (a : PackedArray) (i : Nat) (value : UInt64) : Except Trap PackedArray := do
  let (word, shift) ← a.strictPlace i
  let ones ← mask a.bits
  let w ← look .word a.words word
  let hole ← shiftLeft ones shift
  let entry ← shiftLeft (value &&& ones) shift
  return { a with words := a.words.setIfInBounds word ((w &&& ~~~hole) ||| entry) }

/-- An array of zeros, of as many words as its entries take. -/
def strictZeros (bits length : Nat) : Except Trap PackedArray := do
  let perWord ← divide 64 bits
  let count ← divide (length + perWord - 1) perWord
  return ⟨bits, length, Array.replicate count 0⟩

/-- The array in which every entry is what `f` looks up. -/
def strictTabulate (bits length : Nat) (f : Nat → Except Trap UInt64) :
    Except Trap PackedArray := do
  let zeros ← strictZeros bits length
  (List.range length).foldlM (fun a i => do a.strictSet i (← f i)) zeros

/-- Reads the words of an array; how many there are is found by division. -/
def strictDecode (bits length : Nat) (bytes : Bytes) :
    Except Trap (Except Failure (PackedArray × Bytes)) := do
  let perWord ← divide 64 bits
  let count ← divide (length + perWord - 1) perWord
  return (decodeWords count #[] bytes).map fun (words, rest) => (⟨bits, length, words⟩, rest)

end PackedArray

namespace Container

/-- An entry of a container; slots and palettes have to have it. -/
def strictGet (c : Container) (i : Nat) : Except Trap Int32 :=
  match c.packing with
  | .single id => .ok id
  | .indirect palette slots => do look .slot palette (← slots.strictGet i).toNat
  | .direct ids => do return entryToId (← ids.strictGet i)

/-- Stores an entry; slots and palettes have to have room for it. -/
def strictStore (kind : ContainerKind) (i : Nat) (id : Int32) : Packing → Except Trap Packing
  | .single current => do
    let slots ← PackedArray.strictZeros (max kind.minBits 1) kind.entries
    return .indirect #[current, id] (← slots.strictSet i 1)
  | .indirect palette slots =>
    match palette.idxOf? id with
    | some slot => do return .indirect palette (← slots.strictSet i (UInt64.ofNat slot))
    | none => do
      -- a full palette is widened, or gives way to direct ids
      if palette.size < (← capacity slots.bits) then
        return .indirect (palette.push id) (← slots.strictSet i (UInt64.ofNat palette.size))
      else
        let bits := max (bitsFor (palette.size + 1)) kind.minBits
        if bits ≤ kind.maxIndirectBits then
          let wider ← PackedArray.strictTabulate bits slots.length slots.strictGet
          return .indirect (palette.push id) (← wider.strictSet i (UInt64.ofNat palette.size))
        else
          let ids ← PackedArray.strictTabulate kind.globalBits kind.entries fun j => do
            return idToEntry (← look .slot palette (← slots.strictGet j).toNat)
          return .direct (← ids.strictSet i (idToEntry id))
  | .direct ids => do return .direct (← ids.strictSet i (idToEntry id))

/-- The id at an index, and the container in which another one has taken its place. -/
def strictExchange (c : Container) (i : Nat) (id : Int32) : Except Trap (Int32 × Container) := do
  let previous ← c.strictGet i
  if previous = id then return (previous, c)
  else return (previous, { c with packing := ← strictStore c.kind i id c.packing })

/-- Reads a palette and its slots. -/
def strictDecodeIndirect (kind : ContainerKind) (bits : Nat) (bytes : Bytes) :
    Except Trap (Except Failure (Packing × Bytes)) :=
  andThen ((Wire.length.decode bytes).mapError .wire) fun (size, rest) => do
    if size = 0 ∨ (← capacity bits) < size then return .error (.malformedColumn .paletteSize)
    else
      andThen ((Wire.varint.decodeMany size [] rest).mapError .wire) fun (ids, rest) => do
        andThen (← PackedArray.strictDecode bits kind.entries rest) fun (slots, rest) => do
          let inside ← (List.range kind.entries).allM fun i => do
            return (← slots.strictGet i).toNat < ids.toArray.size
          if inside then return .ok (.indirect ids.toArray slots, rest)
          else return .error (.malformedColumn .paletteIndex)

/-- Reads what is stored in a container. -/
def strictDecodePacking (kind : ContainerKind) :
    Bytes → Except Trap (Except Failure (Packing × Bytes))
  | [] => .ok (.error .endOfInput)
  | width :: rest =>
    let bits := width.toNat
    if bits = 0 then
      andThen ((Wire.varint.decode rest).mapError .wire) fun (id, rest) =>
        .ok (.ok (.single id, rest))
    else if bits ≤ kind.maxIndirectBits then strictDecodeIndirect kind bits rest
    else if bits ≤ 32 then do
      andThen (← PackedArray.strictDecode bits kind.entries rest) fun (ids, rest) =>
        .ok (.ok (.direct ids, rest))
    else .ok (.error (.malformedColumn .entryWidth))

/-- Reads a container. -/
def strictDecode (kind : ContainerKind) (bytes : Bytes) :
    Except Trap (Except Failure (Container × Bytes)) := do
  andThen (← strictDecodePacking kind bytes) fun (packing, rest) =>
    .ok (.ok (⟨kind, packing⟩, rest))

end Container

/-! ### Where the form holds, strict is plain -/

namespace Strict

theorem divide_eq {n d : Nat} (h : 0 < d) : divide n d = .ok (n / d) :=
  if_neg (Nat.ne_of_gt h)

/-- What is inside is looked up. -/
theorem look_eq {α : Type} {trap : Trap} {xs : Array α} {i : Nat} (h : i < xs.size) (x : α) :
    look trap xs i = .ok (xs.getD i x) := by
  rw [look, Array.getElem?_eq_getElem h, Array.getD_eq_getD_getElem?, Array.getElem?_eq_getElem h]
  rfl

theorem mask_eq {bits : Nat} (h : bits < 64) : mask bits = .ok (lowOnes bits) := by
  rw [mask, shiftLeft, if_pos h]
  rfl

/-- A member of an array that has been looked up is replaced. -/
theorem setIfInBounds_eq_modify {α : Type} {xs : Array α} {i : Nat} {x : α} (h : xs[i]? = some x)
    (f : α → α) : xs.setIfInBounds i (f x) = xs.modify i f := by
  refine Array.ext_getElem? fun k => ?_
  rw [Array.getElem?_setIfInBounds, Array.getElem?_modify]
  split
  · next hk =>
    subst hk
    rw [h, if_pos (Array.getElem?_eq_some_iff.1 h).1]
    rfl
  · rfl

/-- Where the second reader does not stop, both are one plain reader. -/
theorem andThen_eq {α β : Type} {read : Except Failure α}
    {f : α → Except Trap (Except Failure β)} {g : α → Except Failure β}
    (h : ∀ a, read = .ok a → f a = .ok (g a)) : andThen read f = .ok (read >>= g) := by
  cases read with
  | ok a => exact h a rfl
  | error e => rfl

/-- A check that never traps is the plain check. -/
theorem allM_eq {p : Nat → Except Trap Bool} {q : Nat → Bool} {is : List Nat}
    (h : ∀ i ∈ is, p i = .ok (q i)) : is.allM p = .ok (is.all q) := by
  induction is with
  | nil => rfl
  | cons i is ih =>
    have hrest := ih fun j hj => h j (List.mem_cons_of_mem _ hj)
    simp only [List.allM, h i List.mem_cons_self, hrest, bind, Except.bind, List.all_cons]
    cases q i <;> rfl

end Strict

namespace PackedArray

variable {a : PackedArray} {i : Nat}

/-- An entry of an array that holds together has a place. -/
theorem WellFormed.strictPlace_eq (h : a.WellFormed) (i : Nat) :
    a.strictPlace i = .ok (a.wordIndex i, a.shift i) := by
  rw [strictPlace, Strict.divide_eq h.pos]
  change divide i (perWord a.bits) >>= _ = _
  rw [Strict.divide_eq (perWord_pos h.lt h.pos)]
  rfl

/-- An entry below the length is looked up without a trap. -/
theorem WellFormed.strictGet_eq (h : a.WellFormed) (hi : i < a.length) :
    a.strictGet i = .ok (a.get i) := by
  simp only [strictGet, h.strictPlace_eq, Strict.look_eq (h.wordIndex_lt hi) 0, Strict.mask_eq h.lt,
    shiftRight, if_pos (h.shift_lt i), bind, Except.bind]
  rfl

/-- An entry below the length is set without a trap. -/
theorem WellFormed.strictSet_eq (h : a.WellFormed) (hi : i < a.length) (value : UInt64) :
    a.strictSet i value = .ok (a.set i value) := by
  have hword := Array.getElem?_eq_getElem (h.wordIndex_lt hi)
  have hset := Strict.setIfInBounds_eq_modify hword fun w => withEntry w (a.shift i) a.bits value
  simp only [strictSet, h.strictPlace_eq, Strict.mask_eq h.lt, look, hword, shiftLeft,
    if_pos (h.shift_lt i), bind, Except.bind, pure, Except.pure, PackedArray.set, ← hset]
  rfl

/-- Zeros are made without a trap. -/
theorem strictZeros_eq {bits : Nat} (hp : 0 < bits) (hb : bits < 64) (length : Nat) :
    strictZeros bits length = .ok (zeros bits length) := by
  rw [strictZeros, Strict.divide_eq hp]
  change divide (length + perWord bits - 1) (perWord bits) >>= _ = _
  rw [Strict.divide_eq (perWord_pos hb hp)]
  rfl

/-- Words are read without a trap. -/
theorem strictDecode_eq {bits : Nat} (hp : 0 < bits) (hb : bits < 64) (length : Nat)
    (bytes : Bytes) : strictDecode bits length bytes = .ok (decode bits length bytes) := by
  rw [strictDecode, Strict.divide_eq hp]
  change divide (length + perWord bits - 1) (perWord bits) >>= _ = _
  rw [Strict.divide_eq (perWord_pos hb hp), decode]
  change Except.ok ((decodeWords (wordCount bits length) #[] bytes).map _) = _
  cases decodeWords (wordCount bits length) #[] bytes <;> rfl

/-- Entries that can all be looked up can all be written. -/
theorem strictTabulate_eq {bits length : Nat} (hp : 0 < bits) (hb : bits < 64)
    {f : Nat → Except Trap UInt64} {g : Nat → UInt64} (hf : ∀ i < length, f i = .ok (g i)) :
    strictTabulate bits length f = .ok (tabulate bits length g) := by
  have hsteps : ∀ (is : List Nat) (a : PackedArray), a.WellFormed → a.length = length →
      (∀ i ∈ is, i < length) → is.foldlM (fun a i => do a.strictSet i (← f i)) a =
        .ok (is.foldl (fun a i => a.set i (g i)) a) := by
    intro is
    induction is with
    | nil => exact fun _ _ _ _ => rfl
    | cons i is ih =>
      intro a hwf hlength his
      have hi := his i List.mem_cons_self
      rw [List.foldlM_cons, hf i hi]
      change a.strictSet i (g i) >>= _ = _
      rw [hwf.strictSet_eq (hlength ▸ hi)]
      exact ih (a.set i (g i)) (hwf.set i (g i)) hlength fun j hj =>
        his j (List.mem_cons_of_mem _ hj)
  rw [strictTabulate, strictZeros_eq hp hb]
  exact hsteps _ _ (.zeros hp hb length) rfl fun i hi => List.mem_range.1 hi

end PackedArray

namespace Container

section Store

variable {kind : ContainerKind} {i : Nat}

/-- A slot is looked up in its array, and its id in the palette. -/
theorem SlotsFormed.strictGet_eq {palette : Array Int32} {slots : PackedArray}
    (h : SlotsFormed kind palette slots) (hi : i < kind.entries) :
    slots.strictGet i = .ok (slots.get i) ∧
      look .slot palette (slots.get i).toNat = .ok (palette.getD (slots.get i).toNat 0) :=
  ⟨h.wellFormed.strictGet_eq (h.length.symm ▸ hi), Strict.look_eq (h.lt i hi) 0⟩

/-- Storing into a palette does not trap, and stores the same. -/
theorem strictStore_indirect (hkind : kind.Proper) {palette : Array Int32} {slots : PackedArray}
    (h : SlotsFormed kind palette slots) (hi : i < kind.entries) (id : Int32) :
    strictStore kind i id (.indirect palette slots) =
      .ok (store kind i id (.indirect palette slots)) := by
  have hslots (value : UInt64) : slots.strictSet i value = .ok (slots.set i value) :=
    h.wellFormed.strictSet_eq (h.length.symm ▸ hi) value
  have hcapacity : capacity slots.bits = .ok (Nat.pow 2 slots.bits) := if_pos h.wellFormed.lt
  obtain ⟨-, hmax, hglobal⟩ := hkind
  simp only [strictStore, store]
  cases hslot : palette.idxOf? id with
  | some slot =>
    dsimp only
    rw [hslots]
    rfl
  | none =>
    simp only [hcapacity, bind, Except.bind]
    split
    · -- there is room in the palette
      rw [hslots]
      rfl
    · have hpos : 0 < max (bitsFor (palette.size + 1)) kind.minBits := by
        have hsome : ¬ palette.size + 1 ≤ 1 := by
          have := Nat.lt_of_le_of_lt (Nat.zero_le _) (h.lt i hi)
          omega
        rw [bitsFor, if_neg hsome]
        omega
      split
      · -- the slots are widened
        next hle =>
        obtain ⟨hwf, -, hlength, -⟩ := PackedArray.get_resized slots _ hpos (by omega)
        rw [PackedArray.strictTabulate_eq hpos (by omega) fun j hj =>
          h.wellFormed.strictGet_eq hj]
        change PackedArray.strictSet (slots.resized _) i _ >>= _ = _
        rw [hwf.strictSet_eq (by rw [hlength, h.length]; exact hi)]
        rfl
      · -- direct ids take over
        have hglobalPos : 0 < kind.globalBits := by omega
        obtain ⟨hwf, -, hlength, -⟩ := PackedArray.get_tabulate kind.globalBits hglobalPos
          (by omega) kind.entries fun j => idToEntry (palette.getD (slots.get j).toNat 0)
        rw [PackedArray.strictTabulate_eq hglobalPos (by omega)
          (g := fun j => idToEntry (palette.getD (slots.get j).toNat 0)) fun j hj => by
            obtain ⟨hget, hlook⟩ := h.strictGet_eq hj
            simp only [hget, hlook]
            rfl]
        change PackedArray.strictSet (PackedArray.tabulate _ _ _) i _ >>= _ = _
        rw [hwf.strictSet_eq (hlength.symm ▸ hi)]
        rfl

/-- **Storing an id is done in bounds**, whatever form it takes. -/
theorem strictStore_eq (hkind : kind.Proper) {packing : Packing} (h : PackingFormed kind packing)
    (hi : i < kind.entries) (id : Int32) :
    strictStore kind i id packing = .ok (store kind i id packing) := by
  cases packing with
  | single current =>
    obtain ⟨hmin, hmax, hglobal⟩ := hkind
    have hpos : 0 < max kind.minBits 1 := by omega
    have hlt : max kind.minBits 1 < 64 := by omega
    simp only [strictStore, PackedArray.strictZeros_eq hpos hlt, bind, Except.bind,
      (PackedArray.WellFormed.zeros hpos hlt kind.entries).strictSet_eq hi]
    rfl
  | indirect palette slots => exact strictStore_indirect hkind h hi id
  | direct ids =>
    have hids : DirectFormed kind ids := h
    simp only [strictStore, hids.wellFormed.strictSet_eq (hids.length.symm ▸ hi), bind, Except.bind]
    rfl

end Store

variable {c : Container} {i : Nat}

/-- An entry of a container that is formed is looked up without a trap. -/
theorem Formed.strictGet_eq (h : c.Formed) (hi : i < c.kind.entries) :
    c.strictGet i = .ok (c.get i) := by
  obtain ⟨kind, packing⟩ := c
  cases packing with
  | single => rfl
  | indirect palette slots =>
    obtain ⟨hget, hlook⟩ := SlotsFormed.strictGet_eq h hi
    simp only [strictGet, hget, bind, Except.bind, hlook]
    rfl
  | direct ids =>
    have hids : DirectFormed kind ids := h
    simp only [strictGet, hids.wellFormed.strictGet_eq (hids.length.symm ▸ hi), bind, Except.bind]
    rfl

/-- A slot outside the palette stops a strict run. -/
example : strictGet ⟨⟨1, 1, 1, 2⟩, .indirect #[] ⟨1, 1, #[0]⟩⟩ 0 = .error .slot := rfl

/-- An entry of a container that is formed is exchanged without a trap. -/
theorem Formed.strictExchange_eq (h : c.Formed) (hkind : c.kind.Proper) (hi : i < c.kind.entries)
    (id : Int32) : c.strictExchange i id = .ok (c.exchange i id) := by
  simp only [strictExchange, h.strictGet_eq hi, strictStore_eq hkind h hi id, bind, Except.bind,
    exchange, Container.set]
  split <;> rfl

/-- What the slots of a palette are, if there is one: they are all inside it, it has no more ids
than they tell apart, and they take as many words as their number asks for. -/
def SlotsInside (c : Container) : Prop :=
  ∀ palette slots, c.packing = .indirect palette slots →
    (∀ i < c.kind.entries, (slots.get i).toNat < palette.size) ∧
      palette.size ≤ 2 ^ slots.bits ∧
        slots.words.size = c.kind.entries ⌈/⌉ (64 / slots.bits)

/-- The slots of a container that is formed lie in its palette. -/
theorem Formed.slotsInside (h : c.Formed) : c.SlotsInside := by
  obtain ⟨kind, packing⟩ := c
  rintro palette slots rfl
  have hslots : SlotsFormed kind palette slots := h
  refine ⟨hslots.lt, hslots.size, ?_⟩
  rw [hslots.wellFormed.words, PackedArray.wordCount_eq, hslots.length]

/-! ### Reading -/

variable {kind : ContainerKind} {bits : Nat}

/-- Palettes are read without a trap. -/
theorem strictDecodeIndirect_eq (hp : 0 < bits) (hb : bits < 64) (bytes : Bytes) :
    strictDecodeIndirect kind bits bytes = .ok (decodeIndirect kind bits bytes) := by
  have hcapacity : capacity bits = .ok (Nat.pow 2 bits) := if_pos hb
  refine Strict.andThen_eq fun (size, rest) _ => ?_
  simp only [hcapacity, bind, Except.bind]
  split
  · rfl
  · refine Strict.andThen_eq fun (ids, rest) _ => ?_
    rw [PackedArray.strictDecode_eq hp hb]
    refine Strict.andThen_eq fun (slots, rest) hslots => ?_
    obtain ⟨⟨hwf, -, hlength⟩, -⟩ := (PackedArray.decode_eq_ok_iff hp hb).1 hslots
    rw [Strict.allM_eq (q := fun i => (slots.get i).toNat < ids.toArray.size) fun i hi => by
      rw [hwf.strictGet_eq (hlength.symm ▸ List.mem_range.1 hi)]
      rfl]
    dsimp only
    split <;> rfl

/-- **No bytes stop a strict reader of containers.** -/
theorem strictDecode_eq (hmax : kind.maxIndirectBits < 64) (bytes : Bytes) :
    strictDecode kind bytes = .ok (decode kind bytes) := by
  have hpacking : strictDecodePacking kind bytes = .ok (decodePacking kind bytes) := by
    cases bytes with
    | nil => rfl
    | cons width rest =>
      simp only [strictDecodePacking, decodePacking]
      split
      · exact Strict.andThen_eq fun _ _ => rfl
      · next hpos =>
        have hpos := Nat.pos_of_ne_zero hpos
        split
        · exact strictDecodeIndirect_eq hpos (by omega) rest
        · split
          · rw [PackedArray.strictDecode_eq hpos (by omega)]
            exact Strict.andThen_eq fun _ _ => rfl
          · rfl
  rw [strictDecode, hpacking]
  exact Strict.andThen_eq fun _ _ => rfl

end Container

end Playhead
