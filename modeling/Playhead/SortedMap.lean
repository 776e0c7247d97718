/-!
# Maps in key order

A finite map is the list of its entries, strictly increasing by key. The list is the view of the
map: it is what is shown, stored and compared, and every key occurs in it at most once.

The order of the keys comes from `Playhead.KeyOrder`, a strict linear order that can be computed.
-/

namespace Playhead

/-- A computable strict linear order. -/
class KeyOrder (K : Type) where
  before : K → K → Bool
  irrefl : ∀ a, before a a = false
  trans : ∀ a b c, before a b → before b c → before a c
  total : ∀ a b, before a b = false → before b a = false → a = b

instance : KeyOrder Int where
  before a b := a < b
  irrefl a := by simp
  trans a b c := by simp only [decide_eq_true_eq]; omega
  total a b := by simp only [decide_eq_false_iff_not]; omega

instance : KeyOrder Int32 where
  before a b := a < b
  irrefl a := by simp
  trans a b c := by
    simp only [decide_eq_true_eq, Int32.lt_iff_toInt_lt]; omega
  total a b := by
    simp only [decide_eq_false_iff_not, Int32.lt_iff_toInt_lt]
    intro h h'; exact Int32.toInt_inj.1 (by omega)

/-- Pairs in order of the first component, then of the second. -/
instance {K L : Type} [KeyOrder K] [KeyOrder L] [DecidableEq K] : KeyOrder (K × L) where
  before a b := KeyOrder.before a.1 b.1 || (a.1 = b.1 && KeyOrder.before a.2 b.2)
  irrefl a := by simp [KeyOrder.irrefl]
  trans a b c := by
    simp only [Bool.or_eq_true, Bool.and_eq_true, decide_eq_true_eq]
    rintro (h | ⟨h, h'⟩) (k | ⟨k, k'⟩)
    · exact .inl (KeyOrder.trans _ _ _ h k)
    · exact .inl (k ▸ h)
    · exact .inl (h ▸ k)
    · exact .inr ⟨h.trans k, KeyOrder.trans _ _ _ h' k'⟩
  total a b := by
    simp only [Bool.or_eq_false_iff, Bool.and_eq_false_imp, decide_eq_true_eq]
    rintro ⟨h, h'⟩ ⟨k, k'⟩
    have he := KeyOrder.total _ _ h k
    exact Prod.ext he (KeyOrder.total _ _ (h' he) (k' he.symm))

/-- A finite map as the list of its entries in key order. -/
structure SortedMap (K V : Type) [KeyOrder K] where
  entries : List (K × V)
  sorted : entries.Pairwise fun a b => KeyOrder.before a.1 b.1

namespace SortedMap

variable {K V W : Type} [KeyOrder K]

/-- The map without entries. -/
def empty : SortedMap K V := ⟨[], .nil⟩

instance : Inhabited (SortedMap K V) := ⟨empty⟩

/-- Places an entry in a list of entries, over one with the same key. -/
def insertEntry (k : K) (v : V) : List (K × V) → List (K × V)
  | [] => [(k, v)]
  | (k', v') :: rest =>
    if KeyOrder.before k k' then (k, v) :: (k', v') :: rest
    else if KeyOrder.before k' k then (k', v') :: insertEntry k v rest
    else (k, v) :: rest

theorem mem_insertEntry {k : K} {v : V} {l : List (K × V)} {e : K × V}
    (h : e ∈ insertEntry k v l) : e = (k, v) ∨ e ∈ l := by
  induction l with
  | nil => simpa [insertEntry] using h
  | cons head rest ih =>
    simp only [insertEntry] at h
    split at h
    · simpa using h
    · split at h
      · rcases List.mem_cons.1 h with h | h
        · exact .inr (h ▸ List.mem_cons_self)
        · exact (ih h).imp_right (List.mem_cons_of_mem _)
      · rcases List.mem_cons.1 h with h | h
        · exact .inl h
        · exact .inr (List.mem_cons_of_mem _ h)

theorem sorted_insertEntry {k : K} {v : V} {l : List (K × V)}
    (h : l.Pairwise fun a b => KeyOrder.before a.1 b.1) :
    (insertEntry k v l).Pairwise fun a b => KeyOrder.before a.1 b.1 := by
  induction l with
  | nil => simp [insertEntry]
  | cons head rest ih =>
    obtain ⟨hhead, hrest⟩ := List.pairwise_cons.1 h
    simp only [insertEntry]
    split
    · next hb =>
      refine List.pairwise_cons.2 ⟨fun e he => ?_, h⟩
      rcases List.mem_cons.1 he with rfl | he
      · exact hb
      · exact KeyOrder.trans _ _ _ hb (hhead e he)
    · split
      · next hb =>
        refine List.pairwise_cons.2 ⟨fun e he => ?_, ih hrest⟩
        rcases mem_insertEntry he with rfl | he
        · exact hb
        · exact hhead e he
      · next hb hb' =>
        have : k = head.1 := KeyOrder.total _ _ (by simpa using hb) (by simpa using hb')
        exact List.pairwise_cons.2 ⟨fun e he => this ▸ hhead e he, hrest⟩

/-- The map with a key set to a value. -/
def insert (m : SortedMap K V) (k : K) (v : V) : SortedMap K V :=
  ⟨insertEntry k v m.entries, sorted_insertEntry m.sorted⟩

/-- The map without a key. -/
def erase [DecidableEq K] (m : SortedMap K V) (k : K) : SortedMap K V :=
  ⟨m.entries.filter fun e => e.1 ≠ k, m.sorted.filter _⟩

/-- The entry with a key. -/
def find? [DecidableEq K] (m : SortedMap K V) (k : K) : Option (K × V) :=
  m.entries.find? fun e => e.1 = k

/-- The value of a key. -/
def get? [DecidableEq K] (m : SortedMap K V) (k : K) : Option V :=
  (m.find? k).map (·.2)

/-- The map with every value replaced. -/
def map (m : SortedMap K V) (f : K → V → W) : SortedMap K W :=
  ⟨m.entries.map fun e => (e.1, f e.1 e.2), List.pairwise_map.2 m.sorted⟩

/-- The map with the value of one key replaced, if the key is there. -/
def modify [DecidableEq K] (m : SortedMap K V) (k : K) (f : V → V) : SortedMap K V :=
  m.map fun k' v => if k' = k then f v else v

/-- The map of the given entries, later ones over earlier ones. -/
def ofList (l : List (K × V)) : SortedMap K V :=
  l.foldl (fun m e => m.insert e.1 e.2) empty

/-- The values in key order. -/
def values (m : SortedMap K V) : List V := m.entries.map (·.2)

/-- The keys in order. -/
def keys (m : SortedMap K V) : List K := m.entries.map (·.1)

/-- The number of entries. -/
def size (m : SortedMap K V) : Nat := m.entries.length

/-- Whether there are no entries. -/
def isEmpty (m : SortedMap K V) : Bool := m.entries.isEmpty

/-- The entry with the greatest key. -/
def last? (m : SortedMap K V) : Option (K × V) := m.entries.getLast?

end SortedMap

end Playhead
