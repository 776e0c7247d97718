import Mathlib.Data.List.Perm.Basic
import Mathlib.Data.List.Nodup
import Playhead.SortedMap

/-!
# Maps in key order, through their values

A map is looked at in two ways: as the list of its entries, which is what is stored and shown, and
as the function `Playhead.SortedMap.get?` from keys to values. This file joins the two
(`Playhead.SortedMap.get?_eq_some_iff`), says what every operation does to the function, and shows
that maps with the same function are the same map (`Playhead.SortedMap.ext_get?`), so that nothing
below has to look at the order of the entries again.
-/

namespace Playhead

/-- **Only one list has given members in a given strict order.** -/
theorem eq_of_pairwise_of_mem {α : Type} {R : α → α → Prop} (hasymm : ∀ a b, R a b → ¬ R b a)
    {l l' : List α} (h : l.Pairwise R) (h' : l'.Pairwise R) (hmem : ∀ a, a ∈ l ↔ a ∈ l') :
    l = l' := by
  have hnodup {l : List α} (h : l.Pairwise R) : l.Nodup :=
    h.imp fun {a b} (hab : R a b) (heq : a = b) => by
      subst heq
      exact hasymm a a hab hab
  have hperm : l.Perm l' := (List.perm_ext_iff_of_nodup (hnodup h) (hnodup h')).2 hmem
  exact hperm.eq_of_pairwise (fun a b _ _ hab hba => absurd hba (hasymm a b hab)) h h'

namespace SortedMap

variable {K V W : Type} [KeyOrder K]

/-! ### Entries and values -/

/-- Every key occurs at most once. -/
theorem nodup_keys (m : SortedMap K V) : (m.entries.map (·.1)).Nodup := by
  refine List.pairwise_map.2 (m.sorted.imp fun hab he => ?_)
  rw [he, KeyOrder.irrefl] at hab
  exact absurd hab Bool.false_ne_true

theorem eq_of_mem_of_mem (m : SortedMap K V) {k : K} {v w : V} (hv : (k, v) ∈ m.entries)
    (hw : (k, w) ∈ m.entries) : v = w :=
  congrArg Prod.snd (List.inj_on_of_nodup_map m.nodup_keys hv hw rfl)

/-- A map is its entries. -/
theorem ext_entries {m n : SortedMap K V} (h : m.entries = n.entries) : m = n := by
  obtain ⟨_, _⟩ := m
  obtain ⟨_, _⟩ := n
  cases h
  rfl

/-- A change that leaves every value alone leaves the map alone. -/
theorem map_eq_self {m : SortedMap K V} {f : K → V → V} (h : ∀ e ∈ m.entries, f e.1 e.2 = e.2) :
    m.map f = m := by
  refine ext_entries ?_
  conv_rhs => rw [← List.map_id m.entries]
  exact List.map_congr_left fun e he => by rw [h e he]; rfl

theorem map_id (m : SortedMap K V) : (m.map fun _ v => v) = m := map_eq_self fun _ _ => rfl

theorem keys_map (m : SortedMap K V) (f : K → V → W) : (m.map f).keys = m.keys := by
  rw [keys, map, List.map_map]
  rfl

variable [DecidableEq K]

/-- What is looked up is an entry. -/
theorem get?_eq_some_iff {m : SortedMap K V} {k : K} {v : V} :
    m.get? k = some v ↔ (k, v) ∈ m.entries := by
  simp only [get?, find?, Option.map_eq_some_iff]
  constructor
  · rintro ⟨⟨k', v'⟩, h, rfl⟩
    obtain rfl : k' = k := by simpa using List.find?_some h
    exact List.mem_of_find?_eq_some h
  · intro h
    cases hf : m.entries.find? fun e => e.1 = k with
    | none => simpa using List.find?_eq_none.1 hf _ h
    | some e =>
      obtain ⟨k', v'⟩ := e
      obtain rfl : k' = k := by simpa using List.find?_some hf
      exact ⟨_, rfl, eq_of_mem_of_mem m (List.mem_of_find?_eq_some hf) h⟩

theorem get?_eq_none_iff {m : SortedMap K V} {k : K} :
    m.get? k = none ↔ ∀ e ∈ m.entries, e.1 ≠ k := by
  simp [get?, find?]

theorem mem_keys_iff {m : SortedMap K V} {k : K} : k ∈ m.keys ↔ m.get? k ≠ none := by
  simp [keys, get?, find?]

/-- Values are related to those under the same key of a map that is related key by key. -/
theorem exists_of_rel {m : SortedMap K V} {n : SortedMap K W} {R : V → W → Prop}
    (h : ∀ k, Option.Rel R (m.get? k) (n.get? k)) {e : K × V} (he : e ∈ m.entries) :
    ∃ w, (e.1, w) ∈ n.entries ∧ R e.2 w := by
  have hkey := h e.1
  rw [get?_eq_some_iff.2 he] at hkey
  generalize hget : n.get? e.1 = value at hkey
  cases hkey with
  | some hrel => exact ⟨_, get?_eq_some_iff.1 hget, hrel⟩

/-- What is related under each key by one relation is so by a weaker one. -/
theorem rel_imp {m : SortedMap K V} {n : SortedMap K W} {R R' : V → W → Prop}
    (h : ∀ k, Option.Rel R (m.get? k) (n.get? k)) (himp : ∀ v w, R v w → R' v w) (k : K) :
    Option.Rel R' (m.get? k) (n.get? k) := by
  have hkey := h k
  generalize m.get? k = v at hkey ⊢
  generalize n.get? k = w at hkey ⊢
  cases hkey with
  | none => exact .none
  | some hrel => exact .some (himp _ _ hrel)

/-- **A map is its function from keys to values.** -/
theorem ext_get? {m n : SortedMap K V} (h : ∀ k, m.get? k = n.get? k) : m = n := by
  have hmem : ∀ e, e ∈ m.entries ↔ e ∈ n.entries := fun ⟨k, v⟩ => by
    rw [← get?_eq_some_iff, ← get?_eq_some_iff, h]
  refine ext_entries (eq_of_pairwise_of_mem (fun a b hab hba => ?_) m.sorted n.sorted hmem)
  have haa := KeyOrder.trans _ _ _ hab hba
  rw [KeyOrder.irrefl] at haa
  exact Bool.false_ne_true haa

/-! ### What the operations do to the function -/

@[simp] theorem get?_empty (k : K) : (empty : SortedMap K V).get? k = none := rfl

/-- The entries after an insertion: the new one, and the old ones under other keys. -/
theorem mem_insert_iff {m : SortedMap K V} {k : K} {v : V} {e : K × V} :
    e ∈ (m.insert k v).entries ↔ e = (k, v) ∨ (e ∈ m.entries ∧ e.1 ≠ k) := by
  have hkeep : ∀ l : List (K × V), ∀ e ∈ l, e.1 ≠ k → e ∈ insertEntry k v l := by
    intro l
    induction l with
    | nil => exact fun e he => absurd he List.not_mem_nil
    | cons head rest ih =>
      intro e he hne
      simp only [insertEntry]
      split
      · exact List.mem_cons_of_mem _ he
      · split
        · exact (List.mem_cons.1 he).elim (fun h => h ▸ List.mem_cons_self)
            fun h => List.mem_cons_of_mem _ (ih e h hne)
        · next hb hb' =>
          have hk : k = head.1 := KeyOrder.total _ _ (by simpa using hb) (by simpa using hb')
          refine List.mem_cons_of_mem _ ((List.mem_cons.1 he).resolve_left fun h => ?_)
          exact hne (h ▸ hk.symm)
  have hnew : ∀ l : List (K × V), (k, v) ∈ insertEntry k v l := by
    intro l
    induction l with
    | nil => exact List.mem_cons_self
    | cons head rest ih =>
      simp only [insertEntry]
      split
      · exact List.mem_cons_self
      · split
        · exact List.mem_cons_of_mem _ ih
        · exact List.mem_cons_self
  constructor
  · intro h
    -- the new entry is the only one under its key
    by_cases hk : e.1 = k
    · obtain ⟨k', v'⟩ := e
      subst hk
      rw [eq_of_mem_of_mem (m.insert k' v) h (hnew _)]
      exact .inl rfl
    · exact .inr ⟨(mem_insertEntry h).resolve_left fun he => hk (he ▸ rfl), hk⟩
  · rintro (rfl | ⟨he, hne⟩)
    · exact hnew _
    · exact hkeep _ e he hne

/-- **What is found after an insertion.** -/
theorem get?_insert (m : SortedMap K V) (k k' : K) (v : V) :
    (m.insert k v).get? k' = if k' = k then some v else m.get? k' := by
  refine Option.ext fun w => ?_
  rw [get?_eq_some_iff, mem_insert_iff]
  split
  · next h =>
    subst h
    simp [eq_comm]
  · next h =>
    rw [get?_eq_some_iff]
    simp [h]

@[simp] theorem get?_insert_self (m : SortedMap K V) (k : K) (v : V) :
    (m.insert k v).get? k = some v := by
  rw [get?_insert, if_pos rfl]

theorem get?_insert_of_ne (m : SortedMap K V) {k k' : K} (h : k' ≠ k) (v : V) :
    (m.insert k v).get? k' = m.get? k' := by
  rw [get?_insert, if_neg h]

/-- The keys after an insertion: one more, if it is new. -/
theorem mem_keys_insert {m : SortedMap K V} {k k' : K} {v : V} :
    k' ∈ (m.insert k v).keys ↔ k' ∈ m.keys ∨ k' = k := by
  rw [mem_keys_iff, mem_keys_iff, get?_insert]
  split <;> simp [*]

/-- **What is found after something has been erased.** -/
theorem get?_erase (m : SortedMap K V) (k k' : K) :
    (m.erase k).get? k' = if k' = k then none else m.get? k' := by
  refine Option.ext fun w => ?_
  rw [get?_eq_some_iff]
  simp only [erase, List.mem_filter, decide_not, Bool.not_eq_eq_eq_not, Bool.not_true,
    decide_eq_false_iff_not]
  split
  · next h => simp [h]
  · next h => simp [h, get?_eq_some_iff]

/-- Erasing what is not there changes nothing. -/
theorem erase_of_get?_eq_none {m : SortedMap K V} {k : K} (h : m.get? k = none) :
    m.erase k = m := by
  refine ext_get? fun k' => ?_
  rw [get?_erase]
  split
  · next heq => rw [heq, h]
  · rfl

/-- Erasing a key leaves nothing of what was inserted under it. -/
theorem erase_insert (m : SortedMap K V) (k : K) (v : V) : (m.insert k v).erase k = m.erase k := by
  refine ext_get? fun k' => ?_
  rw [get?_erase, get?_erase, get?_insert]
  split <;> rfl

/-- Without a key that is there, there is one entry less. -/
theorem size_eq_size_erase_add_one {m : SortedMap K V} {k : K} {v : V} (h : m.get? k = some v) :
    m.size = (m.erase k).size + 1 := by
  have hnodup (n : SortedMap K V) : n.entries.Nodup := n.nodup_keys.of_map
  have hnew : (k, v) ∉ (m.erase k).entries := by simp [erase]
  have hperm : m.entries.Perm ((k, v) :: (m.erase k).entries) := by
    refine (List.perm_ext_iff_of_nodup (hnodup m) (List.nodup_cons.2 ⟨hnew, hnodup _⟩)).2 ?_
    rintro ⟨k', v'⟩
    rw [List.mem_cons, ← get?_eq_some_iff, ← get?_eq_some_iff, get?_erase]
    by_cases hk : k' = k
    · subst hk
      simp [h, eq_comm]
    · simp [hk]
  exact hperm.length_eq

/-- A key that is not there brings one more entry. -/
theorem size_insert_of_get?_eq_none {m : SortedMap K V} {k : K} (h : m.get? k = none) (v : V) :
    (m.insert k v).size = m.size + 1 := by
  rw [size_eq_size_erase_add_one (m.get?_insert_self k v), erase_insert, erase_of_get?_eq_none h]

/-- A key that is there brings none. -/
theorem size_insert_of_get?_eq_some {m : SortedMap K V} {k : K} {v : V} (h : m.get? k = some v)
    (w : V) : (m.insert k w).size = m.size := by
  rw [size_eq_size_erase_add_one (m.get?_insert_self k w), erase_insert,
    ← size_eq_size_erase_add_one h]

/-- A change of all values changes what is found. -/
theorem get?_map (m : SortedMap K V) (f : K → V → W) (k : K) :
    (m.map f).get? k = (m.get? k).map (f k) := by
  refine Option.ext fun w => ?_
  rw [get?_eq_some_iff, Option.map_eq_some_iff]
  simp only [map, List.mem_map]
  constructor
  · rintro ⟨⟨k', v⟩, he, h⟩
    simp only [Prod.mk.injEq] at h
    obtain ⟨rfl, rfl⟩ := h
    exact ⟨v, get?_eq_some_iff.2 he, rfl⟩
  · rintro ⟨v, hv, rfl⟩
    exact ⟨(k, v), get?_eq_some_iff.1 hv, rfl⟩

/-- Maps whose values are related have the same image, if the relation says so. -/
theorem map_eq_map_of_rel {U : Type} {m : SortedMap K V} {n : SortedMap K W} {R : V → W → Prop}
    {f : V → U} {g : W → U} (h : ∀ k, Option.Rel R (m.get? k) (n.get? k))
    (himp : ∀ v w, R v w → f v = g w) : (m.map fun _ v => f v) = n.map fun _ w => g w := by
  refine ext_get? fun k => ?_
  have hkey := h k
  rw [get?_map, get?_map]
  generalize m.get? k = v at hkey ⊢
  generalize n.get? k = w at hkey ⊢
  cases hkey with
  | none => rfl
  | some hrel => exact congrArg some (himp _ _ hrel)

/-- A change under one key changes what is found there. -/
theorem get?_modify (m : SortedMap K V) (k k' : K) (f : V → V) :
    (m.modify k f).get? k' = if k' = k then (m.get? k).map f else m.get? k' := by
  rw [modify, get?_map]
  split
  · next h => simp [h]
  · simp

/-! ### The last entry, and one entry alone -/

omit [DecidableEq K] in
@[simp] theorem entries_empty : (empty : SortedMap K V).entries = [] := rfl

omit [DecidableEq K] in
@[simp] theorem entries_ofList_singleton (k : K) (v : V) :
    (ofList [(k, v)]).entries = [(k, v)] := rfl

theorem get?_ofList_singleton (k k' : K) (v : V) :
    (ofList [(k, v)]).get? k' = if k' = k then some v else none := by
  rw [show ofList [(k, v)] = empty.insert k v from rfl, get?_insert, get?_empty]

/-! ### Maps of given entries -/

/-- What is found after many insertions: the last one under the key, or else what was there. -/
theorem get?_foldl_insert (l : List (K × V)) (m : SortedMap K V) (k : K) :
    (l.foldl (fun m e => m.insert e.1 e.2) m).get? k =
      ((l.reverse.find? fun e => e.1 = k).map (·.2)).or (m.get? k) := by
  induction l generalizing m with
  | nil => rfl
  | cons e l ih =>
    rw [List.foldl_cons, ih, List.reverse_cons, List.find?_append, get?_insert]
    cases hl : l.reverse.find? fun e => e.1 = k with
    | some e' => rfl
    | none => by_cases he : k = e.1 <;> simp [he, eq_comm]

/-- **Under every key there is the value that was given last.** -/
theorem get?_ofList (l : List (K × V)) (k : K) :
    (ofList l).get? k = (l.reverse.find? fun e => e.1 = k).map (·.2) := by
  rw [ofList, get?_foldl_insert, get?_empty, Option.or_none]

/-- The entries of a map that is made of a list are members of the list. -/
theorem mem_of_mem_ofList {l : List (K × V)} {e : K × V} (h : e ∈ (ofList l).entries) : e ∈ l := by
  have hget := get?_eq_some_iff.2 (show (e.1, e.2) ∈ (ofList l).entries from h)
  rw [get?_ofList, Option.map_eq_some_iff] at hget
  obtain ⟨e', hfind, hvalue⟩ := hget
  have hkey : e'.1 = e.1 := by simpa using List.find?_some hfind
  obtain rfl : e' = e := Prod.ext hkey hvalue
  exact List.mem_reverse.1 (List.mem_of_find?_eq_some hfind)

end SortedMap

end Playhead
