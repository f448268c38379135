import Mathlib.Data.List.AList
import Mathlib.Data.Finset.Card

/-!
# Go maps

A Go map holds at most one value a key and is read by key, by size and by a range over its
values. `AList` keeps exactly this, so a map is an `AList` with one value type; what is added here is
the size of a map (`size`, the cardinality of its `support`), its values and the deletion of every
entry that a test selects, as a `for k, v := range m { if .. { delete(m, k) } }` loop does.

The order of `values` is one of the orders a `range` may take, so nothing may be concluded from it.
-/

namespace GoWanchain

open List

abbrev GoMap (κ ν : Type) := AList (fun _ : κ => ν)

namespace GoMap

variable {κ ν : Type}

/-- `len(m)`. -/
def size (m : GoMap κ ν) : ℕ := m.entries.length

/-- The values a `range` over the map visits. -/
def values (m : GoMap κ ν) : List ν := m.entries.map (·.2)

def deleteWhere (p : κ → ν → Bool) (m : GoMap κ ν) : GoMap κ ν :=
  ⟨m.entries.filter fun e => !p e.1 e.2, m.nodupKeys.sublist filter_sublist⟩

/-- The entries that a `range` over the map visits. -/
def toList (m : GoMap κ ν) : List (κ × ν) := m.entries.map fun e => (e.1, e.2)

def mapValues {μ : Type} (f : κ → ν → μ) (m : GoMap κ ν) : GoMap κ μ :=
  ⟨m.entries.map fun e => ⟨e.1, f e.1 e.2⟩, by
    have hkeys := m.nodupKeys
    rw [NodupKeys, keys] at hkeys ⊢
    simpa [map_map, Function.comp_def] using hkeys⟩

theorem length_values (m : GoMap κ ν) : (values m).length = size m := by
  simp [values, size]

variable [DecidableEq κ]

/-- The keys of the map. -/
def support (m : GoMap κ ν) : Finset κ := m.keys.toFinset

@[simp] theorem mem_support {m : GoMap κ ν} {k : κ} : k ∈ support m ↔ k ∈ m := by
  simp [support, AList.mem_keys]

theorem card_support (m : GoMap κ ν) : (support m).card = size m := by
  rw [support, toFinset_card_of_nodup m.keys_nodup]
  simp [AList.keys, keys, size]

theorem support_insert (m : GoMap κ ν) (k : κ) (v : ν) : support (m.insert k v) = insert k (support m) := by
  ext x
  simp

theorem mem_entries_iff {m : GoMap κ ν} {k : κ} {v : ν} :
    (⟨k, v⟩ : Sigma fun _ : κ => ν) ∈ m.entries ↔ m.lookup k = some v :=
  AList.mem_lookup_iff.symm

theorem mem_values {m : GoMap κ ν} {v : ν} : v ∈ values m ↔ ∃ k, m.lookup k = some v := by
  constructor
  · intro hv
    obtain ⟨⟨k, w⟩, he, rfl⟩ := mem_map.mp hv
    exact ⟨k, mem_entries_iff.mp he⟩
  · rintro ⟨k, hk⟩
    exact mem_map.mpr ⟨⟨k, v⟩, mem_entries_iff.mpr hk, rfl⟩

theorem map_values_eq {β : Type} {m : GoMap κ ν} {f : ν → β} {g : κ → β}
    (h : ∀ k v, m.lookup k = some v → f v = g k) : (values m).map f = m.keys.map g := by
  rw [values, AList.keys, keys, map_map, map_map]
  apply map_congr_left
  intro e he
  exact h e.1 e.2 (mem_entries_iff.mp he)

theorem mem_of_lookup {m : GoMap κ ν} {k : κ} {v : ν} (h : m.lookup k = some v) : k ∈ m := by
  rw [← AList.lookup_isSome, h]
  rfl

theorem lookup_insert_cases {m : GoMap κ ν} {k k' : κ} {v v' : ν}
    (h : (m.insert k v).lookup k' = some v') : (k' = k ∧ v' = v) ∨ (k' ≠ k ∧ m.lookup k' = some v') := by
  by_cases hk : k' = k
  · subst hk
    rw [AList.lookup_insert] at h
    exact .inl ⟨rfl, (Option.some.inj h).symm⟩
  · rw [AList.lookup_insert_ne hk] at h
    exact .inr ⟨hk, h⟩

theorem lookup_insert_eq_none_iff {m : GoMap κ ν} {k k' : κ} {v : ν} :
    (m.insert k v).lookup k' = none ↔ k' ≠ k ∧ m.lookup k' = none := by
  by_cases hk : k' = k
  · simp [hk]
  · simp [hk, AList.lookup_insert_ne hk]

/-- What is not in the greater of two maps is not in the other. -/
theorem lookup_eq_none_of_le {m m' : GoMap κ ν} {k : κ} (h : ∀ k v, m.lookup k = some v → m'.lookup k = some v)
    (hk : m'.lookup k = none) : m.lookup k = none := by
  by_contra hne
  obtain ⟨v, hv⟩ := Option.ne_none_iff_exists'.mp hne
  cases hk.symm.trans (h k v hv)

theorem lookup_deleteWhere {p : κ → ν → Bool} {m : GoMap κ ν} {k : κ} {v : ν} :
    (deleteWhere p m).lookup k = some v ↔ m.lookup k = some v ∧ p k v = false := by
  rw [← mem_entries_iff, ← mem_entries_iff]
  simp [deleteWhere, mem_filter]

theorem lookup_mapValues {μ : Type} {f : κ → ν → μ} {m : GoMap κ ν} {k : κ} {w : μ} :
    (mapValues f m).lookup k = some w ↔ ∃ v, m.lookup k = some v ∧ f k v = w := by
  rw [← mem_entries_iff]
  constructor
  · intro hw
    obtain ⟨⟨k', v⟩, he, heq⟩ := mem_map.mp hw
    obtain ⟨rfl, hfv⟩ := Sigma.mk.inj heq
    exact ⟨v, mem_entries_iff.mp he, eq_of_heq hfv⟩
  · rintro ⟨v, hv, rfl⟩
    exact mem_map.mpr ⟨⟨k, v⟩, mem_entries_iff.mpr hv, rfl⟩

def ofList (l : List (κ × ν)) : GoMap κ ν := l.foldl (fun m e => m.insert e.1 e.2) ∅

theorem lookup_ofList {l : List (κ × ν)} (hnodup : (l.map Prod.fst).Nodup) {k : κ} {v : ν} :
    (ofList l).lookup k = some v ↔ (k, v) ∈ l := by
  induction l using reverseRecOn with
  | nil => simp [ofList]
  | append_singleton l e ih =>
    rw [map_append, nodup_append] at hnodup
    have hlast : ofList (l ++ [e]) = (ofList l).insert e.1 e.2 := by rw [ofList, foldl_append]; rfl
    have hfresh : ∀ v, (e.1, v) ∉ l := fun v hv =>
      hnodup.2.2 _ (mem_map_of_mem hv) _ (mem_singleton.mpr rfl) rfl
    rw [hlast, mem_append, mem_singleton]
    by_cases hk : k = e.1
    · rw [hk, AList.lookup_insert, Option.some.injEq, Prod.ext_iff]
      simp [hfresh v, eq_comm]
    · rw [AList.lookup_insert_ne hk, ih hnodup.1, Prod.ext_iff]
      simp [hk]

theorem lookup_ofList_toList (m : GoMap κ ν) (k : κ) : (ofList (toList m)).lookup k = m.lookup k := by
  have hnodup : ((toList m).map Prod.fst).Nodup := by
    rw [toList, map_map]
    exact m.nodupKeys
  apply Option.ext
  intro v
  rw [lookup_ofList hnodup, toList, ← mem_entries_iff]
  constructor
  · intro hv
    obtain ⟨e, he, heq⟩ := mem_map.mp hv
    cases heq
    exact he
  · exact fun hv => mem_map.mpr ⟨_, hv, rfl⟩

end GoMap

end GoWanchain
