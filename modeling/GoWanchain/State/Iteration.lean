import GoWanchain.State.Invariants
import Mathlib.Algebra.BigOperators.Ring.Finset

/-!
# Iteration over byte-array storage

`ForEachStorageByteArray` of `core/state/statedb.go` calls a function for the entries of the byte-array
cache of an object and then for those of its storage trie, until the function asks to stop. The trie has the
hashes of the keys: `db.trie.GetKey` finds the key of a hash if the database has its preimage (`known`),
which is written when the trie is committed, and the key is taken for zero otherwise. A `range` over a map
has any order, and the trie has the order of the hashes (`Order`).
-/

namespace GoWanchain.State

open List

/-- A key and a value that is stored under it. -/
abbrev StorageEntry := Sigma fun _ : Hash => Bytes

/-! ### Reads that cache -/

/-- The object after `GetStateByteArray`, which caches what it finds in the trie. -/
def StateObject.load (key : Hash) (o : StateObject) : StateObject :=
  if h : o.cachedStorageByteArray.lookup key = none ∧ (o.data.root.lookup key).getD [] ≠ [] then
    { o with
      cachedStorageByteArray := o.cachedStorageByteArray.insert key ((o.data.root.lookup key).getD [])
      bytes_cached := fun k v hk => by
        have hcached := o.bytes_cached k v hk
        have hne : k ≠ key := by
          rintro rfl
          rw [h.1] at hcached
          cases hcached
        rwa [AList.lookup_insert_ne hne] }
  else o

def StateDB.readStateByteArray (s : StateDB) (addr : Address) (key : Hash) : StateDB :=
  match s.state.getStateObject addr with
  | none => s
  | some obj => { s with state := s.state.setStateObject addr (obj.load key) }

/-! ### The iteration -/

/-- The orders in which maps and tries are gone through: a map in a new one each time. -/
structure Order where
  cached : ℕ → StateObject → List StorageEntry
  trie : StateObject → List StorageEntry
  cached_perm : ∀ n o, (cached n o).Perm o.cachedStorageByteArray.entries
  trie_eq : ∀ o, (trie o : Multiset StorageEntry) = o.data.root.entries

noncomputable instance : Inhabited Order where
  default :=
    { cached := fun _ o => o.cachedStorageByteArray.entries
      trie := fun o => o.data.root.entries.toList
      cached_perm := fun _ _ => .refl _
      trie_eq := fun _ => Multiset.coe_toList _ }

/-- The order with one entry moved to the front. -/
def Order.first (order : Order) (e : StorageEntry) : Order where
  cached n o := if e ∈ order.cached n o then e :: (order.cached n o).erase e else order.cached n o
  trie := order.trie
  cached_perm n o := by
    split_ifs with he
    · exact (perm_cons_erase he).symm.trans (order.cached_perm n o)
    · exact order.cached_perm n o
  trie_eq := order.trie_eq

/-- `common.BytesToHash(db.trie.GetKey(it.Key))`. -/
def recoverKey (known : Hash → Bool) (key : Hash) : Hash := if known key then key else 0

/-- The calls of the second loop, if the function never asks to stop: cached keys are left out. -/
def StateObject.trieCalls (known : Hash → Bool) (order : Order) (so : StateObject) : List StorageEntry :=
  ((order.trie so).filter fun e => (so.cachedStorage.lookup (recoverKey known e.1)).isNone).map fun e =>
    ⟨recoverKey known e.1, e.2⟩

/-- The calls of the `n`-th iteration. -/
def StateObject.calls (known : Hash → Bool) (order : Order) (n : ℕ) (so : StateObject) : List StorageEntry :=
  order.cached n so ++ so.trieCalls known order

/-- Call `cb` for the entries, until it returns false. -/
def travel {σ : Type} (cb : Hash → Bytes → σ → σ × Bool) : List StorageEntry → σ → σ
  | [], acc => acc
  | e :: es, acc =>
    match cb e.1 e.2 acc with
    | (acc, true) => travel cb es acc
    | (acc, false) => acc

def StateDB.forEachStorageByteArray {σ : Type} (s : StateDB) (known : Hash → Bool) (order : Order) (n : ℕ)
    (addr : Address) (cb : Hash → Bytes → σ → σ × Bool) (acc : σ) : σ :=
  match s.state.getStateObject addr with
  | none => acc
  | some so => travel cb (so.calls known order n) acc

def recordCall (key : Hash) (value : Bytes) (calls : List StorageEntry) : List StorageEntry × Bool :=
  (calls ++ [⟨key, value⟩], true)

theorem travel_recordCall (l acc : List StorageEntry) : travel recordCall l acc = acc ++ l := by
  induction l generalizing acc with
  | nil => simp [travel]
  | cons _ _ ih =>
    rw [travel, recordCall]
    exact (ih _).trans (by simp)

/-- What a caller may expect: one call for every key under which something is stored, with what is stored there, and
no other call with a value. -/
structure ExactCalls (value : Hash → Bytes) (calls : List StorageEntry) : Prop where
  once : ∀ k, value k ≠ [] → calls.filter (fun e => e.1 = k) = [⟨k, value k⟩]
  sound : ∀ e ∈ calls, e.2 ≠ [] → e.2 = value e.1

/-! ### Which iterations are exact -/

theorem filter_key_of_mem {l : List StorageEntry} (hl : l.NodupKeys) {k : Hash} {v : Bytes}
    (h : (⟨k, v⟩ : StorageEntry) ∈ l) : l.filter (fun e => e.1 = k) = [⟨k, v⟩] := by
  induction l with
  | nil => simp at h
  | cons e l ih =>
    obtain ⟨hfresh, hl⟩ := nodupKeys_cons.mp hl
    rcases mem_cons.mp h with rfl | h
    · rw [filter_cons_of_pos (by simp), filter_eq_nil_iff.mpr]
      intro e he hk
      have hkey : e.1 = k := by simpa using hk
      have hmem : e.1 ∈ l.keys := mem_keys_of_mem he
      rw [hkey] at hmem
      exact hfresh hmem
    · have hne : e.1 ≠ k := by
        intro hk
        have hmem : k ∈ l.keys := mem_keys_of_mem h
        rw [← hk] at hmem
        exact hfresh hmem
      rw [filter_cons_of_neg (by simpa using hne)]
      exact ih hl h

section Object

variable {known : Hash → Bool} {order : Order} {n : ℕ} {o : StateObject}

theorem mem_cached {e : StorageEntry} : e ∈ order.cached n o ↔ o.cachedStorageByteArray.lookup e.1 = some e.2 := by
  rw [(order.cached_perm n o).mem_iff]
  exact GoMap.mem_entries_iff

theorem mem_trie {e : StorageEntry} : e ∈ order.trie o ↔ o.data.root.lookup e.1 = some e.2 := by
  rw [← Multiset.mem_coe, order.trie_eq, ← Finmap.lookup_eq_some_iff]

theorem nodupKeys_cached : (order.cached n o).NodupKeys :=
  (perm_nodupKeys (order.cached_perm n o)).mpr o.cachedStorageByteArray.nodupKeys

theorem nodupKeys_trie : (order.trie o).NodupKeys := by
  have h := o.data.root.nodupKeys
  rw [← order.trie_eq] at h
  exact Multiset.coe_nodupKeys.mp h

theorem recoverKey_cases (known : Hash → Bool) (k : Hash) : recoverKey known k = k ∨ recoverKey known k = 0 := by
  unfold recoverKey
  split_ifs
  · exact .inl rfl
  · exact .inr rfl

theorem recoverKey_zero (known : Hash → Bool) : recoverKey known 0 = 0 := by simp [recoverKey]

theorem mem_trieCalls {e : StorageEntry} : e ∈ o.trieCalls known order ↔
    ∃ k, o.data.root.lookup k = some e.2 ∧ recoverKey known k = e.1 ∧ o.cachedStorage.lookup e.1 = none := by
  simp only [StateObject.trieCalls, mem_map, mem_filter, mem_trie, Option.isNone_iff_eq_none]
  constructor
  · rintro ⟨⟨k, v⟩, ⟨hk, hnone⟩, rfl⟩
    exact ⟨k, hk, rfl, hnone⟩
  · rintro ⟨k, hk, hrec, hnone⟩
    exact ⟨⟨k, e.2⟩, ⟨hk, hrec ▸ hnone⟩, by simp [hrec]⟩

theorem length_calls_of_wordless (known : Hash → Bool) (order : Order) (n : ℕ)
    (hword : ∀ k, o.cachedStorage.lookup k = none) :
    (o.calls known order n).length = o.cachedStorageByteArray.keys.length + o.data.root.keys.card := by
  have hall : ∀ e ∈ order.trie o, (o.cachedStorage.lookup (recoverKey known e.1)).isNone = true := by
    intro e _
    rw [hword]
    rfl
  have htrie : (order.trie o).length = o.data.root.keys.card := by
    have hcard : Multiset.card (o.data.root.entries.map Sigma.fst) = (order.trie o).length := by
      rw [Multiset.card_map, ← order.trie_eq, Multiset.coe_card]
    exact hcard.symm
  rw [StateObject.calls, length_append, (order.cached_perm n o).length_eq, StateObject.trieCalls, length_map,
    filter_eq_self.mpr hall, htrie]
  simp [AList.keys, keys]

/-- Every entry of the trie is called for under its key, or it is cached and left out. -/
def StateObject.Separate (known : Hash → Bool) (o : StateObject) : Prop :=
  ∀ k v, o.data.root.lookup k = some v →
    (o.cachedStorageByteArray.lookup k ≠ none → o.cachedStorage.lookup (recoverKey known k) ≠ none) ∧
    (o.cachedStorageByteArray.lookup k = none → recoverKey known k = k ∧ o.cachedStorage.lookup k = none)

theorem filter_cached_of_none {k : Hash} (h : o.cachedStorageByteArray.lookup k = none) :
    (order.cached n o).filter (fun e => e.1 = k) = [] := by
  rw [filter_eq_nil_iff]
  intro e he hk
  have hkey : e.1 = k := by simpa using hk
  rw [mem_cached, hkey, h] at he
  cases he

theorem two_le_length_filter_trieCalls (order : Order) {j k : Hash} {v w : Bytes} (hjk : j ≠ k)
    (hj : o.data.root.lookup j = some v) (hk : o.data.root.lookup k = some w)
    (hrec : recoverKey known j = recoverKey known k) (hnone : o.cachedStorage.lookup (recoverKey known k) = none) :
    2 ≤ ((o.trieCalls known order).filter fun e => e.1 = recoverKey known k).length := by
  rw [StateObject.trieCalls, filter_map, length_map, filter_filter]
  have hnone' : o.cachedStorage.lookup (recoverKey known j) = none := hrec ▸ hnone
  have hsub : [(⟨j, v⟩ : StorageEntry), ⟨k, w⟩].Subperm ((order.trie o).filter fun e =>
      ((fun e : StorageEntry => decide (e.1 = recoverKey known k)) ∘ fun e => ⟨recoverKey known e.1, e.2⟩) e &&
        (o.cachedStorage.lookup (recoverKey known e.1)).isNone) := by
    apply subperm_of_subset
    · simp [hjk]
    · intro e he
      simp only [mem_cons, not_mem_nil, or_false] at he
      rcases he with rfl | rfl
      · simp [mem_filter, mem_trie, hj, hrec, hnone']
      · simp [mem_filter, mem_trie, hk, hnone]
  exact hsub.length_le

theorem separate_of_exactCalls (hroot : ∀ k, o.data.root.lookup k ≠ some [])
    (hexact : ExactCalls o.getStateByteArray (o.calls known order n)) : o.Separate known := by
  intro k v hk
  have hv : v ≠ [] := by
    rintro rfl
    exact hroot k hk
  constructor
  · -- the call for the entry is one too many
    intro hcached hnone
    set m := recoverKey known k with hm
    have hentry : (⟨m, v⟩ : StorageEntry) ∈ o.trieCalls known order := mem_trieCalls.mpr ⟨k, hk, rfl, hnone⟩
    have hvalue : v = o.getStateByteArray m := hexact.sound ⟨m, v⟩ (mem_append_right _ hentry) hv
    have honce := congrArg length (hexact.once m (hvalue ▸ hv))
    rw [StateObject.calls, filter_append, length_append, length_singleton] at honce
    have htrie : 0 < ((o.trieCalls known order).filter fun e => e.1 = m).length :=
      length_pos_of_mem (mem_filter.mpr ⟨hentry, by simp⟩)
    rcases hmc : o.cachedStorageByteArray.lookup m with _ | w
    · -- then `m` is another key of the trie, and it is called for as well
      have hmk : m ≠ k := by
        intro h
        rw [h] at hmc
        exact hcached hmc
      have hzero : m = 0 := (recoverKey_cases known k).resolve_left hmk
      have hrec : recoverKey known m = recoverKey known k := by rw [hzero, recoverKey_zero, ← hm, hzero]
      have hlookup : o.data.root.lookup m = some v := by
        rcases hr : o.data.root.lookup m with _ | w
        · rw [StateObject.getStateByteArray, hmc, hr] at hvalue
          exact absurd hvalue hv
        · rw [StateObject.getStateByteArray, hmc, hr] at hvalue
          exact congrArg some hvalue.symm
      have htwo := two_le_length_filter_trieCalls order hmk hlookup hk hrec hnone
      rw [← hm] at htwo
      omega
    · have hcall : (⟨m, w⟩ : StorageEntry) ∈ order.cached n o := mem_cached.mpr hmc
      have hfirst : 0 < ((order.cached n o).filter fun e => e.1 = m).length :=
        length_pos_of_mem (mem_filter.mpr ⟨hcall, by simp⟩)
      omega
  · -- the one call for the key is from the trie
    intro hcached
    have hvalue : o.getStateByteArray k = v := by rw [StateObject.getStateByteArray, hcached, hk]; rfl
    have honce := hexact.once k (hvalue ▸ hv)
    rw [StateObject.calls, filter_append, filter_cached_of_none hcached, nil_append] at honce
    have hmem : (⟨k, o.getStateByteArray k⟩ : StorageEntry) ∈ o.trieCalls known order :=
      (mem_filter.mp (honce ▸ mem_singleton_self _)).1
    obtain ⟨j, -, hrec, hnone⟩ := mem_trieCalls.mp hmem
    replace hrec : recoverKey known j = k := hrec
    refine ⟨?_, hnone⟩
    rcases recoverKey_cases known j with hj | hj
    · rw [← hrec, hj]
      exact hj
    · have hzero : k = 0 := hrec.symm.trans hj
      rw [hzero, recoverKey_zero]

theorem StateObject.Separate.own (hsep : o.Separate known) {k : Hash} {v : Bytes} (hk : o.data.root.lookup k = some v)
    (hnone : o.cachedStorage.lookup (recoverKey known k) = none) :
    recoverKey known k = k ∧ o.cachedStorageByteArray.lookup k = none := by
  obtain ⟨hcached, hfree⟩ := hsep k v hk
  have hkc : o.cachedStorageByteArray.lookup k = none := by
    by_contra hne
    exact hcached hne hnone
  exact ⟨(hfree hkc).1, hkc⟩

theorem exactCalls_of_separate (hsep : o.Separate known) : ExactCalls o.getStateByteArray (o.calls known order n) := by
  constructor
  · intro k hne
    rw [StateObject.calls, filter_append]
    rcases hkc : o.cachedStorageByteArray.lookup k with _ | v
    · rcases hk : o.data.root.lookup k with _ | v
      · exact absurd (by rw [StateObject.getStateByteArray, hkc, hk]; rfl) hne
      have hvalue : o.getStateByteArray k = v := by rw [StateObject.getStateByteArray, hkc, hk]; rfl
      obtain ⟨hrec, hnone⟩ := (hsep k v hk).2 hkc
      have hpick : (order.trie o).filter (fun e => decide (recoverKey known e.1 = k) &&
          (o.cachedStorage.lookup (recoverKey known e.1)).isNone) = (order.trie o).filter fun e => e.1 = k := by
        apply filter_congr
        intro e he
        rw [mem_trie] at he
        rw [Bool.eq_iff_iff]
        simp only [Bool.and_eq_true, decide_eq_true_eq, Option.isNone_iff_eq_none]
        constructor
        · rintro ⟨hek, hnone⟩
          rw [← hek]
          exact (hsep.own he hnone).1.symm
        · intro hek
          rw [hek]
          exact ⟨hrec, hrec.symm ▸ hnone⟩
      rw [filter_cached_of_none hkc, nil_append, StateObject.trieCalls, filter_map, filter_filter]
      show ((order.trie o).filter fun e => decide (recoverKey known e.1 = k) && _).map _ = _
      rw [hpick, filter_key_of_mem nodupKeys_trie (mem_trie.mpr hk), map_singleton, hrec, hvalue]
    · have hvalue : o.getStateByteArray k = v := by rw [StateObject.getStateByteArray, hkc]; rfl
      have hnone : (o.trieCalls known order).filter (fun e => e.1 = k) = [] := by
        rw [filter_eq_nil_iff]
        intro e he hek
        obtain ⟨j, hj, hrec, hnone⟩ := mem_trieCalls.mp he
        obtain ⟨hown, hjc⟩ := hsep.own hj (hrec ▸ hnone)
        have hjk : j = k := by
          rw [← hown, hrec]
          simpa using hek
        rw [hjk, hkc] at hjc
        cases hjc
      rw [filter_key_of_mem nodupKeys_cached (mem_cached.mpr hkc), hvalue, hnone]
      rfl
  · intro e he hne
    rcases mem_append.mp he with he | he
    · rw [StateObject.getStateByteArray, mem_cached.mp he]
      rfl
    · obtain ⟨j, hj, hrec, hnone⟩ := mem_trieCalls.mp he
      obtain ⟨hown, hjc⟩ := hsep.own hj (hrec ▸ hnone)
      rw [← hrec, hown, StateObject.getStateByteArray, hjc, hj]
      rfl

/-- The iteration is exact for an object if and only if no entry of the trie is called for beside a cached one, or
under another key, or not at all. -/
theorem exactCalls_iff (hroot : ∀ k, o.data.root.lookup k ≠ some []) :
    ExactCalls o.getStateByteArray (o.calls known order n) ↔ o.Separate known :=
  ⟨separate_of_exactCalls hroot, exactCalls_of_separate⟩

end Object

/-! ### Sums over storage -/

theorem sum_filter_key (f : StorageEntry → ℕ) (l : List StorageEntry) :
    ∑ k : Hash, ((l.filter fun e => e.1 = k).map f).sum = (l.map f).sum := by
  induction l with
  | nil => simp
  | cons e l ih =>
    have hsplit : ∀ k : Hash, (((e :: l).filter fun e => e.1 = k).map f).sum =
        (if e.1 = k then f e else 0) + ((l.filter fun e => e.1 = k).map f).sum := by
      intro k
      by_cases hk : e.1 = k
      · simp [hk]
      · simp [hk]
    rw [Finset.sum_congr rfl fun k _ => hsplit k, Finset.sum_add_distrib, ih, Finset.sum_ite_eq,
      if_pos (Finset.mem_univ _), map_cons, sum_cons]

theorem ExactCalls.sum_eq {value : Hash → Bytes} {calls : List StorageEntry} (h : ExactCalls value calls) :
    (calls.map fun e => beNat e.2).sum = ∑ k : Hash, beNat (value k) := by
  rw [← sum_filter_key]
  apply Finset.sum_congr rfl
  intro k _
  by_cases hk : value k = []
  · -- a call for a key with nothing stored has no value
    rw [hk, beNat_nil, sum_eq_zero]
    intro x hx
    obtain ⟨e, he, rfl⟩ := mem_map.mp hx
    obtain ⟨hmem, hkey⟩ := mem_filter.mp he
    have hek : e.1 = k := by simpa using hkey
    by_contra hne
    have hvalue : e.2 ≠ [] := by
      intro hnil
      exact hne (by rw [hnil, beNat_nil])
    rw [h.sound e hmem hvalue, hek] at hvalue
    exact hvalue hk
  · rw [h.once k hk]
    simp

/-! ### States without word slots -/

/-- No word slot is cached, and the trie holds no empty value. -/
structure StateObject.Plain (o : StateObject) : Prop where
  wordless : ∀ k, o.cachedStorage.lookup k = none
  solid : ∀ k, o.data.root.lookup k ≠ some []

/-- An entry or a change that is not about a word slot. -/
def Wordless (slot : Option (Hash × SlotKind)) : Prop := ∀ k, slot ≠ some (k, .word)

namespace StateObject.Plain

variable {o : StateObject}

theorem apply (h : o.Plain) {ch : ObjectChange} (hch : Wordless ch.slot) : (ch.apply o).Plain := by
  cases ch with
  | storageChange key => exact absurd rfl (hch key)
  | _ => exact ⟨h.wordless, h.solid⟩

theorem load (h : o.Plain) (key : Hash) : (o.load key).Plain := by
  unfold StateObject.load
  split
  · exact ⟨h.wordless, h.solid⟩
  · exact h

theorem lookup_updateTrie (h : o.Plain) (k : Hash) : o.updateTrie.lookup k =
    (o.dirtyStorageByteArray.lookup k).elim (o.data.root.lookup k) slotOfBytes := by
  rw [StateObject.lookup_updateTrie, GoMap.lookup_eq_none_of_le o.word_cached (h.wordless k)]
  rfl

theorem updateRoot (h : o.Plain) : o.updateRoot.Plain := by
  refine ⟨h.wordless, fun k => ?_⟩
  show o.updateTrie.lookup k ≠ some []
  rw [h.lookup_updateTrie]
  rcases o.dirtyStorageByteArray.lookup k with _ | b
  · exact h.solid k
  · simp only [Option.elim_some, slotOfBytes]
    split_ifs with hb
    · simp
    · simpa using hb

end StateObject.Plain

theorem plain_invariant [Keccak] : ObjectInvariant (fun _ => StateObject.Plain) fun _ ch => Wordless ch.slot where
  zero _ := ⟨fun _ => rfl, fun _ => (by simp [newObject, Account.zero])⟩
  apply h hch := h.apply hch
  balance _ _ _ := by simp [ObjectChange.slot]
  inverse h := by rwa [ObjectChange.slot_inverse] at h
  flags h _ _ _ _ := ⟨h.wordless, h.solid⟩
  updateRoot h := h.updateRoot
  reload h := ⟨fun _ => rfl, h.updateRoot.solid⟩

/-! ### Runs over byte-array storage -/

section Runs

variable [Keccak]

/-- The states that are reached with byte-array slots only: by reads and writes, snapshots and reverts,
`IntermediateRoot` and commits, from a state that was opened. -/
inductive ByteRun : StateDB → Prop
  | new (db : Hash → Option Bytes) {trie : Address → Option Account}
    (h : ∀ addr data, trie addr = some data → ∀ k, data.root.lookup k ≠ some []) : ByteRun (.new db trie)
  | read {s : StateDB} (h : ByteRun s) (addr : Address) (key : Hash) : ByteRun (s.readStateByteArray addr key)
  | write {s : StateDB} (h : ByteRun s) (addr : Address) (key : Hash) (value : Bytes) :
    ByteRun (s.setStateByteArray addr key value)
  | snapshot {s : StateDB} (h : ByteRun s) : ByteRun s.snapshot
  | revert {s t : StateDB} (h : ByteRun s) {revid : ℕ} (hrevert : s.revertToSnapshot revid = some t) : ByteRun t
  | intermediateRoot {s : StateDB} (h : ByteRun s) (deleteEmptyObjects : Bool) : ByteRun (s.finalise deleteEmptyObjects)
  | commitTo {s : StateDB} (h : ByteRun s) (deleteEmptyObjects : Bool) : ByteRun (s.commitTo deleteEmptyObjects)

theorem ByteRun.plain {s : StateDB} (h : ByteRun s) (a : Address) :
    (s.state.cell a).Upholds (fun _ => StateObject.Plain) (fun _ ch => Wordless ch.slot) s.journal a := by
  induction h generalizing a with
  | new _ htrie => exact .nil (fun o ho => (by cases ho)) fun data hdata => ⟨fun _ => rfl, htrie a data hdata⟩
  | @read s _ addr key ih =>
    unfold StateDB.readStateByteArray
    split
    · exact ih a
    · rename_i obj hobj
      rw [Store.setStateObject_eq, Store.cell_setCell]
      split_ifs with ha
      · subst ha
        refine ⟨fun o ho => ?_, (ih a).account, (ih a).entry, (ih a).reset⟩
        cases ho
        exact ((ih a).get hobj).load key
      · exact ih a
  | @write s _ addr key value ih =>
    refine (plain_invariant.invariant s.state.db).moves
      (StateDB.change_moves s addr (.storageByteArrayChange key value)) rfl ?_ (fun _ _ => trivial) ih a
    rintro e ⟨-, hslot⟩ b ch rfl k hk
    replace hslot : ch.slot = none ∨ ch.slot = some (key, .bytes) := hslot
    rw [hk] at hslot
    rcases hslot with hslot | hslot
    · cases hslot
    · cases hslot
  | snapshot _ ih => exact ih a
  | @revert s t _ revid hrevert ih => exact (plain_invariant.invariant s.state.db).revert hrevert ih a
  | intermediateRoot _ b ih => exact (ih a).ended plain_invariant (Store.Cell.ended_finalise _ b)
  | commitTo _ b ih => exact (ih a).ended plain_invariant (Store.Cell.ended_commit _ b)

end Runs

/-! ### The iteration of a state -/

/-- No key of the storage trie of the account is cached, and the database has the preimages of all of them. -/
def StateDB.Separate (s : StateDB) (known : Hash → Bool) (addr : Address) : Prop :=
  ∀ o, s.state.getStateObject addr = some o → ∀ k v, o.data.root.lookup k = some v →
    o.cachedStorageByteArray.lookup k = none ∧ recoverKey known k = k

theorem StateDB.forEachStorageByteArray_recordCall (s : StateDB) (known : Hash → Bool) (order : Order) (n : ℕ)
    (addr : Address) : s.forEachStorageByteArray known order n addr recordCall [] =
      (s.state.getStateObject addr).elim [] (·.calls known order n) := by
  rw [forEachStorageByteArray]
  rcases s.state.getStateObject addr with _ | o
  · rfl
  · exact travel_recordCall _ []

/-- In a state without word slots nothing is left out, so that the iteration is exact where it finds nothing twice. -/
theorem ByteRun.exactCalls_iff [Keccak] {s : StateDB} (h : ByteRun s) (known : Hash → Bool) (order : Order) (n : ℕ)
    (addr : Address) : ExactCalls (s.getStateByteArray addr)
      (s.forEachStorageByteArray known order n addr recordCall []) ↔ s.Separate known addr := by
  rw [StateDB.forEachStorageByteArray_recordCall]
  rcases hobj : s.state.getStateObject addr with _ | o
  · refine iff_of_true ⟨fun k hk => ?_, fun e he => (by cases he)⟩ fun o ho => (by rw [hobj] at ho; cases ho)
    exact absurd (by rw [StateDB.getStateByteArray, hobj]; rfl) hk
  have hplain : o.Plain := (h.plain addr).get hobj
  have hvalue : s.getStateByteArray addr = o.getStateByteArray := by
    funext k
    rw [StateDB.getStateByteArray, hobj]
    rfl
  rw [hvalue]
  refine (State.exactCalls_iff hplain.solid).trans ⟨fun hsep o' ho' k v hk => ?_, fun hsep k v hk => ?_⟩
  · rw [hobj] at ho'
    cases ho'
    obtain ⟨hcached, hfree⟩ := hsep k v hk
    have hnone : o.cachedStorageByteArray.lookup k = none := by
      by_contra hne
      exact hcached hne (hplain.wordless _)
    exact ⟨hnone, (hfree hnone).1⟩
  · obtain ⟨hnone, hrec⟩ := hsep o hobj k v hk
    exact ⟨fun hne => absurd hnone hne, fun _ => ⟨hrec, hplain.wordless k⟩⟩

end GoWanchain.State
