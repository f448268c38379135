import GoWanchain.State.Invariants
import GoWanchain.State.Operations
import GoWanchain.State.View

/-!
# Layouts of the storage

The two kinds of slots share one trie, and nothing keeps a key from being used for both. A `Layout` says
for every slot which kind it is of. An object is `Coherent` with a layout if it was only written that way.
Then every slot of the trie is, after the pending writes, what is read of it (`lookup_updateTrie_eq`), so
that the storage an object will write is a function of its view.
-/

namespace GoWanchain.State

/-- The kind of every slot of an account. -/
abbrev Layout := Hash → SlotKind

/-- The content of a slot in the trie, from what is read of it. -/
def AccountView.slot (κ : Layout) (v : AccountView) (k : Hash) : Option Bytes :=
  match κ k with
  | .word => slotOfWord (v.word k)
  | .bytes => slotOfBytes (v.bytes k)

/-- The object was only written as the layout says, and what it does not have to write is in the
trie. -/
structure StateObject.Coherent (κ : Layout) (o : StateObject) : Prop where
  bytes_of_word : ∀ k, κ k = .word → o.cachedStorageByteArray.lookup k = none
  word_of_bytes : ∀ k, κ k = .bytes → o.cachedStorage.lookup k = none
  word : ∀ k, κ k = .word → o.dirtyStorage.lookup k = none → o.data.root.lookup k = slotOfWord (o.getState k)
  bytes : ∀ k, κ k = .bytes → o.dirtyStorageByteArray.lookup k = none →
    o.data.root.lookup k = slotOfBytes (o.getStateByteArray k)

/-- No slot is written, or one of its kind. -/
def Layout.Fits (κ : Layout) : Option (Hash × SlotKind) → Prop
  | none => True
  | some (k, i) => κ k = i

instance (κ : Layout) : (σ : Option (Hash × SlotKind)) → Decidable (κ.Fits σ)
  | none => inferInstanceAs (Decidable True)
  | some (k, i) => inferInstanceAs (Decidable (κ k = i))

namespace StateObject.Coherent

variable {κ : Layout} {o o' : StateObject}

variable {k : Hash} {db : Hash → Option Bytes}

section

variable (h : o.Coherent κ)

include h

theorem dirty_bytes_of_word (hk : κ k = .word) : o.dirtyStorageByteArray.lookup k = none :=
  GoMap.lookup_eq_none_of_le o.bytes_cached (h.bytes_of_word k hk)

theorem dirty_word_of_bytes (hk : κ k = .bytes) : o.dirtyStorage.lookup k = none :=
  GoMap.lookup_eq_none_of_le o.word_cached (h.word_of_bytes k hk)

theorem lookup_updateTrie_eq [Keccak] (db : Hash → Option Bytes) (k : Hash) :
    o.updateTrie.lookup k = (o.view db).slot κ k := by
  rw [lookup_updateTrie, AccountView.slot]
  cases hk : κ k with
  | word =>
    rw [h.dirty_bytes_of_word hk]
    cases hw : o.dirtyStorage.lookup k with
    | none => exact h.word k hk hw
    | some v =>
      show slotOfWord v = slotOfWord (o.getState k)
      rw [getState, o.word_cached k v hw, Option.getD_some]
  | bytes =>
    rw [h.dirty_word_of_bytes hk]
    cases hb : o.dirtyStorageByteArray.lookup k with
    | none => exact h.bytes k hk hb
    | some b =>
      show slotOfBytes b = slotOfBytes (o.getStateByteArray k)
      rw [getStateByteArray, o.bytes_cached k b hb, Option.getD_some]

theorem getState_updateRoot (hk : κ k = .word) : o.updateRoot.getState k = o.getState k := by
  show (o.cachedStorage.lookup k).getD ((o.updateTrie.lookup k |>.map decodeWord).getD 0) = _
  cases hc : o.cachedStorage.lookup k with
  | some => rw [getState, hc]; rfl
  | none =>
    -- what is not cached is not dirty either
    rw [lookup_updateTrie, h.dirty_bytes_of_word hk, GoMap.lookup_eq_none_of_le o.word_cached hc, getState, hc]
    rfl

theorem getStateByteArray_updateRoot (hk : κ k = .bytes) :
    o.updateRoot.getStateByteArray k = o.getStateByteArray k := by
  show (o.cachedStorageByteArray.lookup k).getD ((o.updateTrie.lookup k).getD []) = _
  cases hc : o.cachedStorageByteArray.lookup k with
  | some => rw [getStateByteArray, hc]; rfl
  | none =>
    rw [lookup_updateTrie, h.dirty_word_of_bytes hk, GoMap.lookup_eq_none_of_le o.bytes_cached hc, getStateByteArray,
      hc]
    rfl

theorem updateTrie_congr [Keccak] (h' : o'.Coherent κ)
    (hview : o.view db = o'.view db) : o.updateTrie = o'.updateTrie := by
  apply Finmap.ext_lookup
  intro k
  rw [h.lookup_updateTrie_eq db, h'.lookup_updateTrie_eq db, hview]

theorem updateRoot_data_congr [Keccak]
    (h' : o'.Coherent κ) (hview : o.view db = o'.view db) : o.updateRoot.data = o'.updateRoot.data := by
  have htrie := h.updateTrie_congr h' hview
  obtain ⟨hbalance, hnonce, hcodeHash, -⟩ := AccountView.mk.injEq .. |>.mp hview
  simp only [updateRoot, htrie, hbalance, hnonce, hcodeHash]

theorem view_updateRoot_congr [Keccak] (h' : o'.Coherent κ) (hview : o.view db = o'.view db) :
    o.updateRoot.view db = o'.updateRoot.view db := by
  have htrie := h.updateTrie_congr h' hview
  obtain ⟨hbalance, hnonce, hcodeHash, hcode, hword, hbytes, hsuicided, hroot⟩ :=
    AccountView.mk.injEq .. |>.mp hview
  have hword' : o.updateRoot.getState = o'.updateRoot.getState := by
    funext k
    cases hk : κ k with
    | word => rw [h.getState_updateRoot hk, h'.getState_updateRoot hk, hword]
    | bytes =>
      show (o.cachedStorage.lookup k).getD ((o.updateTrie.lookup k |>.map decodeWord).getD 0) =
        (o'.cachedStorage.lookup k).getD ((o'.updateTrie.lookup k |>.map decodeWord).getD 0)
      rw [h.word_of_bytes k hk, h'.word_of_bytes k hk, htrie]
  have hbytes' : o.updateRoot.getStateByteArray = o'.updateRoot.getStateByteArray := by
    funext k
    cases hk : κ k with
    | bytes => rw [h.getStateByteArray_updateRoot hk, h'.getStateByteArray_updateRoot hk, hbytes]
    | word =>
      show (o.cachedStorageByteArray.lookup k).getD ((o.updateTrie.lookup k).getD []) =
        (o'.cachedStorageByteArray.lookup k).getD ((o'.updateTrie.lookup k).getD [])
      rw [h.bytes_of_word k hk, h'.bytes_of_word k hk, htrie]
  have hcode' : o.updateRoot.getCode db = o'.updateRoot.getCode db := hcode
  simp only [view, hword', hbytes', hcode']
  simp only [updateRoot, htrie, hbalance, hnonce, hcodeHash, hsuicided]

theorem updateRoot [Keccak] : o.updateRoot.Coherent κ where
  bytes_of_word := h.bytes_of_word
  word_of_bytes := h.word_of_bytes
  word k hk _ := by
    show o.updateTrie.lookup k = _
    rw [h.getState_updateRoot hk, h.lookup_updateTrie_eq (fun _ => none), AccountView.slot, hk]
    rfl
  bytes k hk _ := by
    show o.updateTrie.lookup k = _
    rw [h.getStateByteArray_updateRoot hk, h.lookup_updateTrie_eq (fun _ => none), AccountView.slot, hk]
    rfl

theorem apply (ch : ObjectChange) (hch : κ.Fits ch.slot) : (ch.apply o).Coherent κ := by
  cases ch with
  | storageChange key value =>
    refine ⟨h.bytes_of_word, ?_, ?_, h.bytes⟩
    · intro k hk
      refine GoMap.lookup_insert_eq_none_iff.mpr ⟨?_, h.word_of_bytes k hk⟩
      rintro rfl
      cases hk.symm.trans hch
    · intro k hk hdirty
      obtain ⟨hne, hclean⟩ := GoMap.lookup_insert_eq_none_iff.mp hdirty
      have hread : (o.setState key value).getState k = o.getState k := by simp [setState, getState, hne]
      exact (h.word k hk hclean).trans (congrArg slotOfWord hread.symm)
  | storageByteArrayChange key value =>
    refine ⟨?_, h.word_of_bytes, h.word, ?_⟩
    · intro k hk
      refine GoMap.lookup_insert_eq_none_iff.mpr ⟨?_, h.bytes_of_word k hk⟩
      rintro rfl
      cases hk.symm.trans hch
    · intro k hk hdirty
      obtain ⟨hne, hclean⟩ := GoMap.lookup_insert_eq_none_iff.mp hdirty
      have hread : (o.setStateByteArray key value).getStateByteArray k = o.getStateByteArray k := by
        simp [setStateByteArray, getStateByteArray, hne]
      exact (h.bytes k hk hclean).trans (congrArg slotOfBytes hread.symm)
  | suicideChange | balanceChange | nonceChange | codeChange =>
    exact ⟨h.bytes_of_word, h.word_of_bytes, h.word, h.bytes⟩

end

theorem newObject_of_slots {data : Account} (hword : ∀ k, κ k = .word → ∃ v, data.root.lookup k = slotOfWord v)
    (hbytes : ∀ k, κ k = .bytes → ∃ b, data.root.lookup k = slotOfBytes b) : (newObject data).Coherent κ where
  bytes_of_word _ _ := rfl
  word_of_bytes _ _ := rfl
  word k hk _ := by
    obtain ⟨v, hv⟩ := hword k hk
    show data.root.lookup k = slotOfWord (((data.root.lookup k).map decodeWord).getD 0)
    rw [hv, slotOfWord]
    split
    · rfl
    · rename_i hne
      simpa [decodeWord_encodeWord, slotOfWord] using hne
  bytes k hk _ := by
    obtain ⟨b, hb⟩ := hbytes k hk
    show data.root.lookup k = slotOfBytes ((data.root.lookup k).getD [])
    rw [hb, slotOfBytes]
    split
    · rfl
    · rename_i hne
      simp [slotOfBytes, hne]

theorem newObject_updateRoot [Keccak] (h : o.Coherent κ) : (newObject o.updateRoot.data).Coherent κ := by
  apply newObject_of_slots
  · intro k hk
    refine ⟨o.getState k, ?_⟩
    rw [← h.getState_updateRoot hk]
    exact h.updateRoot.word k hk rfl
  · intro k hk
    refine ⟨o.getStateByteArray k, ?_⟩
    rw [← h.getStateByteArray_updateRoot hk]
    exact h.updateRoot.bytes k hk rfl

theorem newObject_zero [Keccak] (κ : Layout) : (newObject Account.zero).Coherent κ where
  bytes_of_word _ _ := rfl
  word_of_bytes _ _ := rfl
  word k _ _ := by simp [newObject, Account.zero, getState, slotOfWord]
  bytes k _ _ := by simp [newObject, Account.zero, getStateByteArray, slotOfBytes]

end StateObject.Coherent

theorem coherent_invariant [Keccak] (κ : Address → Layout) :
    ObjectInvariant (fun a o => o.Coherent (κ a)) fun a ch => (κ a).Fits ch.slot where
  zero a := .newObject_zero (κ a)
  apply h hch := h.apply _ hch
  balance _ _ := trivial
  inverse h := by rwa [ObjectChange.slot_inverse] at h
  flags h _ _ _ _ := ⟨h.bytes_of_word, h.word_of_bytes, h.word, h.bytes⟩
  updateRoot h := h.updateRoot
  reload h := h.newObject_updateRoot

/-- What is stored of the account, and what the journal would restore of it, is coherent. -/
abbrev Store.Cell.Conforms (κ : Address → Layout) (j : List JournalEntry) (a : Address) (c : Cell) : Prop :=
  c.Upholds (fun a o => o.Coherent (κ a)) (fun a ch => (κ a).Fits ch.slot) j a

end GoWanchain.State
