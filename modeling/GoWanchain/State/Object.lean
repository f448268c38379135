import GoWanchain.Common.Bytes
import GoWanchain.Lib.GoMap
import Mathlib.Data.Finmap

/-!
# State objects

`core/state/state_object.go`. The storage of an account is one trie that both kinds of slots
share: a word slot holds the RLP of its word, a byte-array slot its bytes as they are. A trie is
taken as its contents, of which the root hash is a function: `Account.root` is the contents that
the root names. An object keeps for either kind of slot a cache of what it has written and the
writes still to be flushed. Reads, which also fill the caches with the value a second read would
find, are functions here.

The setters of an object and the undoing of what they did put a value in the same place:
`ObjectChange.apply` is the setter and `ObjectChange.inverse` the journal entry for it.
-/

namespace GoWanchain

instance : LawfulBEq Address := inferInstance

instance : LawfulBEq Hash := inferInstance

end GoWanchain

namespace GoWanchain.State

/-- `crypto.Keccak256Hash`. -/
class Keccak where
  keccak256 : Bytes → Hash

export Keccak (keccak256)

/-- A stand-in for the hash, with which runs can be evaluated. -/
@[reducible] def Sample.keccak : Keccak := ⟨fun b => BitVec.ofNat 256 (beNat (1 :: b))⟩

/-- The contents of a storage trie. -/
abbrev Trie := Finmap fun _ : Hash => Bytes

namespace Trie

/-- `TryUpdate`, or `TryDelete` where there is nothing to store. -/
def put (t : Trie) (key : Hash) : Option Bytes → Trie
  | none => t.erase key
  | some value => t.insert key value

/-- One of the two loops of `updateTrie`: every entry of `m` is stored in the form `slot` gives it. -/
def flush {ν : Type} (slot : ν → Option Bytes) (t : Trie) (m : GoMap Hash ν) : Trie :=
  m.entries.foldl (fun t e => t.put e.1 (slot e.2)) t

theorem lookup_put (t : Trie) (key k : Hash) (v : Option Bytes) :
    (t.put key v).lookup k = if k = key then v else t.lookup k := by
  by_cases hk : k = key
  · subst hk
    cases v <;> simp [put]
  · cases v <;> simp [put, hk, Finmap.lookup_erase_ne, Finmap.lookup_insert_of_ne]

theorem lookup_flush {ν : Type} (slot : ν → Option Bytes) (t : Trie) (m : GoMap Hash ν)
    (k : Hash) : (flush slot t m).lookup k = (m.lookup k).elim (t.lookup k) slot := by
  obtain ⟨l, hl⟩ := m
  show (l.foldl (fun t e => t.put e.1 (slot e.2)) t).lookup k = (l.dlookup k).elim (t.lookup k) slot
  induction l generalizing t with
  | nil => rfl
  | cons e _ ih =>
    obtain ⟨key, v⟩ := e
    obtain ⟨hfresh, hl⟩ := List.nodupKeys_cons.mp hl
    rw [List.foldl_cons, ih _ hl, lookup_put]
    by_cases hk : k = key
    · -- a later entry cannot have the key again
      subst hk
      rw [List.dlookup_eq_none.mpr hfresh, if_pos rfl, List.dlookup_cons_eq]
      rfl
    · rw [if_neg hk, List.dlookup_cons_ne _ _ hk]

end Trie

/-- The trie's form of a word slot; zero is not stored. -/
def slotOfWord (value : Hash) : Option Bytes := if value = 0 then none else some (encodeWord value)

/-- The trie's form of a byte-array slot; the empty array is not stored. -/
def slotOfBytes (value : Bytes) : Option Bytes := if value = [] then none else some value

abbrev Storage := GoMap Hash Hash

abbrev StorageByteArray := GoMap Hash Bytes

/-- The two kinds of storage slots. -/
inductive SlotKind where
  | word
  | bytes
deriving DecidableEq

/-- `state.Account`, with the contents of the storage trie for their root hash. -/
structure Account where
  nonce : UInt64
  balance : ℤ
  root : Trie
  codeHash : Hash
deriving DecidableEq

structure StateObject where
  data : Account
  code : Option Bytes
  cachedStorage : Storage
  dirtyStorage : Storage
  cachedStorageByteArray : StorageByteArray
  dirtyStorageByteArray : StorageByteArray
  dirtyCode : Bool
  suicided : Bool
  touched : Bool
  deleted : Bool
  onDirty : Bool
  word_cached : ∀ k v, dirtyStorage.lookup k = some v → cachedStorage.lookup k = some v
  bytes_cached : ∀ k v, dirtyStorageByteArray.lookup k = some v → cachedStorageByteArray.lookup k = some v

def emptyCodeHash [Keccak] : Hash := keccak256 []

/-- `Account{}` as `newObject` completes it. -/
def Account.zero [Keccak] : Account := ⟨0, 0, ∅, emptyCodeHash⟩

def newObject (data : Account) : StateObject where
  data := data
  code := none
  cachedStorage := ∅
  dirtyStorage := ∅
  cachedStorageByteArray := ∅
  dirtyStorageByteArray := ∅
  dirtyCode := false
  suicided := false
  touched := false
  deleted := false
  onDirty := true
  word_cached := by simp
  bytes_cached := by simp

theorem insert_cached {ν : Type} {dirty cached : GoMap Hash ν}
    (h : ∀ k v, dirty.lookup k = some v → cached.lookup k = some v) (key : Hash) (value : ν) (k : Hash)
    (v : ν) (hk : (dirty.insert key value).lookup k = some v) : (cached.insert key value).lookup k = some v := by
  rcases GoMap.lookup_insert_cases hk with ⟨rfl, rfl⟩ | ⟨hne, hk⟩
  · rw [AList.lookup_insert]
  · rw [AList.lookup_insert_ne hne]
    exact h k v hk

namespace StateObject

/-- No storage write is waiting to be flushed. -/
def clean (o : StateObject) : Bool :=
  GoMap.size o.dirtyStorage == 0 && GoMap.size o.dirtyStorageByteArray == 0

def empty [Keccak] (o : StateObject) : Bool :=
  o.data.nonce == 0 && o.data.balance == 0 &&
    (o.data.codeHash == emptyCodeHash || o.data.codeHash == 0) && decide (o.data.root = ∅) && o.clean

def getState (o : StateObject) (key : Hash) : Hash :=
  (o.cachedStorage.lookup key).getD (((o.data.root.lookup key).map decodeWord).getD 0)

def getStateByteArray (o : StateObject) (key : Hash) : Bytes :=
  (o.cachedStorageByteArray.lookup key).getD ((o.data.root.lookup key).getD [])

/-- `stateObject.Code`; `db` is where `ContractCode` finds the code of a hash. -/
def getCode [Keccak] (db : Hash → Option Bytes) (o : StateObject) : Option Bytes :=
  match o.code with
  | some code => some code
  | none => if o.data.codeHash = emptyCodeHash then none else db o.data.codeHash

def setBalance (amount : ℤ) (o : StateObject) : StateObject :=
  { o with data := { o.data with balance := amount } }

def setNonce (nonce : UInt64) (o : StateObject) : StateObject :=
  { o with data := { o.data with nonce } }

def setCode (codeHash : Hash) (code : Option Bytes) (o : StateObject) : StateObject :=
  { o with code, data := { o.data with codeHash }, dirtyCode := true }

def setState (key value : Hash) (o : StateObject) : StateObject :=
  { o with
    cachedStorage := o.cachedStorage.insert key value
    dirtyStorage := o.dirtyStorage.insert key value
    word_cached := insert_cached o.word_cached key value }

def setStateByteArray (key : Hash) (value : Bytes) (o : StateObject) : StateObject :=
  { o with
    cachedStorageByteArray := o.cachedStorageByteArray.insert key value
    dirtyStorageByteArray := o.dirtyStorageByteArray.insert key value
    bytes_cached := insert_cached o.bytes_cached key value }

/-- What `Suicide` does to its object; the undo restores the two fields it changes. -/
def setSuicided (suicided : Bool) (balance : ℤ) (o : StateObject) : StateObject :=
  { o.setBalance balance with suicided }

def setTouched (touched : Bool) (o : StateObject) : StateObject := { o with touched }

/-- The callback is dropped. -/
def disarm (o : StateObject) : StateObject := { o with onDirty := false }

/-- The storage trie after `updateTrie`. The words go first, so that a byte array written at the same
key replaces the word. -/
def updateTrie (o : StateObject) : Trie :=
  (o.data.root.flush slotOfWord o.dirtyStorage).flush slotOfBytes o.dirtyStorageByteArray

def updateRoot (o : StateObject) : StateObject :=
  { o with
    data := { o.data with root := o.updateTrie }
    dirtyStorage := ∅
    dirtyStorageByteArray := ∅
    word_cached := by simp
    bytes_cached := by simp }

/-- `deepCopy`, with the callback of the new owner. -/
def deepCopy (o : StateObject) : StateObject where
  data := o.data
  code := o.code
  dirtyStorage := o.dirtyStorage
  cachedStorage := o.dirtyStorage
  dirtyStorageByteArray := o.dirtyStorageByteArray
  cachedStorageByteArray := o.cachedStorageByteArray
  suicided := o.suicided
  dirtyCode := o.dirtyCode
  touched := false
  deleted := o.deleted
  onDirty := true
  word_cached := fun _ _ h => h
  bytes_cached := o.bytes_cached

theorem lookup_updateTrie (o : StateObject) (k : Hash) : o.updateTrie.lookup k = (o.dirtyStorageByteArray.lookup k).elim
      ((o.dirtyStorage.lookup k).elim (o.data.root.lookup k) slotOfWord) slotOfBytes := by
  rw [updateTrie, Trie.lookup_flush, Trie.lookup_flush]

end StateObject

/-- A change of one object: the values its setter puts. -/
inductive ObjectChange where
  | suicideChange (suicided : Bool) (balance : ℤ)
  | balanceChange (balance : ℤ)
  | nonceChange (nonce : UInt64)
  | storageChange (key value : Hash)
  | storageByteArrayChange (key : Hash) (value : Bytes)
  | codeChange (code : Option Bytes) (codeHash : Hash)
deriving DecidableEq

namespace ObjectChange

/-- The setter. -/
def apply : ObjectChange → StateObject → StateObject
  | suicideChange suicided balance => .setSuicided suicided balance
  | balanceChange amount => .setBalance amount
  | nonceChange nonce => .setNonce nonce
  | storageChange key value => .setState key value
  | storageByteArrayChange key value => .setStateByteArray key value
  | codeChange code codeHash => .setCode codeHash code

/-- The storage slot that is written. -/
def slot : ObjectChange → Option (Hash × SlotKind)
  | storageChange key _ => some (key, .word)
  | storageByteArrayChange key _ => some (key, .bytes)
  | _ => none

/-- The change back to what the object holds, as the journal records it. -/
def inverse [Keccak] (db : Hash → Option Bytes) (o : StateObject) : ObjectChange → ObjectChange
  | suicideChange _ _ => suicideChange o.suicided o.data.balance
  | balanceChange _ => balanceChange o.data.balance
  | nonceChange _ => nonceChange o.data.nonce
  | storageChange key _ => storageChange key (o.getState key)
  | storageByteArrayChange key _ => storageByteArrayChange key (o.getStateByteArray key)
  | codeChange _ _ => codeChange (o.getCode db) o.data.codeHash

end ObjectChange

end GoWanchain.State
