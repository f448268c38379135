import GoWanchain.Lib.Journal
import GoWanchain.State.Object

/-!
# The state database

`core/state/statedb.go` and `core/state/journal.go`. A `StateDB` is a store whose changes are
journaled: the account trie, taken as its contents, the live objects over it, the marks of the
dirty ones and the refund counter, logs and preimages. A live object that was deleted stands for
no account.

An account that is only in the trie is read as the object that loading it would create; keeping
that object among the live ones changes nothing that is read, so reads are functions of the state
and only changes put objects there. Undoing an entry fails where the code would follow a nil
pointer. What `CommitTo` writes to disk besides the account trie is left out.
-/

namespace GoWanchain.State

open Function

structure Log where
  address : Address
  topics : List Hash
  data : Bytes
  blockNumber : ℕ
  txHash : Hash := 0
  txIndex : ℕ := 0
  blockHash : Hash := 0
  index : ℕ := 0
deriving DecidableEq

inductive JournalEntry where
  | createObjectChange (account : Address)
  | resetObjectChange (account : Address) (prev : StateObject)
  | objectChange (account : Address) (change : ObjectChange)
  | touchChange (account : Address) (prev prevDirty : Bool)
  | refundChange (prev : ℕ)
  | addLogChange (txhash : Hash)
  | addPreimageChange (hash : Hash)

/-- The code store, and what is counted and collected beside the accounts. -/
structure Substate where
  db : Hash → Option Bytes
  refund : ℕ
  thash : Hash
  bhash : Hash
  txIndex : ℕ
  logs : Hash → List Log
  logSize : ℕ
  preimages : Hash → Option Bytes

structure Store extends Substate where
  trie : Address → Option Account
  stateObjects : Address → Option StateObject
  stateObjectsDirty : Address → Bool

def ripemd : Address := 3

namespace Store

def getStateObject (s : Store) (addr : Address) : Option StateObject :=
  match s.stateObjects addr with
  | some obj => if obj.deleted then none else some obj
  | none => (s.trie addr).map newObject

def setStateObject (s : Store) (addr : Address) (obj : StateObject) : Store :=
  { s with stateObjects := update s.stateObjects addr (some obj) }

def markStateObjectDirty (s : Store) (addr : Address) : Store :=
  { s with stateObjectsDirty := update s.stateObjectsDirty addr true }

/-- How every setter ends: the object is changed and its callback, if still set, is called and
dropped. -/
def setDirty (s : Store) (addr : Address) (obj : StateObject) : Store :=
  (if obj.onDirty then s.markStateObjectDirty addr else s).setStateObject addr obj.disarm

def undo : JournalEntry → Store → Option Store
  | .createObjectChange account, s => some { s with
        stateObjects := update s.stateObjects account none
        stateObjectsDirty := update s.stateObjectsDirty account false }
  | .resetObjectChange account prev, s => some (s.setStateObject account prev)
  | .objectChange account change, s =>
    match s.getStateObject account, change with
    | some obj, change => some (s.setDirty account (change.apply obj))
    | none, .suicideChange _ _ => some s
    | none, _ => none
  | .touchChange account prev prevDirty, s =>
    if !prev && account != ripemd then
      (s.getStateObject account).map fun obj =>
        let s := s.setStateObject account (obj.setTouched prev)
        if prevDirty then s
        else { s with stateObjectsDirty := update s.stateObjectsDirty account false }
    else some s
  | .refundChange prev, s => some { s with refund := prev }
  | .addLogChange txhash, s => some { s with
        logs := update s.logs txhash (s.logs txhash).dropLast
        logSize := s.logSize - 1 }
  | .addPreimageChange hash, s => some { s with preimages := update s.preimages hash none }

/-! What the three maps hold at one address. -/

structure Cell where
  obj : Option StateObject
  dirty : Bool
  account : Option Account

def cell (s : Store) (addr : Address) : Cell :=
  ⟨s.stateObjects addr, s.stateObjectsDirty addr, s.trie addr⟩

/-- A loop over the objects, each of which is handled on its own. -/
def mapCells (f : Cell → Cell) (s : Store) : Store :=
  { s with
    stateObjects := fun addr => (f (s.cell addr)).obj
    stateObjectsDirty := fun addr => (f (s.cell addr)).dirty
    trie := fun addr => (f (s.cell addr)).account }

def Cell.deleteStateObject (obj : StateObject) (c : Cell) : Cell :=
  { c with obj := some { obj with deleted := true }, account := none }

/-- `updateStateObject` after `updateRoot`, or after `CommitTrie`. -/
def Cell.updateStateObject (obj : StateObject) (c : Cell) : Cell :=
  { c with obj := some obj.updateRoot, account := some obj.updateRoot.data }

variable [Keccak]

/-- The body of the loop of `Finalise`. -/
def Cell.finalise (deleteEmptyObjects : Bool) (c : Cell) : Cell :=
  match c.obj, c.dirty with
  | some obj, true =>
    if obj.suicided || (deleteEmptyObjects && obj.empty) then c.deleteStateObject obj
    else c.updateStateObject obj
  | _, _ => c

/-- The body of the loop of `CommitTo`. -/
def Cell.commit (deleteEmptyObjects : Bool) (c : Cell) : Cell :=
  match c.obj with
  | some obj =>
    if obj.suicided || (c.dirty && deleteEmptyObjects && obj.empty) then
      { c.deleteStateObject obj with dirty := false }
    else if c.dirty then
      { c.updateStateObject { obj with dirtyCode := obj.dirtyCode && obj.code.isNone } with
        dirty := false }
    else c
  | none => c

/-- The body of the loop of `DeleteSuicides`. -/
def Cell.deleteSuicides (c : Cell) : Cell :=
  match c.obj, c.dirty with
  | some obj, true => ⟨some { obj with deleted := obj.deleted || obj.suicided }, false, c.account⟩
  | _, _ => c

/-- What `Copy` takes over of an object: the dirty ones, with the callback of the copy. -/
def Cell.copy (c : Cell) : Cell :=
  match c.obj, c.dirty with
  | some obj, true => ⟨some obj.deepCopy, true, c.account⟩
  | _, _ => ⟨none, c.dirty, c.account⟩

end Store

abbrev StateDB := Journaled Store JournalEntry

namespace StateDB

/-- `New`, with the contents of the opened trie. -/
def new (db : Hash → Option Bytes) (trie : Address → Option Account) : StateDB where
  state :=
    { db, trie, stateObjects := fun _ => none, stateObjectsDirty := fun _ => false, refund := 0
      thash := 0, bhash := 0, txIndex := 0, logs := fun _ => [], logSize := 0
      preimages := fun _ => none }
  journal := []
  validRevisions := []
  nextRevisionId := 0

/-- `Snapshot`; the identifier it returns is `nextRevisionId` before. -/
def snapshot (s : StateDB) : StateDB := Journaled.snapshot s

def revertToSnapshot (s : StateDB) (revid : ℕ) : Option StateDB :=
  Journaled.revertToSnapshot Store.undo revid s

/-- The store changes and the journal gets an entry. -/
def record (s : StateDB) (entry : JournalEntry) (state : Store) : StateDB :=
  { s with state, journal := entry :: s.journal }

def addRefund (s : StateDB) (gas : ℕ) : StateDB :=
  s.record (.refundChange s.state.refund) { s.state with refund := s.state.refund + gas }

def addLog (s : StateDB) (log : Log) : StateDB :=
  let log := { log with
    txHash := s.state.thash
    blockHash := s.state.bhash
    txIndex := s.state.txIndex
    index := s.state.logSize }
  s.record (.addLogChange s.state.thash) { s.state with
      logs := update s.state.logs s.state.thash (s.state.logs s.state.thash ++ [log])
      logSize := s.state.logSize + 1 }

def addPreimage (s : StateDB) (hash : Hash) (preimage : Bytes) : StateDB :=
  match s.state.preimages hash with
  | some _ => s
  | none => s.record (.addPreimageChange hash)
      { s.state with preimages := update s.state.preimages hash (some preimage) }

def prepare (s : StateDB) (thash bhash : Hash) (txIndex : ℕ) : StateDB :=
  { s with state := { s.state with thash, bhash, txIndex } }

def getRefund (s : StateDB) : ℕ := s.state.refund

def getLogs (s : StateDB) (hash : Hash) : List Log := s.state.logs hash

def preimages (s : StateDB) (hash : Hash) : Option Bytes := s.state.preimages hash

def clearJournalAndRefund (s : StateDB) : StateDB :=
  { s with state := { s.state with refund := 0 }, journal := [], validRevisions := [] }

/-! ### Reading an account -/

def exist (s : StateDB) (addr : Address) : Bool := (s.state.getStateObject addr).isSome

def getBalance (s : StateDB) (addr : Address) : ℤ :=
  (s.state.getStateObject addr).elim 0 (·.data.balance)

def getNonce (s : StateDB) (addr : Address) : UInt64 :=
  (s.state.getStateObject addr).elim 0 (·.data.nonce)

def getCodeHash (s : StateDB) (addr : Address) : Hash :=
  (s.state.getStateObject addr).elim 0 (·.data.codeHash)

def getState (s : StateDB) (addr : Address) (key : Hash) : Hash :=
  (s.state.getStateObject addr).elim 0 (·.getState key)

def getStateByteArray (s : StateDB) (addr : Address) (key : Hash) : Bytes :=
  (s.state.getStateObject addr).elim [] (·.getStateByteArray key)

def hasSuicided (s : StateDB) (addr : Address) : Bool :=
  (s.state.getStateObject addr).elim false (·.suicided)

variable [Keccak]

def empty (s : StateDB) (addr : Address) : Bool :=
  (s.state.getStateObject addr).elim true (·.empty)

/-- `GetCode`; no code is the empty code. -/
def getCode (s : StateDB) (addr : Address) : Bytes :=
  ((s.state.getStateObject addr).bind (·.getCode s.state.db)).getD []

def getCodeSize (s : StateDB) (addr : Address) : ℕ := (s.getCode addr).length

/-! ### Changing an account -/

/-- The object that `createObject` makes: its nonce has been set, which called the callback. -/
def freshObject : StateObject := ((newObject Account.zero).setNonce 0).disarm

def createObject (s : StateDB) (addr : Address) : StateDB :=
  let entry := match s.state.getStateObject addr with
    | none => .createObjectChange addr
    | some prev => .resetObjectChange addr prev
  s.record entry (s.state.setDirty addr ((newObject Account.zero).setNonce 0))

def getOrNewStateObject (s : StateDB) (addr : Address) : StateDB × StateObject :=
  match s.state.getStateObject addr with
  | some obj => (s, obj)
  | none => (s.createObject addr, freshObject)

/-- `createObject`, and the balance of the account it replaces is carried over. -/
def createAccount (s : StateDB) (addr : Address) : StateDB :=
  let new := s.createObject addr
  match s.state.getStateObject addr with
  | none => new
  | some prev => { new with
      state := new.state.setDirty addr (freshObject.setBalance prev.data.balance) }

/-- A setter of a `StateDB`: the journal gets the change back, the object is changed. -/
def change (s : StateDB) (addr : Address) (change : ObjectChange) : StateDB :=
  let (s, obj) := s.getOrNewStateObject addr
  s.record (.objectChange addr (change.inverse s.state.db obj)) (s.state.setDirty addr (change.apply obj))

def touch (s : StateDB) (addr : Address) (obj : StateObject) : StateDB :=
  s.record (.touchChange addr obj.touched (!obj.onDirty)) (s.state.setDirty addr (obj.setTouched true))

def setBalance (s : StateDB) (addr : Address) (amount : ℤ) : StateDB :=
  s.change addr (.balanceChange amount)

def addBalance (s : StateDB) (addr : Address) (amount : ℤ) : StateDB :=
  let (s, obj) := s.getOrNewStateObject addr
  if 0 < amount then s.setBalance addr (obj.data.balance + amount)
  -- an empty account is touched, so that it may be deleted
  else if amount = 0 ∧ obj.empty then s.touch addr obj
  else s

def subBalance (s : StateDB) (addr : Address) (amount : ℤ) : StateDB :=
  let (s, obj) := s.getOrNewStateObject addr
  if 0 < amount then s.setBalance addr (obj.data.balance - amount) else s

def setNonce (s : StateDB) (addr : Address) (nonce : UInt64) : StateDB :=
  s.change addr (.nonceChange nonce)

def setCode (s : StateDB) (addr : Address) (code : Bytes) : StateDB :=
  s.change addr (.codeChange (some code) (keccak256 code))

def setState (s : StateDB) (addr : Address) (key value : Hash) : StateDB :=
  s.change addr (.storageChange key value)

def setStateByteArray (s : StateDB) (addr : Address) (key : Hash) (value : Bytes) : StateDB :=
  s.change addr (.storageByteArrayChange key value)

def suicide (s : StateDB) (addr : Address) : StateDB × Bool :=
  match s.state.getStateObject addr with
  | none => (s, false)
  | some _ => (s.change addr (.suicideChange true 0), true)

/-! ### The end of a transaction or a block -/

def finalise (s : StateDB) (deleteEmptyObjects : Bool) : StateDB :=
  clearJournalAndRefund { s with state := s.state.mapCells (.finalise deleteEmptyObjects) }

/-- `IntermediateRoot`: the contents of the account trie stand for its root. -/
def intermediateRoot (s : StateDB) (deleteEmptyObjects : Bool) : Address → Option Account :=
  (s.finalise deleteEmptyObjects).state.trie

def commitTo (s : StateDB) (deleteEmptyObjects : Bool) : StateDB :=
  clearJournalAndRefund { s with state := s.state.mapCells (.commit deleteEmptyObjects) }

def deleteSuicides (s : StateDB) : StateDB :=
  clearJournalAndRefund { s with state := s.state.mapCells .deleteSuicides }

/-- `Copy`, of which the trie is the trie of the original. -/
def copy (s : StateDB) : StateDB where
  state := { s.state.mapCells .copy with thash := 0, bhash := 0, txIndex := 0 }
  journal := []
  validRevisions := []
  nextRevisionId := 0

end StateDB

end GoWanchain.State
