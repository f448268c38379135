import GoWanchain.State.Content

/-!
# The managed state

`core/state/managed_state.go`: a copy of a state with nonces of its own. The transaction pool counts in it the nonces
of transactions that are not on the chain yet. `NewNonce` and `RemoveNonce`, which hand out nonces one by one, are
not used by it and left out, so that the list of nonces handed out is always empty here.
-/

namespace GoWanchain.State

/-- `account`; the state object is that of the state. -/
structure ManagedAccount where
  nstart : UInt64
  nonces : List Bool
deriving DecidableEq

structure ManagedState where
  stateDB : StateDB
  accounts : Address → Option ManagedAccount

namespace ManagedState

def manageState (s : StateDB) : ManagedState := ⟨s.copy, fun _ => none⟩

def newAccount (nonce : UInt64) : ManagedAccount := ⟨nonce, []⟩

/-- The nonce that a managed account stands at. -/
def ManagedAccount.next (account : ManagedAccount) : UInt64 := account.nonces.length.toUInt64 + account.nstart

/-- `getAccount`, for a managed account: the state must not be ahead of it. -/
def getAccount (ms : ManagedState) (addr : Address) (account : ManagedAccount) : ManagedAccount :=
  if ManagedAccount.next account < ms.stateDB.getNonce addr then newAccount (ms.stateDB.getNonce addr) else account

def getNonce (ms : ManagedState) (addr : Address) : UInt64 :=
  match ms.accounts addr with
  | some account => ManagedAccount.next (ms.getAccount addr account)
  | none => ms.stateDB.getNonce addr

theorem getNonce_manageState (db : Hash → Option Bytes) (trie : Address → Option Account) (a : Address) :
    (manageState (StateDB.new db trie)).getNonce a = (StateDB.new db trie).getNonce a := by
  rfl

variable [Keccak]

def setNonce (ms : ManagedState) (addr : Address) (nonce : UInt64) : ManagedState where
  stateDB := ms.stateDB.setNonce addr nonce
  accounts := Function.update ms.accounts addr (some (newAccount nonce))

theorem stateNonce_setNonce (s : StateDB) (a b : Address) (nonce : UInt64) :
    (s.setNonce a nonce).getNonce b = if b = a then nonce else s.getNonce b := by
  rw [StateDB.getNonce_eq, StateDB.content_setNonce, StateDB.getNonce_eq]
  by_cases h : b = a
  · subst h
    simp
  · simp [h]

theorem getNonce_setNonce (ms : ManagedState) (a b : Address) (nonce : UInt64) :
    (ms.setNonce a nonce).getNonce b = if b = a then nonce else ms.getNonce b := by
  by_cases h : b = a
  · subst h
    simp [getNonce, setNonce, getAccount, stateNonce_setNonce, newAccount, ManagedAccount.next]
  · simp [getNonce, setNonce, getAccount, stateNonce_setNonce, h]

end ManagedState

end GoWanchain.State
