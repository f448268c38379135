import GoWanchain.Lib.Run
import GoWanchain.State.WellFormed

/-!
# Runs of the state database

The operations of a `StateDB` as the inputs of a machine. A caller holds the identifiers of the
snapshots it took; those it can still revert to are the valid ones, and `revert back` names one of them
by its place, the newest first. `RevertToSnapshot` panics on any other identifier, which no run does:
`step` leaves the state alone there.
-/

namespace GoWanchain.State

/-- An operation that the journal can take back. -/
inductive Write where
  | setBalance (addr : Address) (amount : ℤ)
  | addBalance (addr : Address) (amount : ℤ)
  | subBalance (addr : Address) (amount : ℤ)
  | setNonce (addr : Address) (nonce : UInt64)
  | setCode (addr : Address) (code : Bytes)
  | setState (addr : Address) (key value : Hash)
  | setStateByteArray (addr : Address) (key : Hash) (value : Bytes)
  | createAccount (addr : Address)
  | suicide (addr : Address)
  | addRefund (gas : ℕ)
  | addLog (log : Log)
  | addPreimage (hash : Hash) (preimage : Bytes)
deriving DecidableEq

def Write.account : Write → Option Address
  | .setBalance addr _ => some addr
  | .addBalance addr _ => some addr
  | .subBalance addr _ => some addr
  | .setNonce addr _ => some addr
  | .setCode addr _ => some addr
  | .setState addr _ _ => some addr
  | .setStateByteArray addr _ _ => some addr
  | .createAccount addr => some addr
  | .suicide addr => some addr
  | .addRefund _ | .addLog _ | .addPreimage _ _ => none

def Write.slot : Write → Option (Hash × SlotKind)
  | .setState _ key _ => some (key, .word)
  | .setStateByteArray _ key _ => some (key, .bytes)
  | _ => none

inductive Op where
  | write (w : Write)
  | snapshot
  | revert (back : ℕ)
  | prepare (thash bhash : Hash) (txIndex : ℕ)
  | finalise (deleteEmptyObjects : Bool)
  | commitTo (deleteEmptyObjects : Bool)
  | deleteSuicides
deriving DecidableEq

namespace StateDB

variable [Keccak]

def write (s : StateDB) : Write → StateDB
  | .setBalance addr amount => s.setBalance addr amount
  | .addBalance addr amount => s.addBalance addr amount
  | .subBalance addr amount => s.subBalance addr amount
  | .setNonce addr nonce => s.setNonce addr nonce
  | .setCode addr code => s.setCode addr code
  | .setState addr key value => s.setState addr key value
  | .setStateByteArray addr key value => s.setStateByteArray addr key value
  | .createAccount addr => s.createAccount addr
  | .suicide addr => (s.suicide addr).1
  | .addRefund gas => s.addRefund gas
  | .addLog log => s.addLog log
  | .addPreimage hash preimage => s.addPreimage hash preimage

theorem write_moves (s : StateDB) (w : Write) : Moves w.account w.slot s (s.write w) := by
  cases w with
  | setBalance addr amount => exact change_moves s addr (.balanceChange amount)
  | addBalance addr amount => exact addBalance_moves s addr amount
  | subBalance addr amount => exact subBalance_moves s addr amount
  | setNonce addr nonce => exact change_moves s addr (.nonceChange nonce)
  | setCode addr code => exact change_moves s addr (.codeChange (some code) (keccak256 code))
  | setState addr key value => exact change_moves s addr (.storageChange key value)
  | setStateByteArray addr key value =>
    exact change_moves s addr (.storageByteArrayChange key value)
  | createAccount addr => exact createAccount_moves s addr
  | suicide addr => exact suicide_moves s addr
  | addRefund gas => exact addRefund_moves s gas
  | addLog log => exact addLog_moves s log
  | addPreimage hash preimage => exact addPreimage_moves s hash preimage

omit [Keccak] in
/-- `RevertToSnapshot` of a valid snapshot, by its place. -/
def revertBack (s : StateDB) (back : ℕ) : Option StateDB :=
  s.validRevisions[back]?.bind fun r => s.revertToSnapshot r.id

omit [Keccak] in
theorem revertBack_eq {s t : StateDB} {back : ℕ} (h : s.revertBack back = some t) :
    ∃ revid, s.revertToSnapshot revid = some t := by
  obtain ⟨r, -, hr⟩ := Option.bind_eq_some_iff.mp h
  exact ⟨r.id, hr⟩

def step (s : StateDB) : Op → StateDB
  | .write w => s.write w
  | .snapshot => s.snapshot
  | .revert back => (s.revertBack back).getD s
  | .prepare thash bhash txIndex => s.prepare thash bhash txIndex
  | .finalise deleteEmptyObjects => s.finalise deleteEmptyObjects
  | .commitTo deleteEmptyObjects => s.commitTo deleteEmptyObjects
  | .deleteSuicides => s.deleteSuicides

end StateDB

end GoWanchain.State
