import GoWanchain.Vm.Privacy

/-!
# Frames and calls

`core/vm/evm.go` and the state of one run of the interpreter. A call makes the checks and the transfer, and
then either has its result at once (a check fails, a native contract runs, there is no code) or runs a frame
of its own, whose result it settles: on an error the state is reverted and the gas is gone. `Entry` is the
one or the other. So the instructions that call are functions that return an entry, and only the
interpreter's loop recurs.
-/

namespace GoWanchain.Vm

open State

def callCreateDepth : ℕ := 1024

def maxCodeSize : ℕ := 24576

def createDataGas : ℕ := 200

structure Memory where
  store : Bytes
  lastGasCost : ℕ

namespace Memory

def set (m : Memory) (offset size : ℕ) (value : Bytes) : Memory :=
  if size > 0 then
    let copied := value.take size
    { m with store := m.store.take offset ++ copied ++ m.store.drop (offset + copied.length) }
  else m

def resize (m : Memory) (size : ℕ) : Memory :=
  { m with store := rightPadBytes m.store size }

def get (m : Memory) (offset size : ℕ) : Bytes :=
  if size = 0 then [] else (m.store.drop offset).take size

end Memory

/-- What stays the same while a frame runs. -/
structure Scope where
  contract : Contract
  input : Bytes
  readOnly : Bool
  depth : ℕ

structure Frame where
  scope : Scope
  pc : ℕ
  stack : List ℕ
  memory : Memory
  gas : ℕ
  returnData : Bytes
  world : World

/-- The frame that `Interpreter.Run` begins with. -/
def Frame.start (scope : Scope) (gas : ℕ) (w : World) : Frame where
  scope := scope
  pc := 0
  stack := []
  memory := ⟨[], 0⟩
  gas := gas
  returnData := []
  world := w

/-- A call that has its result, or a frame to run and what is done with its result. -/
inductive Entry where
  | done (r : Result)
  | run (child : Frame) (settle : Result → Result)

/-- `RevertToSnapshot`. The snapshot is a valid one. -/
def World.revert (w before : World) : World where
  db := (w.db.revertToSnapshot before.db.nextRevisionId).getD w.db
  accepted := before.accepted

/-- What a call does with the result of the frame: on an error the world before comes back. -/
def settleCall (before : World) (r : Result) : Result :=
  match r.err with
  | none => r
  | some err =>
    { r with
      gas := if err = .errExecutionReverted then r.gas else 0
      world := r.world.revert before }

variable [Keccak] [Crypto]

/-- `run`, up to the interpreter's loop. -/
def enter (contract : Contract) (input : Bytes) (readOnly : Bool) (depth gas : ℕ) (w : World)
    (settle : Result → Result) : Entry :=
  match precompiledContracts contract.codeAddr with
  | some p => .done (settle (runPrecompiledContract p input contract gas w))
  | none =>
    if contract.code = [] then .done (settle ⟨[], gas, none, w⟩)
    else .run (.start ⟨contract, input, readOnly, depth + 1⟩ gas w) settle

namespace Evm

variable (evm : Evm)

/-- The checks that all calls begin with. -/
def checkCall (depth gas : ℕ) (w : World) (k : Entry) : Entry :=
  if evm.vmConfig.noRecursion ∧ depth > 0 then .done ⟨[], gas, none, w⟩
  else if depth > callCreateDepth then .done ⟨[], gas, some .errDepth, w⟩
  else k

/-- The check of the balance, for calls that name a value. -/
def checkTransfer (caller : Address) (gas value : ℕ) (w : World) (k : Entry) : Entry :=
  if canTransfer w.db caller value then k
  else .done ⟨[], gas, some .errInsufficientBalance, w⟩

/-- The account that is called exists afterwards, and has the value; the privacy contracts take it from the
caller themselves. -/
def openCall (caller addr : Address) (value : ℕ) (db : StateDB) : StateDB :=
  let db := if db.exist addr then db else db.createAccount addr
  if addr ≠ wanCoinPrecompileAddr ∧ addr ≠ wanStampPrecompileAddr then transfer db caller addr value
  else db

def call (depth : ℕ) (readOnly : Bool) (caller addr : Address) (input : Bytes) (gas value : ℕ) (w : World) : Entry :=
  evm.checkCall depth gas w <| checkTransfer caller gas value w <| let db := w.db.snapshot
    if db.exist addr = false ∧ precompiledContracts addr = none ∧ value = 0 then
      .done ⟨[], gas, none, { w with db }⟩
    else
      let db := openCall caller addr value db
      enter ⟨caller, addr, db.getCode addr, addr, value⟩ input readOnly depth gas { w with db } (settleCall w)

def callCode (depth : ℕ) (readOnly : Bool) (caller addr : Address) (input : Bytes) (gas value : ℕ)
    (w : World) : Entry :=
  evm.checkCall depth gas w <| checkTransfer caller gas value w <| let db := w.db.snapshot
    enter ⟨caller, caller, db.getCode addr, addr, value⟩ input readOnly depth gas { w with db } (settleCall w)

def delegateCall (depth : ℕ) (readOnly : Bool) (parent : Contract) (addr : Address) (input : Bytes)
    (gas : ℕ) (w : World) : Entry :=
  evm.checkCall depth gas w <| let db := w.db.snapshot
    let contract : Contract := ⟨parent.self, parent.self, db.getCode addr, addr, 0⟩
    enter (contract.asDelegate parent) input readOnly depth gas { w with db } (settleCall w)

def staticCall (depth : ℕ) (caller addr : Address) (input : Bytes) (gas : ℕ) (w : World) : Entry :=
  evm.checkCall depth gas w <| let db := w.db.snapshot
    enter ⟨caller, addr, db.getCode addr, addr, 0⟩ input true depth gas { w with db } (settleCall w)

/-- What `Create` does with the result of the code that makes the contract. -/
def settleCreate (before : World) (contractAddr : Address) (r : Result) : Result :=
  let maxCodeSizeExceeded := r.ret.length > maxCodeSize
  let stored : Result :=
    if r.err = none ∧ ¬ maxCodeSizeExceeded then
      if r.ret.length * createDataGas ≤ r.gas then
        { r with
          gas := r.gas - r.ret.length * createDataGas
          world := r.world.onDB (·.setCode contractAddr r.ret) }
      else { r with err := some .errCodeStoreOutOfGas }
    else r
  if maxCodeSizeExceeded ∨ stored.err ≠ none then
    { stored with
      gas := if stored.err = some .errExecutionReverted then stored.gas else 0
      err := some (stored.err.getD .errMaxCodeSizeExceeded)
      world := stored.world.revert before }
  else stored

/-- The new account, with the value and the nonce 1. -/
def openCreate (caller contractAddr : Address) (value : ℕ) (db : StateDB) : StateDB :=
  transfer ((db.createAccount contractAddr).setNonce contractAddr 1) caller contractAddr value

/-- `Create`; the address of the contract is `createAddress` of the caller and its nonce. -/
def create (depth : ℕ) (readOnly : Bool) (caller : Address) (code : Bytes) (gas value : ℕ) (w : World) : Entry :=
  if depth > callCreateDepth then .done ⟨[], gas, some .errDepth, w⟩
  else checkTransfer caller gas value w <| let nonce := w.db.getNonce caller
    let contractAddr := createAddress caller nonce
    let counted := w.onDB (·.setNonce caller (nonce + 1))
    if counted.db.empty contractAddr = false then
      .done ⟨[], 0, some .errContractAddressCollision, counted⟩
    else
      let opened := counted.onDB fun db => openCreate caller contractAddr value db.snapshot
      if evm.vmConfig.noRecursion ∧ depth > 0 then .done ⟨[], gas, none, opened⟩
      else enter ⟨caller, contractAddr, code, contractAddr, value⟩ [] readOnly depth gas opened
        (settleCreate counted contractAddr)

end Evm

end GoWanchain.Vm
