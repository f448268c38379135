import GoWanchain.Lib.Action
import GoWanchain.Types.Transaction
import GoWanchain.Vm.Totality

/-!
# State transitions

`core/state_transition.go` and `core/gaspool.go`. A message is applied to the state: its gas is bought, by a normal
message from the sender and by a privacy message with a stamp, whose image is recorded; then it is executed, and
what was used is paid to the coinbase. An error leaves the state as it is then, and the caller has to revert it.
`big.Int.Div` panics when it is given a zero divisor.
-/

namespace GoWanchain.Core

open State Vm Types

inductive CoreError where
  | errInvalidSig
  | errNonceTooHigh
  | errNonceTooLow
  | errInsufficientBalanceForGas
  | errGasLimitReached
  | errInvalidPrivacyValue
  | abi
  | vm (err : VmError)
  | panic
deriving DecidableEq

def txGas : ℕ := 21000

def txGasContractCreation : ℕ := 53000

def txDataZeroGas : ℕ := 4

def txDataNonZeroGas : ℕ := 68

def intrinsicGas (data : Bytes) (contractCreation homestead : Bool) : ℕ :=
  let nz := data.countP (· != 0)
  (if contractCreation && homestead then txGasContractCreation else txGas) + nz * txDataNonZeroGas +
    (data.length - nz) * txDataZeroGas

/-- `StateTransition`, without the message and the machine, which stay the same. -/
structure StateTransition where
  gp : ℕ
  gas : ℕ
  initialGas : ℕ
  data : Bytes
  world : World

namespace StateTransition

def onDB (st : StateTransition) (f : StateDB → StateDB) : StateTransition := { st with world := st.world.onDB f }

/-- `gasUsed`. The gas is never more than what there was initially. -/
def gasUsed (st : StateTransition) : ℕ := st.initialGas - st.gas

end StateTransition

def newStateTransition (msg : Message) (gp : ℕ) (w : World) : StateTransition := ⟨gp, 0, 0, msg.data, w⟩

abbrev Transition := EStateM CoreError StateTransition

open Action (check lift)

def subGas (amount : ℕ) : Transition Unit := do
  check (amount ≤ (← get).gp) .errGasLimitReached
  modify fun st => { st with gp := st.gp - amount }

def useGas (amount : ℕ) : Transition Unit := do
  check (amount ≤ (← get).gas) (.vm .errOutOfGas)
  modify fun st => { st with gas := st.gas - amount }

/-! ### Privacy messages -/

/-- `PrivacyTxInfo`; the balance of the stamp is the `otaBalance` of the ring signature. -/
structure PrivacyTxInfo extends RingSignInfo where
  callData : Bytes
  stampTotalGas : ℕ
  gasLeftSubRingSign : ℕ
deriving DecidableEq

section Privacy

variable [Keccak] [Crypto]

omit [Keccak] in
def fetchPrivacyTxInfo (db : StateDB) (hashInput input : Bytes) (gasPrice : ℕ) : Except CoreError PrivacyTxInfo := do
  ensure (4 ≤ input.length) (.vm .errInvalidRingSigned)
  let (ringSignedData, cxtCallParams) ← need (unpackStringBytes (input.drop 4)) .abi
  let ringSignInfo ← relabel .vm (fetchRingSignInfo db hashInput ringSignedData)
  ensure (gasPrice ≠ 0) .panic
  let stampTotalGas := ringSignInfo.otaBalance / gasPrice
  ensure (stampTotalGas < 2 ^ 64) (.vm .errOutOfGas)
  -- the work of the ring signature, and the slot for the image
  let preSubGas := (requiredGasPerMixPub * ringSignInfo.publicKeys.length + sstoreSetGas) % 2 ^ 64
  ensure (preSubGas ≤ stampTotalGas) (.vm .errOutOfGas)
  return { ringSignInfo with
    callData := cxtCallParams, stampTotalGas, gasLeftSubRingSign := stampTotalGas - preSubGas }

/-- `PreProcessPrivacyTx`: the call data, the gas of the stamp and what is left for the execution. The image of a
stamp that was used is found, and no error is returned for it. -/
def preProcessPrivacyTx (sender : Address) (gasPrice txValue : ℕ) : Transition (Bytes × ℕ × ℕ) := do
  check (txValue = 0) .errInvalidPrivacyValue
  let info ← lift fun st => fetchPrivacyTxInfo st.world.db (addressBytes sender) st.data gasPrice
  let kix := fromECDSAPub info.keyImage
  let exist ← lift fun st => relabel .vm (checkOTAImageExist st.world.db kix)
  if exist then return ([], 0, 0)
  modify fun st =>
    -- the error of `AddOTAImage` is dropped
    match addOTAImage st.world.db kix (beBytes info.otaBalance) with
    | .error _ => st
    | .ok db => { st with world := { db, accepted := .stamp sender info.toRingSignInfo :: st.world.accepted } }
  return (info.callData, info.stampTotalGas, info.gasLeftSubRingSign)

end Privacy

/-! ### The transition -/

section Transition

variable [Keccak]

/-- How `from` and `to` end: the account exists. -/
def StateTransition.withAccount (addr : Address) (st : StateTransition) : StateTransition :=
  if st.world.db.exist addr then st else st.onDB (·.createAccount addr)

def ensureAccount (addr : Address) : Transition Unit := modify (·.withAccount addr)

def buyGas (msg : Message) : Transition Unit := do
  check (msg.gasLimit < 2 ^ 64) (.vm .errOutOfGas)
  let mgval := msg.gasLimit * msg.price
  ensureAccount msg.sender
  check (mgval ≤ (← get).world.db.getBalance msg.sender) .errInsufficientBalanceForGas
  subGas msg.gasLimit
  modify fun st => { st with gas := st.gas + msg.gasLimit, initialGas := msg.gasLimit }
  modify (·.onDB (·.subBalance msg.sender mgval))

/-- The check of the nonce in `preCheck`. -/
def checkNonce (msg : Message) : Transition Unit := do
  let nonce := (← get).world.db.getNonce msg.sender
  check (msg.checkNonce → msg.nonce ≤ nonce) .errNonceTooHigh
  check (msg.checkNonce → nonce ≤ msg.nonce) .errNonceTooLow

def preCheck (msg : Message) : Transition Unit := do
  ensureAccount msg.sender
  checkNonce msg
  buyGas msg

def refundGas (msg : Message) : Transition Unit := do
  ensureAccount msg.sender
  modify fun st => st.onDB (·.addBalance msg.sender ((st.gas * msg.price : ℕ) : ℤ))
  let st ← get
  let refund := min (st.gasUsed / 2) st.world.db.getRefund
  modify fun st => { st with gas := st.gas + refund }
  modify (·.onDB (·.addBalance msg.sender ((refund * msg.price : ℕ) : ℤ)))
  modify fun st => { st with gp := st.gp + st.gas }

variable [Crypto]

/-- What a privacy message does before it is executed: the gas of its stamp. -/
def useStamp (msg : Message) : Transition ℕ := do
  let (pureCallData, totalUseableGas, evmUseableGas) ← preProcessPrivacyTx msg.sender msg.price msg.amount
  modify fun st => { st with gas := evmUseableGas, initialGas := evmUseableGas, data := pureCallData }
  subGas totalUseableGas
  return totalUseableGas

/-- The run of the machine: `Create`, or the nonce is counted, the recipient exists and is called. -/
def StateTransition.run (evm : Evm) (msg : Message) (st : StateTransition) : Result :=
  match msg.recipient with
  | none => evm.result st.gas (evm.create 0 false msg.sender st.data st.gas msg.amount st.world) (within_create ..)
  | some addr =>
    let st := st.onDB fun db => db.setNonce msg.sender (db.getNonce msg.sender + 1)
    let st := st.withAccount addr
    evm.result st.gas (evm.call 0 false msg.sender addr st.data st.gas msg.amount st.world) (within_call ..)

def execute (evm : Evm) (msg : Message) : Transition (Bytes × Option VmError) := do
  let r := (← get).run evm msg
  modify fun st => { st with gas := r.gas, world := r.world }
  return (r.ret, r.err)

/-- What `TransitionDb` returns. -/
structure Executed where
  ret : Bytes
  requiredGas : ℕ
  usedGas : ℕ
  failed : Bool
deriving DecidableEq

/-- The gas that is required and used, after the refund. -/
def settleGas (msg : Message) (stampTotalGas : ℕ) : Transition (ℕ × ℕ) :=
  if isNormalTransaction msg.txType then do
    let requiredGas := (← get).gasUsed
    refundGas msg
    return (requiredGas, (← get).gasUsed)
  else return (stampTotalGas, stampTotalGas)

/-- The part of `TransitionDb` from the intrinsic gas on. -/
def conclude (evm : Evm) (msg : Message) (intrinsic stampTotalGas : ℕ) : Transition Executed := do
  useGas intrinsic
  let (ret, vmerr) ← execute evm msg
  check (vmerr ≠ some .errInsufficientBalance) (.vm .errInsufficientBalance)
  let (requiredGas, usedGas) ← settleGas msg stampTotalGas
  modify (·.onDB (·.addBalance evm.context.coinbase ((usedGas * msg.price : ℕ) : ℤ)))
  return ⟨ret, requiredGas, usedGas, vmerr.isSome⟩

def transitionDb (evm : Evm) (msg : Message) : Transition Executed := do
  if isNormalTransaction msg.txType then preCheck msg
  ensureAccount msg.sender
  let intrinsic := intrinsicGas (← get).data msg.recipient.isNone true
  check (intrinsic < 2 ^ 64) (.vm .errOutOfGas)
  let stampTotalGas ← if isNormalTransaction msg.txType then pure 0 else useStamp msg
  conclude evm msg intrinsic stampTotalGas

end Transition

end GoWanchain.Core
