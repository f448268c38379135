import GoWanchain.Core.Transition
import GoWanchain.Types.Header

/-!
# What the pool asks of a transaction

The checks of `core/state_transition.go` and `core/vm/contracts.go` that are made before a transaction is executed:
`ValidPrivacyTx` and the `ValidTx` of the contracts with privacy.
-/

namespace GoWanchain.Core

open State Vm Types

inductive PoolError where
  | errInvalidTxType
  | errOversizedData
  | errGasLimit
  | errInvalidSender
  | errUnderpriced
  | errNonceTooLow
  | errInsufficientFunds
  | errIntrinsicGas
  | errReplaceUnderpriced
  | knownTransaction
  | errInvalidGasPrice
  | stampSpended
  | core (err : CoreError)
deriving DecidableEq

section

variable [Keccak] [Crypto]

def validPrivacyTx (db : StateDB) (hashInput input : Bytes) (gasPrice intrGas txValue : ℕ) (gasLimit : ℤ) :
    Except PoolError Unit := do
  ensure (intrGas < 2 ^ 64) (.core (.vm .errOutOfGas))
  ensure (txValue = 0) (.core .errInvalidPrivacyValue)
  ensure (0 < gasPrice) .errInvalidGasPrice
  let info ← relabel .core (fetchPrivacyTxInfo db hashInput input gasPrice)
  ensure (info.stampTotalGas ≤ Types.uint64 gasLimit) .errGasLimit
  let exist ← relabel (.core ∘ .vm) (checkOTAImageExist db (fromECDSAPub info.keyImage))
  ensure (exist = false) .stampSpended
  ensure (intrGas ≤ info.gasLeftSubRingSign) (.core (.vm .errOutOfGas))

/-- `ValidTx` of the contracts; only those with privacy check anything. -/
def validTx (db : StateDB) (signer : Signer) (tx : Transaction) : PrecompiledContract → Except PoolError Unit
  | .native _ => .ok ()
  | .wanchainStampSC => do
    ensure (4 ≤ tx.payload.length) (.core (.vm .errParameters))
    ensure (tx.payload.take 4 = stBuyId) (.core (.vm .errParameters))
    let _ ← relabel (.core ∘ .vm) (validBuyStampReq db (tx.payload.drop 4) tx.amount)
  | .wanCoinSC => do
    ensure (4 ≤ tx.payload.length) (.core (.vm .errParameters))
    if tx.payload.take 4 = buyIdArr then
      let _ ← relabel (.core ∘ .vm) (validBuyCoinReq db (tx.payload.drop 4) tx.amount)
    else
      ensure (tx.payload.take 4 = refundIdArr) (.core (.vm .errParameters))
      let sender ← need (signer tx) .errInvalidSender
      let _ ← relabel (.core ∘ .vm) (validRefundReq db (tx.payload.drop 4) (addressBytes sender))

end

end GoWanchain.Core
