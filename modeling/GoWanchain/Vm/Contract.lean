import GoWanchain.Common.Encoding
import GoWanchain.State.StateDB

/-!
# Contracts and their surroundings

`core/vm/contract.go`, `core/vm/errors.go` and the context of the virtual machine. What the machine takes
from elsewhere is a parameter: the curve, the check of a ring signature and the native contracts at the
addresses 1 to 8, which return bytes or an error and do not see the state (`Crypto`).

The world has one list that the code does not have, `accepted`: the requests to the privacy contracts that
were granted and not reverted, and the stamps that privacy transactions used, the last one first.
-/

namespace GoWanchain.Vm

open State

inductive VmError where
  | errOutOfGas
  | errCodeStoreOutOfGas
  | errDepth
  | errInsufficientBalance
  | errContractAddressCollision
  | errWriteProtection
  | errReturnDataOutOfBounds
  | errExecutionReverted
  | errMaxCodeSizeExceeded
  | errGasUintOverflow
  | invalidOpcode (op : UInt8)
  | stackUnderflow
  | stackLimitReached
  | invalidJumpDestination (pos : ℕ)
  | errParameters
  | errMethodId
  | errBuyCoin
  | errRefundCoin
  | errBuyStamp
  | errBalance
  | errStampValue
  | errCoinValue
  | errMismatchedValue
  | errInvalidOTASet
  | errOTAReused
  | errUnknown
  | errInvalidOTAAddr
  | errInvalidOTAAX
  | errOTAExistAlready
  | errOTADoesNotExist
  | errOTABalanceIsZero
  | errDifferentBalances
  | errInvalidRingSigned
  | errInvalidInputParam
  | hex (err : HexError)
  | native
deriving DecidableEq

/-- An `ecdsa.PublicKey` on the curve. -/
structure PublicKey where
  x : ℕ
  y : ℕ
deriving DecidableEq

/-- The native contracts that do not touch the state. -/
inductive Native where
  | ecrecover
  | sha256hash
  | ripemd160hash
  | dataCopy
  | bigModExp
  | bn256Add
  | bn256ScalarMul
  | bn256Pairing
deriving DecidableEq

/-- What is taken from the cryptographic packages. -/
class Crypto where
  isOnCurve : ℕ → ℕ → Bool
  verifyRingSign : Bytes → List PublicKey → PublicKey → List ℕ → List ℕ → Bool
  requiredGas : Native → Bytes → ℕ
  runNative : Native → Bytes → Option Bytes

/-- Stand-ins with which runs can be evaluated. -/
@[reducible] def Sample.crypto : Crypto where
  isOnCurve _ _ := true
  verifyRingSign _ _ _ _ _ := true
  requiredGas _ _ := 0
  runNative _ _ := none

def toECDSAPub [Crypto] (pub : Bytes) : Option PublicKey :=
  if pub.length ≠ 65 then none
  else
    let x := beNat ((pub.drop 1).take 32)
    let y := beNat (pub.drop 33)
    if pub.head? = some 4 ∧ Crypto.isOnCurve x y = true then some ⟨x, y⟩ else none

def fromECDSAPub (pub : PublicKey) : Bytes := 4 :: bePadded 32 pub.x ++ bePadded 32 pub.y

def ecdsaPKCompression (p : PublicKey) : Bytes := (if p.y % 2 = 1 then 3 else 2) :: bePadded 32 p.x

def createAddress [Keccak] (b : Address) (nonce : UInt64) : Address :=
  BitVec.ofNat 160 (keccak256 (rlpAddressNonce b nonce)).toNat

/-- `vm.Context`, without the two functions for transfers, which are those of `core/evm.go`. -/
structure Context where
  getHash : ℕ → Hash
  origin : Address
  gasPrice : ℕ
  coinbase : Address
  gasLimit : ℕ
  blockNumber : ℕ
  time : ℕ
  difficulty : ℕ

/-- The switches of `vm.Config` that change what is executed. -/
structure Config where
  noRecursion : Bool := false
  enablePreimageRecording : Bool := false

structure Evm where
  context : Context
  vmConfig : Config

/-- `Contract`, without its gas, which the frame counts. -/
structure Contract where
  callerAddress : Address
  self : Address
  code : Bytes
  codeAddr : Address
  value : ℕ
deriving DecidableEq

namespace Contract

def asDelegate (c parent : Contract) : Contract :=
  { c with callerAddress := parent.callerAddress, value := parent.value }

def getByte (c : Contract) (n : ℕ) : UInt8 := c.code.getD n 0

end Contract

structure RingSignInfo where
  publicKeys : List PublicKey
  keyImage : PublicKey
  wRandom : List ℕ
  qRandom : List ℕ
  otaBalance : ℕ
deriving DecidableEq

/-- A request to a privacy contract that was granted, or the stamp of a privacy transaction. -/
inductive Request where
  | buy (payer : Address) (wanAddr : Bytes) (value : ℕ)
  | refund (payee : Address) (info : RingSignInfo)
  | stamp (sender : Address) (info : RingSignInfo)
deriving DecidableEq

structure World where
  db : StateDB
  accepted : List Request

namespace World

def onDB (w : World) (f : StateDB → StateDB) : World := { w with db := f w.db }

end World

variable [Keccak]

def canTransfer (db : StateDB) (addr : Address) (amount : ℕ) : Bool := amount ≤ db.getBalance addr

def transfer (db : StateDB) (sender recipient : Address) (amount : ℕ) : StateDB :=
  (db.subBalance sender amount).addBalance recipient amount

end GoWanchain.Vm
