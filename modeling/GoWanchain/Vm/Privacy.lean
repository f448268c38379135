import GoWanchain.Vm.Contract

/-!
# The privacy contracts

`core/vm/ota_storage.go` and the contracts `wanCoinSC` and `wanchainStampSC` of `core/vm/contracts.go`, which run
at the addresses 100 and 200. One-time addresses (OTAs) are recorded in byte-array storage: the balance of an OTA
at `otaBalanceStorageAddr` under its key AX, its full address at an address made of the balance, and
the image of a spent one at `otaImageStorageAddr`.

A stored array of which the code takes the first 33 bytes has 66 bytes, for only `setOTA` writes there; the
model takes as many as there are. The contracts pay from and to `CallerAddress` of the contract they run for, and
what they have written stays when they fail: it is the call that reverts it.
-/

namespace GoWanchain.Vm

open State

def otaBalanceStorageAddr : Address := 300

def otaImageStorageAddr : Address := 301

def wanCoinPrecompileAddr : Address := 100

def wanStampPrecompileAddr : Address := 200

/-- The length of a `WAddress`. -/
def wAddressLength : ℕ := 66

def hashLength : ℕ := 32

def requiredGasPerMixPub : ℕ := 4000

def sstoreSetGas : ℕ := 20000

/-! ### The storage of one-time addresses -/

/-- The decimal digits of the balance, read as hexadecimal ones. -/
def otaBalance2ContractAddr (balance : ℕ) : Address := hexToAddress (decimal balance)

def getAXFromWanAddr (otaWanAddr : Bytes) : Except VmError Bytes := do
  ensure (otaWanAddr.length = wAddressLength) .errInvalidOTAAddr
  return (otaWanAddr.drop 1).take hashLength

def getOtaBalanceFromAX (db : StateDB) (otaAX : Bytes) : Except VmError ℕ := do
  ensure (otaAX.length = hashLength) .errInvalidOTAAX
  return beNat (db.getStateByteArray otaBalanceStorageAddr (bytesToHash otaAX))

/-- `CheckOTAAXExist`: the balance of the OTA, if there is one. -/
def checkOTAAXExist (db : StateDB) (otaAX : Bytes) : Except VmError (Option ℕ) := do
  let balance ← getOtaBalanceFromAX db otaAX
  return if balance = 0 then none else some balance

/-- `CheckOTALongAddrExist`: the balance of the OTA, if it is recorded with this public key. -/
def checkOTALongAddrExist (db : StateDB) (otaLongAddr : Bytes) : Except VmError (Option ℕ) := do
  ensure (otaLongAddr.length = 33) .errInvalidOTAAX
  let otaAX := (otaLongAddr.drop 1).take hashLength
  let balance ← getOtaBalanceFromAX db otaAX
  let otaStored := db.getStateByteArray (otaBalance2ContractAddr balance) (bytesToHash otaAX)
  return if balance = 0 ∨ otaStored = [] ∨ otaLongAddr ≠ otaStored.take 33 then none else some balance

/-- One round of the loop of `BatCheckOTAExist`. -/
def batCheckOTA (db : StateDB) (balance : Option ℕ) (otaLongAddr : Bytes) : Except VmError (Option ℕ) := do
  ensure (otaLongAddr.length = 33) .errInvalidOTAAX
  let balanceTmp ← need (← checkOTALongAddrExist db otaLongAddr) .errOTADoesNotExist
  ensure (balanceTmp ≠ 0) .errOTABalanceIsZero
  ensure (balance.getD balanceTmp = balanceTmp) .errDifferentBalances
  return some balanceTmp

/-- `BatCheckOTAExist`: the balance that all of them have. -/
def batCheckOTAExist (db : StateDB) (otaLongAddrs : List Bytes) : Except VmError ℕ := do
  let balance ← otaLongAddrs.foldlM (batCheckOTA db) none
  need balance .errUnknown

variable [Keccak]

def setOTA (db : StateDB) (balance : ℕ) (otaWanAddr : Bytes) : Except VmError StateDB := do
  let otaAX ← getAXFromWanAddr otaWanAddr
  let mptAddr := otaBalance2ContractAddr balance
  return (db.setStateByteArray mptAddr (bytesToHash otaAX) otaWanAddr).setStateByteArray
    otaBalanceStorageAddr (bytesToHash otaAX) (beBytes balance)

def addOTAIfNotExist (db : StateDB) (balance : ℕ) (otaWanAddr : Bytes) : Except VmError StateDB := do
  let otaAX ← getAXFromWanAddr otaWanAddr
  let exist ← checkOTAAXExist db otaAX
  ensure (exist = none) .errOTAExistAlready
  setOTA db balance otaWanAddr

def checkOTAImageExist (db : StateDB) (otaImage : Bytes) : Except VmError Bool := do
  ensure (otaImage ≠ []) .errInvalidInputParam
  return decide (db.getStateByteArray otaImageStorageAddr (keccak256 otaImage) ≠ [])

def addOTAImage (db : StateDB) (otaImage value : Bytes) : Except VmError StateDB := do
  ensure (otaImage ≠ [] ∧ value ≠ []) .errInvalidInputParam
  return db.setStateByteArray otaImageStorageAddr (keccak256 otaImage) value

/-! ### Ring signatures -/

variable [Crypto]

omit [Keccak] in
/-- `DecodeRingSignOut`, of which all errors are `ErrInvalidRingSigned`. -/
def decodeRingSignOut (s : Bytes) : Option (List PublicKey × PublicKey × List ℕ × List ℕ) :=
  match s.splitOn 43 with
  | ps :: k :: ws :: qs :: _ => do
    let publickeys ← (ps.splitOn 38).mapM fun pi => toECDSAPub (fromHex pi)
    let keyimage ← toECDSAPub (fromHex k)
    let w ← (ws.splitOn 38).mapM fun wi => (decodeBig wi).toOption
    let q ← (qs.splitOn 38).mapM fun qi => (decodeBig qi).toOption
    if publickeys.length ≠ w.length ∨ publickeys.length ≠ q.length then none
    else some (publickeys, keyimage, w, q)
  | _ => none

omit [Keccak] in
def fetchRingSignInfo (db : StateDB) (hashInput ringSignedStr : Bytes) : Except VmError RingSignInfo := do
  let (publicKeys, keyImage, w, q) ← need (decodeRingSignOut ringSignedStr) .errInvalidRingSigned
  let balance ← batCheckOTAExist db (publicKeys.map ecdsaPKCompression)
  ensure (Crypto.verifyRingSign hashInput publicKeys keyImage w q = true) .errInvalidRingSigned
  return ⟨publicKeys, keyImage, w, q, balance⟩

/-! ### The contracts -/

/-- The first four bytes of the hash of `buyCoinNote(string,uint256)`. -/
def buyIdArr : Bytes := [0x3f, 0x85, 0x82, 0xd7]

/-- The first four bytes of the hash of `refundCoin(string,uint256)`. -/
def refundIdArr : Bytes := [0x9e, 0xd1, 0xec, 0xc8]

/-- The first four bytes of the hash of `buyStamp(string,uint256)`. -/
def stBuyId : Bytes := [0xc4, 0xe4, 0x03, 0xe7]

/-- The values for which a stamp can be bought: 0.001 to 0.5 coins of `10 ^ 18`. -/
def stampValueSet : List ℕ :=
  [1, 2, 5, 3, 6, 9, 30, 60, 90, 200, 300, 500].map (· * 10 ^ 15)

/-- The values for which a coin note can be bought: 10 to 50000 coins of `10 ^ 18`. -/
def wanCoinValueSet : List ℕ := [10, 20, 50, 100, 200, 500, 1000, 5000, 50000].map (· * 10 ^ 18)

section

omit [Keccak] [Crypto]

/-- What `ValidBuyStampReq` and `ValidBuyCoinReq` have in common. -/
def validBuyReq (valueSet : List ℕ) (errBuy errValue errAX : VmError) (db : StateDB) (payload : Bytes)
    (value : ℕ) : Except VmError Bytes := do
  ensure (payload ≠ []) .errUnknown
  let (otaAddr, inputValue) ← need (unpackStringUint payload) errBuy
  ensure (inputValue = value) .errMismatchedValue
  ensure (inputValue ∈ valueSet) errValue
  let wanAddr ← relabel .hex (hexDecode otaAddr)
  let ax ← relabel (fun _ => errAX) (getAXFromWanAddr wanAddr)
  let exist ← checkOTAAXExist db ax
  ensure (exist = none) .errOTAReused
  return wanAddr

/-- `ValidBuyStampReq`. The error of `GetAXFromWanAddr` is overwritten by that of the check that follows. -/
def validBuyStampReq : StateDB → Bytes → ℕ → Except VmError Bytes :=
  validBuyReq stampValueSet .errBuyStamp .errStampValue .errInvalidOTAAX

def validBuyCoinReq : StateDB → Bytes → ℕ → Except VmError Bytes :=
  validBuyReq wanCoinValueSet .errBuyCoin .errCoinValue .errInvalidOTAAddr

end

section

omit [Crypto]

/-- What `buyStamp` and `buyCoin` have in common. -/
def buy (validReq : StateDB → Bytes → ℕ → Except VmError Bytes) (errBuy : VmError) (payload : Bytes)
    (contract : Contract) (w : World) : World × Except VmError Bytes :=
  match validReq w.db payload contract.value with
  | .error err => (w, .error err)
  | .ok wanAddr =>
    match addOTAIfNotExist w.db contract.value wanAddr with
    | .error _ => (w, .error errBuy)
    | .ok db =>
      let addrSrc := contract.callerAddress
      if contract.value ≤ db.getBalance addrSrc then
        ({ db := db.subBalance addrSrc contract.value
           accepted := .buy addrSrc wanAddr contract.value :: w.accepted }, .ok [1])
      else ({ w with db }, .error .errBalance)

def buyStamp : Bytes → Contract → World → World × Except VmError Bytes := buy validBuyStampReq .errBuyStamp

def buyCoin : Bytes → Contract → World → World × Except VmError Bytes := buy validBuyCoinReq .errBuyCoin

end

/-- `ValidRefundReq`; beside the image and the value, which it returns, the ring signature. -/
def validRefundReq (db : StateDB) (payload hashInput : Bytes) : Except VmError (Bytes × ℕ × RingSignInfo) := do
  ensure (payload ≠ [] ∧ hashInput ≠ []) .errUnknown
  let (ringSignedData, value) ← need (unpackStringUint payload) .errRefundCoin
  let info ← fetchRingSignInfo db hashInput ringSignedData
  ensure (info.otaBalance = value) .errMismatchedValue
  let kix := fromECDSAPub info.keyImage
  let exist ← checkOTAImageExist db kix
  ensure (exist = false) .errOTAReused
  return (kix, value, info)

def refund (all : Bytes) (contract : Contract) (w : World) : World × Except VmError Bytes :=
  match validRefundReq w.db all (addressBytes contract.callerAddress) with
  | .error err => (w, .error err)
  | .ok (kix, value, info) =>
    match addOTAImage w.db kix (beBytes value) with
    | .error err => (w, .error err)
    | .ok db =>
      ({ db := db.addBalance contract.callerAddress value
         accepted := .refund contract.callerAddress info :: w.accepted }, .ok [1])

inductive PrecompiledContract where
  | native (n : Native)
  | wanCoinSC
  | wanchainStampSC
deriving DecidableEq

def precompiledContracts (addr : Address) : Option PrecompiledContract :=
  if addr = wanCoinPrecompileAddr then some .wanCoinSC
  else if addr = wanStampPrecompileAddr then some .wanchainStampSC
  else if addr = 1 then some (.native .ecrecover)
  else if addr = 2 then some (.native .sha256hash)
  else if addr = 3 then some (.native .ripemd160hash)
  else if addr = 4 then some (.native .dataCopy)
  else if addr = 5 then some (.native .bigModExp)
  else if addr = 6 then some (.native .bn256Add)
  else if addr = 7 then some (.native .bn256ScalarMul)
  else if addr = 8 then some (.native .bn256Pairing)
  else none

namespace PrecompiledContract

omit [Keccak] in
def requiredGas (input : Bytes) : PrecompiledContract → ℕ
  | .native n => Crypto.requiredGas n input
  | .wanchainStampSC => sstoreSetGas * 2
  | .wanCoinSC =>
    if input.length < 4 then 0
    else if input.take 4 = refundIdArr then
      match (unpackStringUint (input.drop 4)).bind fun x => decodeRingSignOut x.1 with
      | none => requiredGasPerMixPub
      | some (publickeys, _) => requiredGasPerMixPub * publickeys.length + sstoreSetGas
    else sstoreSetGas * 2

def run (input : Bytes) (contract : Contract) (w : World) : PrecompiledContract → World × Except VmError Bytes
  | .native n => (w, need (Crypto.runNative n input) .native)
  | .wanchainStampSC =>
    if input.length < 4 then (w, .error .errParameters)
    else if input.take 4 = stBuyId then buyStamp (input.drop 4) contract w
    else (w, .error .errMethodId)
  | .wanCoinSC =>
    if input.length < 4 then (w, .error .errParameters)
    else if input.take 4 = buyIdArr then buyCoin (input.drop 4) contract w
    else if input.take 4 = refundIdArr then refund (input.drop 4) contract w
    else (w, .error .errMethodId)

end PrecompiledContract

/-- What a call returns. -/
structure Result where
  ret : Bytes
  gas : ℕ
  err : Option VmError
  world : World

def runPrecompiledContract (p : PrecompiledContract) (input : Bytes) (contract : Contract) (gas : ℕ)
    (w : World) : Result :=
  if p.requiredGas input ≤ gas then
    match p.run input contract w with
    | (w', .ok ret) => ⟨ret, gas - p.requiredGas input, none, w'⟩
    | (w', .error err) => ⟨[], gas - p.requiredGas input, some err, w'⟩
  else ⟨[], gas, some .errOutOfGas, w⟩

end GoWanchain.Vm
