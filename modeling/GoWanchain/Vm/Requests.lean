import GoWanchain.State.Content
import GoWanchain.Vm.Privacy

/-!
# Requests to the privacy contracts

What the accounts hold is a function from addresses to contents. On it a granted request is a transition
(`Buy`, `Refund`). The contracts of `Vm.Privacy` refine this: a run that does not fail makes such a
transition, or none (`run_requests`), and what a failed one has written can be reverted (`Writes.leads`).
-/

namespace GoWanchain.Vm

open State

/-- What the accounts hold. -/
abbrev Accounts := Address → Content

namespace Accounts

def credit (σ : Accounts) (a : Address) (amount : ℤ) : Accounts :=
  Function.update σ a { σ a with balance := (σ a).balance + amount }

def setNonce (σ : Accounts) (a : Address) (nonce : UInt64) : Accounts :=
  Function.update σ a { σ a with nonce }

def setCode (σ : Accounts) (a : Address) (code : Bytes) : Accounts :=
  Function.update σ a { σ a with code }

def setWord (σ : Accounts) (a : Address) (key value : Hash) : Accounts :=
  Function.update σ a { σ a with word := Function.update (σ a).word key value }

def setBytes (σ : Accounts) (a : Address) (key : Hash) (value : Bytes) : Accounts :=
  Function.update σ a { σ a with bytes := Function.update (σ a).bytes key value }

def transfer (σ : Accounts) (sender recipient : Address) (amount : ℤ) : Accounts :=
  (σ.credit sender (-amount)).credit recipient amount

section Fields

variable (σ : Accounts) (a b : Address)

theorem balance_credit (amount : ℤ) : (σ.credit a amount b).balance = (σ b).balance + if b = a then amount else 0 := by
  by_cases h : b = a
  · subst h
    simp [credit]
  · simp [credit, h]

@[simp] theorem nonce_credit (amount : ℤ) : (σ.credit a amount b).nonce = (σ b).nonce := by
  by_cases h : b = a <;> simp [credit, h]

@[simp] theorem code_credit (amount : ℤ) : (σ.credit a amount b).code = (σ b).code := by
  by_cases h : b = a <;> simp [credit, h]

@[simp] theorem bytes_credit (amount : ℤ) : (σ.credit a amount b).bytes = (σ b).bytes := by
  by_cases h : b = a <;> simp [credit, h]

@[simp] theorem balance_setBytes (key : Hash) (value : Bytes) : (σ.setBytes a key value b).balance = (σ b).balance := by
  by_cases h : b = a <;> simp [setBytes, h]

@[simp] theorem code_setBytes (key : Hash) (value : Bytes) : (σ.setBytes a key value b).code = (σ b).code := by
  by_cases h : b = a <;> simp [setBytes, h]

theorem bytes_setBytes (key k : Hash) (value : Bytes) : (σ.setBytes a key value b).bytes k =
    if b = a ∧ k = key then value else (σ b).bytes k := by
  by_cases h : b = a
  · subst h
    by_cases hk : k = key <;> simp [setBytes, hk]
  · simp [setBytes, h]

end Fields

end Accounts

variable [Keccak]

variable {s db : StateDB} {wanAddr : Bytes}

theorem content_addBalance (a : Address) (amount : ℕ) :
    (s.addBalance a amount).content = Accounts.credit s.content a amount :=
  StateDB.content_addBalance s a (Int.natCast_nonneg amount)

theorem content_subBalance (a : Address) (amount : ℕ) :
    (s.subBalance a amount).content = Accounts.credit s.content a (-amount) :=
  StateDB.content_subBalance s a (Int.natCast_nonneg amount)

theorem content_transfer (sender recipient : Address) (amount : ℕ) :
    (transfer s sender recipient amount).content = Accounts.transfer s.content sender recipient amount := by
  rw [transfer, content_addBalance, content_subBalance]
  rfl

/-- The key under which an OTA is recorded. -/
def otaKey (otaWanAddr : Bytes) : Hash := bytesToHash ((otaWanAddr.drop 1).take hashLength)

/-- The key of the OTA that a public key of a ring belongs to. -/
def ringKey (p : PublicKey) : Hash := bytesToHash (bePadded hashLength p.x)

/-- The key under which the image of a ring signature is recorded. -/
def imageKey (info : RingSignInfo) : Hash := keccak256 (fromECDSAPub info.keyImage)

/-- What is recorded for an OTA. -/
def Accounts.otaBalance (σ : Accounts) (key : Hash) : ℕ := beNat ((σ otaBalanceStorageAddr).bytes key)

/-- A granted request to buy a coin note or a stamp. -/
structure Buy (payer : Address) (wanAddr : Bytes) (value : ℕ) (σ τ : Accounts) : Prop where
  value_mem : value ∈ stampValueSet ∨ value ∈ wanCoinValueSet
  length_eq : wanAddr.length = wAddressLength
  fresh : σ.otaBalance (otaKey wanAddr) = 0
  funds : value ≤ (σ payer).balance
  after : τ = ((σ.setBytes (otaBalance2ContractAddr value) (otaKey wanAddr) wanAddr).setBytes
    otaBalanceStorageAddr (otaKey wanAddr) (beBytes value)).credit payer (-value)

/-- An accepted ring signature: its members are OTAs of one balance. -/
structure Ring [Crypto] (σ : Accounts) (hashInput : Bytes) (info : RingSignInfo) : Prop where
  nonempty : info.publicKeys ≠ []
  balance_ne : info.otaBalance ≠ 0
  recorded : ∀ p ∈ info.publicKeys, σ.otaBalance (ringKey p) = info.otaBalance ∧
    ((σ (otaBalance2ContractAddr info.otaBalance)).bytes (ringKey p)).take 33 = ecdsaPKCompression p
  verified : Crypto.verifyRingSign hashInput info.publicKeys info.keyImage info.wRandom info.qRandom = true

/-- A granted request to refund a coin note. -/
structure Refund [Crypto] (payee : Address) (info : RingSignInfo) (σ τ : Accounts) : Prop where
  ring : Ring σ (addressBytes payee) info
  fresh : (σ otaImageStorageAddr).bytes (imageKey info) = []
  after : τ = (σ.setBytes otaImageStorageAddr (imageKey info) (beBytes info.otaBalance)).credit payee info.otaBalance

/-! ### Buying -/

omit [Keccak] in
theorem getAXFromWanAddr_eq_ok {ax : Bytes} : getAXFromWanAddr wanAddr = .ok ax ↔
    wanAddr.length = wAddressLength ∧ (wanAddr.drop 1).take hashLength = ax := by
  simp only [getAXFromWanAddr, bind_eq_ok, ensure_eq_ok, pure_eq_ok, exists_const]

theorem checkOTAAXExist_eq_none {ax : Bytes} (h : checkOTAAXExist db ax = .ok none) :
    Accounts.otaBalance db.content (bytesToHash ax) = 0 := by
  simp only [checkOTAAXExist, getOtaBalanceFromAX, bind_eq_ok, ensure_eq_ok, pure_eq_ok] at h
  obtain ⟨balance, ⟨-, -, rfl⟩, hnone⟩ := h
  rw [StateDB.getStateByteArray_eq] at hnone
  rw [Accounts.otaBalance]
  by_contra hne
  rw [if_neg hne] at hnone
  cases hnone

theorem addOTAIfNotExist_eq_ok {db' : StateDB} {balance : ℕ} (h : addOTAIfNotExist db balance wanAddr = .ok db') :
    Accounts.otaBalance db.content (otaKey wanAddr) = 0 ∧ db' =
      (db.setStateByteArray (otaBalance2ContractAddr balance) (otaKey wanAddr) wanAddr).setStateByteArray
        otaBalanceStorageAddr (otaKey wanAddr) (beBytes balance) := by
  simp only [addOTAIfNotExist, setOTA, bind_eq_ok, ensure_eq_ok, pure_eq_ok, getAXFromWanAddr_eq_ok] at h
  obtain ⟨ax, ⟨-, rfl⟩, exist, hexist, -, rfl, ax', ⟨-, rfl⟩, rfl⟩ := h
  exact ⟨checkOTAAXExist_eq_none hexist, rfl⟩

theorem content_setStateByteArray (s : StateDB) (a : Address) (key : Hash) (value : Bytes) :
    (s.setStateByteArray a key value).content = Accounts.setBytes s.content a key value :=
  StateDB.content_setStateByteArray s a key value

theorem leads_setStateByteArray (s : StateDB) (a : Address) (key : Hash) (value : Bytes) :
    s.Leads (s.setStateByteArray a key value) :=
  .moves (StateDB.change_moves s a (.storageByteArrayChange key value))

omit [Keccak] in
theorem validBuyReq_eq_ok {valueSet : List ℕ} {errBuy errValue errAX : VmError} {payload : Bytes} {value : ℕ}
    (h : validBuyReq valueSet errBuy errValue errAX db payload value = .ok wanAddr) :
    value ∈ valueSet ∧ wanAddr.length = wAddressLength := by
  simp only [validBuyReq, bind_eq_ok, ensure_eq_ok, need_eq_ok, relabel_eq_ok, pure_eq_ok, getAXFromWanAddr_eq_ok] at h
  obtain ⟨-, -, ⟨otaAddr, inputValue⟩, -, -, rfl, -, hmem, addr, -, ax, ⟨hlen, -⟩, exist, -, -, -, rfl⟩ := h
  exact ⟨hmem, hlen⟩

/-- What a privacy contract can write, also when it fails: nothing; a one-time address, with or without the payment for
it; the image of a spent one, with the payment. -/
inductive Writes (contract : Contract) (s : StateDB) : StateDB → Prop
  | none : Writes contract s s
  | recorded (wanAddr : Bytes) : Writes contract s
    ((s.setStateByteArray (otaBalance2ContractAddr contract.value) (otaKey wanAddr) wanAddr).setStateByteArray
      otaBalanceStorageAddr (otaKey wanAddr) (beBytes contract.value))
  | bought (wanAddr : Bytes) : Writes contract s
    (((s.setStateByteArray (otaBalance2ContractAddr contract.value) (otaKey wanAddr) wanAddr).setStateByteArray
      otaBalanceStorageAddr (otaKey wanAddr) (beBytes contract.value)).subBalance contract.callerAddress contract.value)
  | refunded (key : Hash) (value : ℕ) : Writes contract s
    ((s.setStateByteArray otaImageStorageAddr key (beBytes value)).addBalance contract.callerAddress value)

theorem Writes.leads {contract : Contract} {t : StateDB} (h : Writes contract s t) : s.Leads t := by
  cases h with
  | none => exact .refl _
  | recorded => exact (leads_setStateByteArray _ _ _ _).trans (leads_setStateByteArray _ _ _ _)
  | bought =>
    exact ((leads_setStateByteArray _ _ _ _).trans (leads_setStateByteArray _ _ _ _)).trans
      (.moves (StateDB.subBalance_moves _ _ _))
  | refunded => exact (leads_setStateByteArray _ _ _ _).trans (.moves (StateDB.addBalance_moves _ _ _))

section Buying

variable {validReq : StateDB → Bytes → ℕ → Except VmError Bytes} {errBuy : VmError} {payload ret : Bytes}
  {contract : Contract} {w w' : World}

theorem buy_eq_ok (hvalid : ∀ db payload value wanAddr, validReq db payload value = .ok wanAddr →
      (value ∈ stampValueSet ∨ value ∈ wanCoinValueSet) ∧ wanAddr.length = wAddressLength)
    (h : buy validReq errBuy payload contract w = (w', .ok ret)) :
    ∃ wanAddr, Buy contract.callerAddress wanAddr contract.value w.db.content w'.db.content ∧
      w'.accepted = .buy contract.callerAddress wanAddr contract.value :: w.accepted := by
  unfold buy at h
  split at h
  · cases h
  rename_i wanAddr hreq
  split at h
  · cases h
  rename_i db hadd
  obtain ⟨hmem, hlen⟩ := hvalid _ _ _ _ hreq
  obtain ⟨hfresh, rfl⟩ := addOTAIfNotExist_eq_ok hadd
  simp only at h
  split at h
  · rename_i hfunds
    cases h
    refine ⟨wanAddr, ⟨hmem, hlen, hfresh, ?_, ?_⟩, rfl⟩
    · rw [StateDB.getBalance_eq, content_setStateByteArray, content_setStateByteArray] at hfunds
      simpa only [Accounts.balance_setBytes] using hfunds
    · show (StateDB.subBalance _ _ _).content = _
      rw [content_subBalance, content_setStateByteArray, content_setStateByteArray]
  · cases h

theorem buy_writes : Writes contract w.db (buy validReq errBuy payload contract w).1.db := by
  unfold buy
  split
  · exact .none
  rename_i wanAddr _
  split
  · exact .none
  rename_i db hadd
  obtain ⟨-, rfl⟩ := addOTAIfNotExist_eq_ok hadd
  simp only
  split
  · exact .bought wanAddr
  · exact .recorded wanAddr

end Buying

/-! ### Refunds -/

theorem checkOTALongAddrExist_eq_some {otaLongAddr : Bytes} {balance : ℕ}
    (h : checkOTALongAddrExist db otaLongAddr = .ok (some balance)) :
    Accounts.otaBalance db.content (otaKey otaLongAddr) = balance ∧
      ((db.content (otaBalance2ContractAddr balance)).bytes (otaKey otaLongAddr)).take 33 = otaLongAddr := by
  simp only [checkOTALongAddrExist, getOtaBalanceFromAX, bind_eq_ok, ensure_eq_ok, pure_eq_ok] at h
  obtain ⟨-, -, b, ⟨-, -, rfl⟩, hb⟩ := h
  split_ifs at hb with hc
  simp only [not_or, Decidable.not_not] at hc
  cases hb
  rw [StateDB.getStateByteArray_eq, StateDB.getStateByteArray_eq] at *
  exact ⟨rfl, hc.2.2.symm⟩

section

omit [Keccak]

theorem batCheckOTA_eq_ok {balance balance' : Option ℕ} {otaLongAddr : Bytes}
    (h : batCheckOTA db balance otaLongAddr = .ok balance') : ∃ b, balance' = some b ∧ b ≠ 0 ∧
      balance.getD b = b ∧ checkOTALongAddrExist db otaLongAddr = .ok (some b) := by
  simp only [batCheckOTA, bind_eq_ok, ensure_eq_ok, need_eq_ok, pure_eq_ok] at h
  obtain ⟨-, -, exist, hexist, b, rfl, -, hne, -, hget, rfl⟩ := h
  exact ⟨b, rfl, hne, hget, hexist⟩

theorem foldlM_batCheckOTA {addrs : List Bytes} {balance : Option ℕ} {b : ℕ}
    (h : addrs.foldlM (batCheckOTA db) balance = .ok (some b)) : balance.getD b = b ∧
      (∀ addr ∈ addrs, b ≠ 0 ∧ checkOTALongAddrExist db addr = .ok (some b)) := by
  induction addrs generalizing balance with
  | nil =>
    simp only [List.foldlM_nil, pure_eq_ok] at h
    subst h
    exact ⟨rfl, by simp⟩
  | cons _ _ ih =>
    simp only [List.foldlM_cons, bind_eq_ok] at h
    obtain ⟨balance', hstep, hrest⟩ := h
    obtain ⟨b', rfl, hne, hget, hexist⟩ := batCheckOTA_eq_ok hstep
    obtain ⟨hb, hall⟩ := ih hrest
    -- the balance found first is the one that all the others are compared with
    obtain rfl : b' = b := hb
    refine ⟨hget, fun a ha => ?_⟩
    rcases List.mem_cons.mp ha with rfl | ha
    · exact ⟨hne, hexist⟩
    · exact hall a ha

theorem batCheckOTAExist_eq_ok {addrs : List Bytes} {b : ℕ} (h : batCheckOTAExist db addrs = .ok b) : addrs ≠ [] ∧
      ∀ addr ∈ addrs, b ≠ 0 ∧ checkOTALongAddrExist db addr = .ok (some b) := by
  simp only [batCheckOTAExist, bind_eq_ok, need_eq_ok] at h
  obtain ⟨balance, hfold, rfl⟩ := h
  refine ⟨?_, (foldlM_batCheckOTA hfold).2⟩
  rintro rfl
  simp at hfold

theorem otaKey_ecdsaPKCompression (p : PublicKey) : otaKey (ecdsaPKCompression p) = ringKey p := by
  have htake : (bePadded 32 p.x).take hashLength = bePadded 32 p.x :=
    List.take_of_length_le (by simp [bePadded, hashLength])
  rw [otaKey, ringKey, ecdsaPKCompression, List.drop_one, List.tail_cons, htake]
  rfl

end

variable [Crypto]

theorem fetchRingSignInfo_eq_ok {hashInput ringSignedStr : Bytes} {info : RingSignInfo}
    (h : fetchRingSignInfo db hashInput ringSignedStr = .ok info) : Ring db.content hashInput info := by
  simp only [fetchRingSignInfo, bind_eq_ok, ensure_eq_ok, need_eq_ok, pure_eq_ok] at h
  obtain ⟨⟨publicKeys, keyImage, w, q⟩, -, balance, hbalance, -, hverify, rfl⟩ := h
  obtain ⟨hne, hall⟩ := batCheckOTAExist_eq_ok hbalance
  have hkeys : publicKeys ≠ [] := by simpa using hne
  have hmember (p : PublicKey) (hp : p ∈ publicKeys) := hall _ (List.mem_map_of_mem hp)
  refine ⟨hkeys, ?_, fun p hp => ?_, hverify⟩
  · obtain ⟨p, hp⟩ := List.exists_mem_of_ne_nil _ hkeys
    exact (hmember p hp).1
  · have hexist := checkOTALongAddrExist_eq_some (hmember p hp).2
    rwa [otaKey_ecdsaPKCompression] at hexist

omit [Crypto] in
theorem checkOTAImageExist_eq_false {otaImage : Bytes} (h : checkOTAImageExist db otaImage = .ok false) :
    (db.content otaImageStorageAddr).bytes (keccak256 otaImage) = [] := by
  simp only [checkOTAImageExist, bind_eq_ok, ensure_eq_ok, pure_eq_ok, decide_eq_false_iff_not,
    Decidable.not_not, StateDB.getStateByteArray_eq] at h
  obtain ⟨-, -, h⟩ := h
  exact h

omit [Crypto] in
theorem addOTAImage_eq_ok {db' : StateDB} {otaImage value : Bytes} (h : addOTAImage db otaImage value = .ok db') :
    db' = db.setStateByteArray otaImageStorageAddr (keccak256 otaImage) value := by
  simp only [addOTAImage, bind_eq_ok, ensure_eq_ok, pure_eq_ok] at h
  obtain ⟨-, -, rfl⟩ := h
  rfl

section Refunding

variable {all ret : Bytes} {contract : Contract} {w w' : World}

theorem validRefundReq_eq_ok {db : StateDB} {payload hashInput kix : Bytes} {value : ℕ} {info : RingSignInfo}
    (h : validRefundReq db payload hashInput = .ok (kix, value, info)) :
    kix = fromECDSAPub info.keyImage ∧ value = info.otaBalance ∧ Ring db.content hashInput info ∧
      (db.content otaImageStorageAddr).bytes (imageKey info) = [] := by
  simp only [validRefundReq, bind_eq_ok, ensure_eq_ok, need_eq_ok, pure_eq_ok] at h
  obtain ⟨-, -, ⟨data, v⟩, -, info', hinfo, -, hvalue, exist, hexist, -, rfl, hres⟩ := h
  cases hres
  exact ⟨rfl, hvalue.symm, fetchRingSignInfo_eq_ok hinfo, checkOTAImageExist_eq_false hexist⟩

theorem refund_eq_ok (h : refund all contract w = (w', .ok ret)) :
    ∃ info, Refund contract.callerAddress info w.db.content w'.db.content ∧
      w'.accepted = .refund contract.callerAddress info :: w.accepted := by
  unfold refund at h
  split at h
  · cases h
  rename_i kix value info hreq
  split at h
  · cases h
  rename_i db hadd
  cases h
  obtain ⟨rfl, rfl, hring, hfresh⟩ := validRefundReq_eq_ok hreq
  obtain rfl := addOTAImage_eq_ok hadd
  refine ⟨info, ⟨hring, hfresh, ?_⟩, rfl⟩
  show (StateDB.addBalance _ _ _).content = _
  rw [content_addBalance, content_setStateByteArray]
  rfl

theorem refund_writes : Writes contract w.db (refund all contract w).1.db := by
  unfold refund
  split
  · exact .none
  split
  · exact .none
  rename_i db hadd
  obtain rfl := addOTAImage_eq_ok hadd
  exact .refunded _ _

end Refunding

/-! ### The contracts -/

/-- One request to a privacy contract, or none. -/
inductive Requests (contract : Contract) (σ : Accounts) : List Request → Accounts → Prop
  | none : Requests contract σ [] σ
  | buy {wanAddr : Bytes} {τ : Accounts} (h : Buy contract.callerAddress wanAddr contract.value σ τ) :
    Requests contract σ [.buy contract.callerAddress wanAddr contract.value] τ
  | refund {info : RingSignInfo} {τ : Accounts} (h : Refund contract.callerAddress info σ τ) :
    Requests contract σ [.refund contract.callerAddress info] τ

namespace PrecompiledContract

variable {p : PrecompiledContract} {input ret : Bytes} {contract : Contract} {w w' : World}

theorem run_writes : Writes contract w.db (p.run input contract w).1.db := by
  cases p with
  | native => exact .none
  | wanCoinSC =>
    simp only [run]
    split_ifs
    · exact .none
    · exact buy_writes
    · exact refund_writes
    · exact .none
  | wanchainStampSC =>
    simp only [run]
    split_ifs
    · exact .none
    · exact buy_writes
    · exact .none

theorem run_requests (h : p.run input contract w = (w', .ok ret)) : ∃ l,
    Requests contract w.db.content l w'.db.content ∧ w'.accepted = l ++ w.accepted := by
  have hbuy {validReq : StateDB → Bytes → ℕ → Except VmError Bytes} {errBuy : VmError} {payload : Bytes}
      (hvalid : ∀ db payload value wanAddr, validReq db payload value = .ok wanAddr →
        (value ∈ stampValueSet ∨ value ∈ wanCoinValueSet) ∧ wanAddr.length = wAddressLength)
      (h : buy validReq errBuy payload contract w = (w', .ok ret)) : ∃ l,
      Requests contract w.db.content l w'.db.content ∧ w'.accepted = l ++ w.accepted := by
    obtain ⟨wanAddr, hb, haccepted⟩ := buy_eq_ok hvalid h
    exact ⟨_, .buy hb, haccepted⟩
  cases p with
  | native =>
    obtain ⟨rfl, -⟩ := Prod.mk.inj h
    exact ⟨[], .none, rfl⟩
  | wanCoinSC =>
    simp only [run] at h
    split_ifs at h
    · cases h
    · refine hbuy (fun _ _ _ _ hreq => ?_) h
      exact ⟨.inr (validBuyReq_eq_ok hreq).1, (validBuyReq_eq_ok hreq).2⟩
    · obtain ⟨info, hr, haccepted⟩ := refund_eq_ok h
      exact ⟨_, .refund hr, haccepted⟩
    · cases h
  | wanchainStampSC =>
    simp only [run] at h
    split_ifs at h
    · cases h
    · refine hbuy (fun _ _ _ _ hreq => ?_) h
      exact ⟨.inl (validBuyReq_eq_ok hreq).1, (validBuyReq_eq_ok hreq).2⟩
    · cases h

end PrecompiledContract

/-! ### Building requests -/

/-- `Pack` of the arguments `(string, uint256)` of a method. -/
def packStringUint (id s : Bytes) (value : ℕ) : Bytes :=
  id ++ bePadded 32 64 ++ bePadded 32 value ++ bePadded 32 s.length ++ rightPadBytes s ((s.length + 31) / 32 * 32)

def encodeRingSignOut (member keyImage : PublicKey) : Bytes :=
  encodeHex (fromECDSAPub member) ++ [43] ++ encodeHex (fromECDSAPub keyImage) ++ ascii "+0x1+0x1"

end GoWanchain.Vm
