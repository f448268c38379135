import GoWanchain.Core.Transition
import GoWanchain.Vm.Static

/-!
# The ends of a transition

`transitionDb` acquires the gas, which a normal message buys and a privacy message has from its stamp, and
concludes with the execution. Each part has one lemma that lists its ends, the errors included, with the
state in which it ends; everything that is proved of transitions splits on these.
-/

namespace GoWanchain.Core

open State Vm Types
open Action (check check_bind get_bind modify_bind lift_bind modify_run pure_run)

theorem fromECDSAPub_ne_nil (p : PublicKey) : fromECDSAPub p ≠ [] := by simp [fromECDSAPub]

section Ends

variable [Keccak]

namespace StateTransition

variable (st : StateTransition) (addr : Address)

theorem content_withAccount : (st.withAccount addr).world.db.content = st.world.db.content := by
  unfold withAccount
  split
  · rfl
  · rename_i hexist
    have hmissing : st.world.db.state.getStateObject addr = none := by
      simpa [StateDB.exist] using hexist
    show (st.world.db.createAccount addr).content = _
    rw [StateDB.content_createAccount, Function.update_eq_self_iff]
    rw [StateDB.content_of_get_none hmissing, Content.zero]

theorem leads_withAccount : st.world.db.Leads (st.withAccount addr).world.db := by
  unfold withAccount
  split
  · exact .refl _
  · exact .moves (StateDB.createAccount_moves _ _)

@[simp] theorem gp_withAccount : (st.withAccount addr).gp = st.gp := by
  unfold withAccount
  split <;> rfl

@[simp] theorem gas_withAccount : (st.withAccount addr).gas = st.gas := by
  unfold withAccount
  split <;> rfl

@[simp] theorem initialGas_withAccount : (st.withAccount addr).initialGas = st.initialGas := by
  unfold withAccount
  split <;> rfl

@[simp] theorem data_withAccount : (st.withAccount addr).data = st.data := by
  unfold withAccount
  split <;> rfl

@[simp] theorem accepted_withAccount : (st.withAccount addr).world.accepted = st.world.accepted := by
  unfold withAccount
  split <;> rfl

@[simp] theorem getBalance_withAccount (a : Address) :
    (st.withAccount addr).world.db.getBalance a = st.world.db.getBalance a := by
  rw [StateDB.getBalance_eq, content_withAccount, StateDB.getBalance_eq]

@[simp] theorem getNonce_withAccount (a : Address) :
    (st.withAccount addr).world.db.getNonce a = st.world.db.getNonce a := by
  rw [StateDB.getNonce_eq, content_withAccount, StateDB.getNonce_eq]

theorem getStateByteArray_withAccount :
    (st.withAccount addr).world.db.getStateByteArray = st.world.db.getStateByteArray := by
  funext a key
  rw [StateDB.getStateByteArray_eq, content_withAccount, StateDB.getStateByteArray_eq]

end StateTransition

/-! ### Normal messages -/

def StateTransition.bought (msg : Message) (st : StateTransition) : StateTransition :=
  { st with gp := st.gp - msg.gasLimit, gas := st.gas + msg.gasLimit, initialGas := msg.gasLimit }.onDB
    (·.subBalance msg.sender ((msg.gasLimit * msg.price : ℕ) : ℤ))

/-- What `preCheck` asks for. -/
structure Affordable (msg : Message) (st : StateTransition) : Prop where
  nonce : msg.checkNonce = true → st.world.db.getNonce msg.sender = msg.nonce
  gasLimit : msg.gasLimit < 2 ^ 64
  balance : (msg.gasLimit * msg.price : ℕ) ≤ st.world.db.getBalance msg.sender
  pool : msg.gasLimit ≤ st.gp

variable {msg : Message} {st st' : StateTransition} {u : Unit}

theorem preCheck_run (msg : Message) (st : StateTransition) :
    (Affordable msg st ∧ preCheck msg st = .ok () (((st.withAccount msg.sender).withAccount msg.sender).bought msg)) ∨
      (¬ Affordable msg st ∧ ∃ err t, preCheck msg st = .error err t ∧ err ≠ .panic ∧
        (t = st.withAccount msg.sender ∨ t = (st.withAccount msg.sender).withAccount msg.sender)) := by
  unfold preCheck checkNonce buyGas ensureAccount subGas
  simp only [bind_assoc, modify_bind, get_bind, check_bind, StateTransition.getBalance_withAccount,
    StateTransition.getNonce_withAccount, StateTransition.gp_withAccount, modify_run]
  split_ifs with hhigh hlow hgas hbalance hpool
  · have hnonce (h : msg.checkNonce = true) := UInt64.le_antisymm (hlow h) (hhigh h)
    exact .inl ⟨⟨hnonce, hgas, hbalance, hpool⟩, by simp [StateTransition.bought]⟩
  · exact .inr ⟨fun h => hpool h.pool, _, _, rfl, by simp, .inr rfl⟩
  · exact .inr ⟨fun h => hbalance h.balance, _, _, rfl, by simp, .inr rfl⟩
  · exact .inr ⟨fun h => hgas h.gasLimit, _, _, rfl, by simp, .inl rfl⟩
  · exact .inr ⟨fun h => hlow fun hc => (h.nonce hc) ▸ UInt64.le_refl _, _, _, rfl, by simp, .inl rfl⟩
  · exact .inr ⟨fun h => hhigh fun hc => (h.nonce hc) ▸ UInt64.le_refl _, _, _, rfl, by simp, .inl rfl⟩

/-! ### Privacy messages -/

theorem checkOTAImageExist_run (db : StateDB) (p : PublicKey) : checkOTAImageExist db (fromECDSAPub p) =
    .ok (decide (db.getStateByteArray otaImageStorageAddr (keccak256 (fromECDSAPub p)) ≠ [])) := by
  rw [checkOTAImageExist, ensure, if_pos (fromECDSAPub_ne_nil p)]
  rfl

omit [Keccak] in
theorem batCheckOTA_congr {db db' : StateDB} (h : db.getStateByteArray = db'.getStateByteArray) (b : Option ℕ)
    (otaLongAddr : Bytes) : batCheckOTA db b otaLongAddr = batCheckOTA db' b otaLongAddr := by
  simp only [batCheckOTA, checkOTALongAddrExist, getOtaBalanceFromAX, h]

variable [Crypto]

omit [Keccak] in
theorem fetchRingSignInfo_congr {db db' : StateDB} (h : db.getStateByteArray = db'.getStateByteArray) :
    fetchRingSignInfo db = fetchRingSignInfo db' := by
  funext hashInput ringSignedStr
  simp only [fetchRingSignInfo, batCheckOTAExist, funext fun b => funext (batCheckOTA_congr h b)]

omit [Keccak] in
theorem fetchPrivacyTxInfo_congr {db db' : StateDB} (h : db.getStateByteArray = db'.getStateByteArray) :
    fetchPrivacyTxInfo db = fetchPrivacyTxInfo db' := by
  funext hashInput input gasPrice
  simp only [fetchPrivacyTxInfo, fetchRingSignInfo_congr h]

theorem fetchPrivacyTxInfo_eq_ok {db : StateDB} {hashInput input : Bytes} {gasPrice : ℕ} {info : PrivacyTxInfo}
    (h : fetchPrivacyTxInfo db hashInput input gasPrice = .ok info) :
    gasPrice ≠ 0 ∧ Ring db.content hashInput info.toRingSignInfo ∧
      info.stampTotalGas = info.otaBalance / gasPrice ∧ info.stampTotalGas < 2 ^ 64 ∧
      info.gasLeftSubRingSign ≤ info.stampTotalGas := by
  simp only [fetchPrivacyTxInfo, GoWanchain.bind_eq_ok, ensure_eq_ok, need_eq_ok, relabel_eq_ok, pure_eq_ok] at h
  obtain ⟨-, -, ⟨data, params⟩, -, ring, hring, -, hprice, -, hlt, -, hle, rfl⟩ := h
  exact ⟨hprice, fetchRingSignInfo_eq_ok hring, rfl, hlt, Nat.sub_le _ _⟩

/-- The state after `PreProcessPrivacyTx` for a stamp that was not used. -/
def StateTransition.stamped (sender : Address) (info : PrivacyTxInfo) (st : StateTransition) : StateTransition :=
  { st with
    gas := info.gasLeftSubRingSign
    initialGas := info.gasLeftSubRingSign
    data := info.callData
    world := {
      db := st.world.db.setStateByteArray otaImageStorageAddr (imageKey info.toRingSignInfo) (beBytes info.otaBalance)
      accepted := .stamp sender info.toRingSignInfo :: st.world.accepted } }

/-- The three ends of `useStamp`: an error before anything is done, a stamp that was used, a new one. -/
inductive Stamping (msg : Message) (st : StateTransition) : EStateM.Result CoreError StateTransition ℕ → Prop
  | refused {err : CoreError} (hvalue : msg.amount ≠ 0) (herr : err ≠ .panic) : Stamping msg st (.error err st)
  | invalid {err : CoreError} (hvalue : msg.amount = 0)
    (h : fetchPrivacyTxInfo st.world.db (addressBytes msg.sender) st.data msg.price = .error err) :
    Stamping msg st (.error err st)
  | used {info : PrivacyTxInfo} (hvalue : msg.amount = 0)
    (h : fetchPrivacyTxInfo st.world.db (addressBytes msg.sender) st.data msg.price = .ok info)
    (himage : (st.world.db.content otaImageStorageAddr).bytes (imageKey info.toRingSignInfo) ≠ []) :
    Stamping msg st (.ok 0 { st with gas := 0, initialGas := 0, data := [] })
  | full {info : PrivacyTxInfo} (hvalue : msg.amount = 0)
    (h : fetchPrivacyTxInfo st.world.db (addressBytes msg.sender) st.data msg.price = .ok info)
    (himage : (st.world.db.content otaImageStorageAddr).bytes (imageKey info.toRingSignInfo) = [])
    (hpool : ¬ info.stampTotalGas ≤ st.gp) : Stamping msg st (.error .errGasLimitReached (st.stamped msg.sender info))
  | stamped {info : PrivacyTxInfo} (hvalue : msg.amount = 0)
    (h : fetchPrivacyTxInfo st.world.db (addressBytes msg.sender) st.data msg.price = .ok info)
    (himage : (st.world.db.content otaImageStorageAddr).bytes (imageKey info.toRingSignInfo) = [])
    (hpool : info.stampTotalGas ≤ st.gp) :
    Stamping msg st (.ok info.stampTotalGas { st.stamped msg.sender info with gp := st.gp - info.stampTotalGas })

theorem useStamp_run (msg : Message) (st : StateTransition) : Stamping msg st (useStamp msg st) := by
  unfold useStamp preProcessPrivacyTx subGas
  simp only [bind_assoc, check_bind, lift_bind]
  by_cases hvalue : msg.amount = 0
  · rw [if_pos hvalue]
    cases hfetch : fetchPrivacyTxInfo st.world.db (addressBytes msg.sender) st.data msg.price with
    | error => exact .invalid hvalue hfetch
    | ok info =>
      simp only [checkOTAImageExist_run, relabel]
      by_cases himage : st.world.db.getStateByteArray otaImageStorageAddr (keccak256 (fromECDSAPub info.keyImage)) = []
      · have hbalance := (fetchPrivacyTxInfo_eq_ok hfetch).2.1.balance_ne
        have hadd : addOTAImage st.world.db (fromECDSAPub info.keyImage) (beBytes info.otaBalance) =
            .ok (st.world.db.setStateByteArray otaImageStorageAddr (keccak256 (fromECDSAPub info.keyImage))
              (beBytes info.otaBalance)) := by
          rw [addOTAImage, ensure, if_pos ⟨fromECDSAPub_ne_nil _, by simpa using hbalance⟩]
          rfl
        simp only [himage, ne_eq, not_true_eq_false, decide_false, Bool.false_eq_true, if_false, bind_assoc,
          modify_bind, pure_bind, get_bind, check_bind, hadd]
        rw [StateDB.getStateByteArray_eq] at himage
        split_ifs with hpool
        · exact .stamped hvalue hfetch himage hpool
        · exact .full hvalue hfetch himage hpool
      · simp only [himage, ne_eq, not_false_eq_true, decide_true, if_true, modify_bind, pure_bind, get_bind, check_bind]
        rw [StateDB.getStateByteArray_eq] at himage
        exact .used hvalue hfetch himage
  · rw [if_neg hvalue]
    exact .refused hvalue (by simp)

/-! ### The execution -/

namespace StateTransition

/-- The state after the run of the machine. -/
def ran (evm : Evm) (msg : Message) (intrinsic : ℕ) (st : StateTransition) : StateTransition :=
  let st := { st with gas := st.gas - intrinsic }
  { st with gas := (st.run evm msg).gas, world := (st.run evm msg).world }

def refunded (msg : Message) (st : StateTransition) : StateTransition :=
  let st := (st.withAccount msg.sender).onDB (·.addBalance msg.sender ((st.gas * msg.price : ℕ) : ℤ))
  let refund := min (st.gasUsed / 2) st.world.db.getRefund
  let st := { st with gas := st.gas + refund }.onDB (·.addBalance msg.sender ((refund * msg.price : ℕ) : ℤ))
  { st with gp := st.gp + st.gas }

def rewarded (evm : Evm) (msg : Message) (usedGas : ℕ) (st : StateTransition) : StateTransition :=
  st.onDB (·.addBalance evm.context.coinbase ((usedGas * msg.price : ℕ) : ℤ))

end StateTransition

omit [Crypto] in
theorem refundGas_run (msg : Message) (st : StateTransition) : refundGas msg st = .ok () (st.refunded msg) := by
  unfold refundGas ensureAccount
  simp only [modify_bind, get_bind, modify_run, StateTransition.refunded, StateTransition.gas_withAccount]

/-- The ends of `conclude`. -/
inductive Concluding (evm : Evm) (msg : Message) (intrinsic total : ℕ) (st : StateTransition) :
    EStateM.Result CoreError StateTransition Executed → Prop
  | outOfGas (h : ¬ intrinsic ≤ st.gas) : Concluding evm msg intrinsic total st (.error (.vm .errOutOfGas) st)
  | insufficient (hgas : intrinsic ≤ st.gas)
    (herr : ({ st with gas := st.gas - intrinsic }.run evm msg).err = some .errInsufficientBalance) :
    Concluding evm msg intrinsic total st (.error (.vm .errInsufficientBalance) (st.ran evm msg intrinsic))
  | normal (hnormal : isNormalTransaction msg.txType = true) (hgas : intrinsic ≤ st.gas) {r : Result}
    (hr : r = { st with gas := st.gas - intrinsic }.run evm msg) (herr : r.err ≠ some .errInsufficientBalance)
    {t : StateTransition} (ht : t = (st.ran evm msg intrinsic).refunded msg) :
    Concluding evm msg intrinsic total st (.ok
      ⟨r.ret, (st.ran evm msg intrinsic).gasUsed, t.gasUsed, r.err.isSome⟩ (t.rewarded evm msg t.gasUsed))
  | privacy (hprivacy : isNormalTransaction msg.txType = false) (hgas : intrinsic ≤ st.gas) {r : Result}
    (hr : r = { st with gas := st.gas - intrinsic }.run evm msg) (herr : r.err ≠ some .errInsufficientBalance) :
    Concluding evm msg intrinsic total st (.ok ⟨r.ret, total, total, r.err.isSome⟩
      ((st.ran evm msg intrinsic).rewarded evm msg total))

theorem conclude_run (evm : Evm) (msg : Message) (intrinsic total : ℕ) (st : StateTransition) :
    Concluding evm msg intrinsic total st (conclude evm msg intrinsic total st) := by
  unfold conclude useGas execute settleGas
  simp only [bind_assoc, modify_bind, get_bind, check_bind, pure_bind]
  split_ifs with hgas herr hnormal
  · simp only [bind_assoc, get_bind, pure_bind]
    rw [Action.bind_of_ok (refundGas_run msg _)]
    exact .normal hnormal hgas rfl herr rfl
  · rw [Bool.not_eq_true] at hnormal
    exact .privacy hnormal hgas rfl herr
  · exact .insufficient hgas (not_not.mp herr)
  · exact .outOfGas hgas

theorem conclude_of_lt {evm : Evm} {intrinsic : ℕ} (total : ℕ) (h : st.gas < intrinsic) :
    conclude evm msg intrinsic total st = .error (.vm .errOutOfGas) st := by
  have hend := conclude_run evm msg intrinsic total st
  generalize conclude evm msg intrinsic total st = result at hend
  have hnot : ¬ intrinsic ≤ st.gas := Nat.not_le.mpr h
  cases hend with
  | outOfGas => rfl
  | insufficient hgas | normal _ hgas | privacy _ hgas => exact absurd hgas hnot

theorem Concluding.intrinsic_le {evm : Evm} {intrinsic total : ℕ} {e : Executed}
    (h : Concluding evm msg intrinsic total st (.ok e st')) : intrinsic ≤ st.gas := by
  cases h with
  | normal _ hgas | privacy _ hgas => exact hgas

/-! ### The gas -/

def intrinsicOf (msg : Message) (st : StateTransition) : ℕ := intrinsicGas st.data msg.recipient.isNone true

omit [Keccak] [Crypto] in
theorem intrinsicGas_pos (data : Bytes) (creation homestead : Bool) : 0 < intrinsicGas data creation homestead := by
  simp only [intrinsicGas, txGas, txGasContractCreation]
  split <;> omega

/-- The state in which the execution of a normal message begins. -/
def StateTransition.paid (msg : Message) (st : StateTransition) : StateTransition :=
  (((st.withAccount msg.sender).withAccount msg.sender).bought msg).withAccount msg.sender

omit [Crypto] in
@[simp] theorem StateTransition.data_paid (msg : Message) (st : StateTransition) : (st.paid msg).data = st.data := by
  simp [StateTransition.paid, StateTransition.bought, StateTransition.onDB]

theorem fetch_withAccount (st : StateTransition) (msg : Message) :
    fetchPrivacyTxInfo (st.withAccount msg.sender).world.db (addressBytes msg.sender) (st.withAccount msg.sender).data
      msg.price = fetchPrivacyTxInfo st.world.db (addressBytes msg.sender) st.data msg.price := by
  rw [fetchPrivacyTxInfo_congr (st.getStateByteArray_withAccount msg.sender), st.data_withAccount]

/-- How the execution begins, with the gas that was bought or with that of a stamp of `total` gas. -/
inductive Begins (msg : Message) (st : StateTransition) : ℕ → StateTransition → Prop
  | normal (hnormal : isNormalTransaction msg.txType = true) (h : Affordable msg st) : Begins msg st 0 (st.paid msg)
  | privacy {info : PrivacyTxInfo} (hprivacy : isNormalTransaction msg.txType = false) (hvalue : msg.amount = 0)
    (h : fetchPrivacyTxInfo st.world.db (addressBytes msg.sender) st.data msg.price = .ok info)
    (himage : (st.world.db.content otaImageStorageAddr).bytes (imageKey info.toRingSignInfo) = [])
    (hpool : info.stampTotalGas ≤ st.gp) : Begins msg st info.stampTotalGas
      { (st.withAccount msg.sender).stamped msg.sender info with gp := st.gp - info.stampTotalGas }

/-- The part of `TransitionDb` before the intrinsic gas is used: the intrinsic gas, and the gas of the stamp. -/
def acquireGas (msg : Message) : Transition (ℕ × ℕ) := do
  if isNormalTransaction msg.txType then preCheck msg
  ensureAccount msg.sender
  let intrinsic := intrinsicGas (← get).data msg.recipient.isNone true
  check (intrinsic < 2 ^ 64) (.vm .errOutOfGas)
  let stampTotalGas ← if isNormalTransaction msg.txType then pure 0 else useStamp msg
  return (intrinsic, stampTotalGas)

theorem transitionDb_eq (evm : Evm) (msg : Message) :
    transitionDb evm msg = acquireGas msg >>= fun gas => conclude evm msg gas.1 gas.2 := by
  cases hnormal : isNormalTransaction msg.txType <;>
    simp [transitionDb, acquireGas, hnormal]

/-- The ends of `acquireGas`. -/
inductive Acquiring (msg : Message) (st : StateTransition) : EStateM.Result CoreError StateTransition (ℕ × ℕ) → Prop
  | refused {err : CoreError} {t : StateTransition} (hnormal : isNormalTransaction msg.txType = true)
    (h : ¬ Affordable msg st) (herr : err ≠ .panic)
    (ht : t = st.withAccount msg.sender ∨ t = (st.withAccount msg.sender).withAccount msg.sender) :
    Acquiring msg st (.error err t)
  | large {t : StateTransition} (h : ¬ intrinsicOf msg st < 2 ^ 64)
    (ht : t = st.paid msg ∨ t = st.withAccount msg.sender) : Acquiring msg st (.error (.vm .errOutOfGas) t)
  | valued {err : CoreError} (hprivacy : isNormalTransaction msg.txType = false) (hvalue : msg.amount ≠ 0)
    (herr : err ≠ .panic) : Acquiring msg st (.error err (st.withAccount msg.sender))
  | invalid {err : CoreError} (hprivacy : isNormalTransaction msg.txType = false)
    (hintrinsic : intrinsicOf msg st < 2 ^ 64) (hvalue : msg.amount = 0)
    (h : fetchPrivacyTxInfo st.world.db (addressBytes msg.sender) st.data msg.price = .error err) :
    Acquiring msg st (.error err (st.withAccount msg.sender))
  | full {info : PrivacyTxInfo} (hprivacy : isNormalTransaction msg.txType = false) (hvalue : msg.amount = 0)
    (h : fetchPrivacyTxInfo st.world.db (addressBytes msg.sender) st.data msg.price = .ok info)
    (himage : (st.world.db.content otaImageStorageAddr).bytes (imageKey info.toRingSignInfo) = [])
    (hpool : ¬ info.stampTotalGas ≤ st.gp) :
    Acquiring msg st (.error .errGasLimitReached ((st.withAccount msg.sender).stamped msg.sender info))
  | used {info : PrivacyTxInfo} (hprivacy : isNormalTransaction msg.txType = false) (hvalue : msg.amount = 0)
    (h : fetchPrivacyTxInfo st.world.db (addressBytes msg.sender) st.data msg.price = .ok info)
    (himage : (st.world.db.content otaImageStorageAddr).bytes (imageKey info.toRingSignInfo) ≠ []) :
    Acquiring msg st (.ok (intrinsicOf msg st, 0)
      { st.withAccount msg.sender with gas := 0, initialGas := 0, data := [] })
  | begins {total : ℕ} {t : StateTransition} (h : Begins msg st total t) (hintrinsic : intrinsicOf msg st < 2 ^ 64) :
    Acquiring msg st (.ok (intrinsicOf msg st, total) t)

theorem acquireGas_of_affordable (hnormal : isNormalTransaction msg.txType = true) (h : Affordable msg st) :
    acquireGas msg st = if intrinsicOf msg st < 2 ^ 64 then .ok (intrinsicOf msg st, 0) (st.paid msg)
      else .error (.vm .errOutOfGas) (st.paid msg) := by
  unfold acquireGas
  simp only [hnormal, if_true, ensureAccount]
  rcases preCheck_run msg st with ⟨-, hcheck⟩ | ⟨hnot, -⟩
  · rw [Action.bind_of_ok hcheck, modify_bind, get_bind, check_bind]
    show (if intrinsicGas (st.paid msg).data _ _ < _ then
      EStateM.Result.ok (intrinsicGas (st.paid msg).data _ _, 0) (st.paid msg) else .error _ (st.paid msg)) = _
    rw [StateTransition.data_paid]
    rfl
  · exact absurd h hnot

theorem acquireGas_of_not_affordable (hnormal : isNormalTransaction msg.txType = true) (h : ¬ Affordable msg st) :
    ∃ err t, acquireGas msg st = .error err t ∧ err ≠ .panic ∧
      (t = st.withAccount msg.sender ∨ t = (st.withAccount msg.sender).withAccount msg.sender) := by
  unfold acquireGas
  simp only [hnormal, if_true]
  rcases preCheck_run msg st with ⟨haffordable, -⟩ | ⟨-, err, t, hcheck, herr, ht⟩
  · exact absurd haffordable h
  · exact ⟨err, t, Action.bind_of_error hcheck _, herr, ht⟩

theorem acquireGas_of_large (hprivacy : isNormalTransaction msg.txType = false) (h : ¬ intrinsicOf msg st < 2 ^ 64) :
    acquireGas msg st = .error (.vm .errOutOfGas) (st.withAccount msg.sender) := by
  unfold acquireGas
  simp only [hprivacy, Bool.false_eq_true, if_false, ensureAccount, pure_bind, modify_bind, get_bind, check_bind,
    StateTransition.data_withAccount]
  exact if_neg h

theorem acquireGas_run (msg : Message) (st : StateTransition) : Acquiring msg st (acquireGas msg st) := by
  cases hnormal : isNormalTransaction msg.txType with
  | true =>
    by_cases haffordable : Affordable msg st
    · rw [acquireGas_of_affordable hnormal haffordable]
      split_ifs with hintrinsic
      · exact .begins (.normal hnormal haffordable) hintrinsic
      · exact .large hintrinsic (.inl rfl)
    · obtain ⟨err, t, hacquire, herr, ht⟩ := acquireGas_of_not_affordable hnormal haffordable
      rw [hacquire]
      exact .refused hnormal haffordable herr ht
  | false =>
    unfold acquireGas
    simp only [hnormal, Bool.false_eq_true, if_false, ensureAccount, pure_bind, modify_bind, get_bind, check_bind,
      StateTransition.data_withAccount]
    split_ifs with hintrinsic
    · have hstamp := useStamp_run msg (st.withAccount msg.sender)
      generalize hresult : useStamp msg (st.withAccount msg.sender) = result at hstamp
      cases hstamp with
      | refused hvalue herr =>
        rw [Action.bind_of_error hresult]
        exact .valued hnormal hvalue herr
      | invalid hvalue hfetch =>
        rw [Action.bind_of_error hresult]
        exact .invalid hnormal hintrinsic hvalue ((fetch_withAccount st msg).symm.trans hfetch)
      | used hvalue hfetch himage =>
        rw [Action.bind_of_ok hresult]
        exact .used hnormal hvalue ((fetch_withAccount st msg).symm.trans hfetch) (st.content_withAccount _ ▸ himage)
      | full hvalue hfetch himage hpool =>
        rw [Action.bind_of_error hresult]
        exact .full hnormal hvalue ((fetch_withAccount st msg).symm.trans hfetch)
          (st.content_withAccount _ ▸ himage) (st.gp_withAccount msg.sender ▸ hpool)
      | stamped hvalue hfetch himage hpool =>
        rw [st.gp_withAccount] at hpool hresult
        rw [Action.bind_of_ok hresult]
        exact .begins (.privacy hnormal hvalue ((fetch_withAccount st msg).symm.trans hfetch)
          (st.content_withAccount _ ▸ himage) hpool) hintrinsic
    · exact .large hintrinsic (.inr rfl)

variable {evm : Evm}

/-- A transition that succeeds. A stamp that was used leaves no gas for the execution, so that it ends there. -/
theorem transitionDb_eq_ok {e : Executed} (h : transitionDb evm msg st = .ok e st') : ∃ total t,
    Begins msg st total t ∧ Concluding evm msg (intrinsicOf msg st) total t (.ok e st') := by
  rw [transitionDb_eq] at h
  obtain ⟨gas, t, hacquire, h⟩ := Action.bind_eq_ok.mp h
  have hend := acquireGas_run msg st
  rw [hacquire] at hend
  have hconclude := conclude_run evm msg gas.1 gas.2 t
  rw [h] at hconclude
  cases hend with
  | used =>
    -- there is no gas for the intrinsic gas
    exact absurd hconclude.intrinsic_le (Nat.not_le.mpr (intrinsicGas_pos _ _ _))
  | begins hbegins => exact ⟨_, t, hbegins, hconclude⟩

/-! ### What the accounts hold -/

section Contents

variable (st : StateTransition) (msg : Message) (evm : Evm)

section

omit [Crypto]

theorem content_paid : (st.paid msg).world.db.content =
    Accounts.credit st.world.db.content msg.sender (-((msg.gasLimit * msg.price : ℕ) : ℤ)) := by
  rw [StateTransition.paid, StateTransition.content_withAccount]
  show (StateDB.subBalance _ _ _).content = _
  rw [content_subBalance, StateTransition.content_withAccount, StateTransition.content_withAccount]

theorem content_stamped (sender : Address) (info : PrivacyTxInfo) : (st.stamped sender info).world.db.content =
    Accounts.setBytes st.world.db.content otaImageStorageAddr (imageKey info.toRingSignInfo)
      (beBytes info.otaBalance) := StateDB.content_setStateByteArray _ _ _ _

theorem content_rewarded (usedGas : ℕ) : (st.rewarded evm msg usedGas).world.db.content =
    Accounts.credit st.world.db.content evm.context.coinbase ((usedGas * msg.price : ℕ) : ℤ) :=
  content_addBalance _ _

end

omit [Keccak] [Crypto] in
theorem credit_credit (σ : Accounts) (a : Address) (x y : ℤ) : (σ.credit a x).credit a y = σ.credit a (x + y) := by
  simp [Accounts.credit, add_assoc]

omit [Crypto] in
theorem refunded_spec : ∃ refund ≤ st.gasUsed / 2, (st.refunded msg).gas = st.gas + refund ∧
    (st.refunded msg).initialGas = st.initialGas ∧ (st.refunded msg).gp = st.gp + (st.gas + refund) ∧
    (st.refunded msg).world.accepted = st.world.accepted ∧
    (st.refunded msg).world.db.content =
      Accounts.credit st.world.db.content msg.sender (((st.gas + refund) * msg.price : ℕ) : ℤ) := by
  obtain ⟨t, ht⟩ : ∃ t, t = (st.withAccount msg.sender).onDB
    (·.addBalance msg.sender ((st.gas * msg.price : ℕ) : ℤ)) := ⟨_, rfl⟩
  have hgas : t.gas = st.gas := by rw [ht]; exact st.gas_withAccount _
  have hinitial : t.initialGas = st.initialGas := by rw [ht]; exact st.initialGas_withAccount _
  have hgp : t.gp = st.gp := by rw [ht]; exact st.gp_withAccount _
  have haccepted : t.world.accepted = st.world.accepted := by rw [ht]; exact st.accepted_withAccount _
  have hcontent : t.world.db.content =
      Accounts.credit st.world.db.content msg.sender ((st.gas * msg.price : ℕ) : ℤ) := by
    rw [ht, ← st.content_withAccount msg.sender]
    exact content_addBalance _ _
  have hrefunded : st.refunded msg = { t with
      gas := t.gas + min (t.gasUsed / 2) t.world.db.getRefund
      gp := t.gp + (t.gas + min (t.gasUsed / 2) t.world.db.getRefund)
      world := t.world.onDB (·.addBalance msg.sender
        ((min (t.gasUsed / 2) t.world.db.getRefund * msg.price : ℕ) : ℤ)) } := by
    rw [ht]
    rfl
  have hused : t.gasUsed = st.gasUsed := by rw [StateTransition.gasUsed, hinitial, hgas, StateTransition.gasUsed]
  rw [hused] at hrefunded
  have hle : min (st.gasUsed / 2) t.world.db.getRefund ≤ st.gasUsed / 2 := Nat.min_le_left _ _
  generalize min (st.gasUsed / 2) t.world.db.getRefund = refund at hrefunded hle
  rw [hrefunded]
  refine ⟨refund, hle, by rw [hgas], hinitial, by rw [hgp, hgas], haccepted, ?_⟩
  show (t.world.db.addBalance _ _).content = _
  rw [content_addBalance, hcontent, credit_credit, ← Nat.cast_add, ← Nat.add_mul]

end Contents

/-! ### The division by the gas price -/

/-- The data carries a ring signature that is accepted. -/
def Carries (db : StateDB) (sender : Address) (data : Bytes) : Prop :=
  4 ≤ data.length ∧ ∃ ringSignedData params info, unpackStringBytes (data.drop 4) = some (ringSignedData, params) ∧
    fetchRingSignInfo db (addressBytes sender) ringSignedData = .ok info

omit [Keccak] in
theorem fetchPrivacyTxInfo_panic_iff (db : StateDB) (sender : Address) (data : Bytes) (gasPrice : ℕ) :
    fetchPrivacyTxInfo db (addressBytes sender) data gasPrice = .error .panic ↔
      gasPrice = 0 ∧ Carries db sender data := by
  unfold fetchPrivacyTxInfo Carries
  by_cases hlen : 4 ≤ data.length
  · cases hunpack : unpackStringBytes (data.drop 4) with
    | none => simp [ensure, need, hlen, bind, Except.bind]
    | some p =>
      obtain ⟨ringSignedData, params⟩ := p
      cases hfetch : fetchRingSignInfo db (addressBytes sender) ringSignedData with
      | error => simp [ensure, need, hlen, bind, Except.bind, relabel, hfetch]
      | ok =>
        by_cases hprice : gasPrice = 0
        · simp [ensure, need, hlen, bind, Except.bind, relabel, hfetch, hprice]
        · simp only [ensure, need, hlen, bind, Except.bind, relabel, hfetch, hprice, if_true, Option.elim_some]
          split_ifs <;> simp [pure, Except.pure]
  · simp [ensure, hlen, bind, Except.bind]

theorem conclude_ne_panic (intrinsic total : ℕ) : conclude evm msg intrinsic total st ≠ .error .panic st' := by
  intro h
  have hend := conclude_run evm msg intrinsic total st
  rw [h] at hend
  cases hend

theorem transitionDb_panics_iff (evm : Evm) (msg : Message) (st : StateTransition) :
    (∃ st', transitionDb evm msg st = .error .panic st') ↔
      isNormalTransaction msg.txType = false ∧ intrinsicOf msg st < 2 ^ 64 ∧ msg.amount = 0 ∧ msg.price = 0 ∧
        Carries st.world.db msg.sender st.data := by
  rw [transitionDb_eq]
  have hend := acquireGas_run msg st
  constructor
  · rintro ⟨st', h⟩
    cases hacquire : acquireGas msg st with
    | ok =>
      rw [Action.bind_of_ok hacquire] at h
      exact absurd h (conclude_ne_panic _ _)
    | error =>
      rw [Action.bind_of_error hacquire] at h
      cases h
      rw [hacquire] at hend
      cases hend with
      | refused _ _ herr | valued _ _ herr => exact absurd rfl herr
      | invalid hprivacy hintrinsic hvalue hfetch =>
        exact ⟨hprivacy, hintrinsic, hvalue, (fetchPrivacyTxInfo_panic_iff _ _ _ _).mp hfetch⟩
  · rintro ⟨hprivacy, hintrinsic, hvalue, hpanic⟩
    rw [← fetchPrivacyTxInfo_panic_iff] at hpanic
    generalize hacquire : acquireGas msg st = result at hend
    cases hend with
    | refused hnormal => exact absurd hprivacy (by simp [hnormal])
    | large hlarge => exact absurd hintrinsic hlarge
    | valued _ hne => exact absurd hvalue hne
    | invalid _ _ _ hfetch =>
      cases hpanic.symm.trans hfetch
      exact ⟨_, Action.bind_of_error hacquire _⟩
    | full _ _ hfetch | used _ _ hfetch => cases hpanic.symm.trans hfetch
    | begins hbegins =>
      cases hbegins with
      | normal hnormal => exact absurd hprivacy (by simp [hnormal])
      | privacy _ _ hfetch => cases hpanic.symm.trans hfetch

/-- `TransitionDb` does not panic, unless it divides by a gas price of zero: for a privacy message without a value
whose data carries an accepted ring signature. -/
theorem transitionDb_ne_panic_iff (evm : Evm) (msg : Message) (st : StateTransition) :
    (∀ st', transitionDb evm msg st ≠ .error .panic st') ↔
      ¬ (isNormalTransaction msg.txType = false ∧ intrinsicOf msg st < 2 ^ 64 ∧ msg.amount = 0 ∧ msg.price = 0 ∧
        Carries st.world.db msg.sender st.data) := by
  rw [← transitionDb_panics_iff evm, not_exists]

end Ends

namespace Sample

open Vm.Sample (member wanAddr)

attribute [local instance] State.Sample.keccak Vm.Sample.crypto

def stampWorld : World where
  db := ((StateDB.new (fun _ => none) fun _ => none).setStateByteArray
    (otaBalance2ContractAddr (10 ^ 15)) (otaKey wanAddr) wanAddr).setStateByteArray
    otaBalanceStorageAddr (otaKey wanAddr) (beBytes (10 ^ 15))
  accepted := []

def stampData (callData : Bytes) : Bytes :=
  let ringSignedData := encodeRingSignOut member member
  let padded := rightPadBytes ringSignedData ((ringSignedData.length + 31) / 32 * 32)
  [0, 0, 0, 0] ++ bePadded 32 64 ++ bePadded 32 (96 + padded.length) ++ bePadded 32 ringSignedData.length ++
    padded ++ bePadded 32 callData.length ++ rightPadBytes callData ((callData.length + 31) / 32 * 32)

def freeMessage : Message :=
  { sender := 0x11, recipient := some 0x22, nonce := 0, amount := 0, gasLimit := 0, price := 0,
    data := stampData [], checkNonce := true, txType := privacyTx }

/-- The block with this message is not refused: the node stops. -/
theorem free_message_panics : ∃ st,
    transitionDb Vm.Sample.evm freeMessage (newStateTransition freeMessage (10 ^ 7) stampWorld) = .error .panic st := by
  decide +kernel

end Sample

end GoWanchain.Core
