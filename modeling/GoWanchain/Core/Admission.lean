import GoWanchain.Vm.Failure
import GoWanchain.Core.Processor
import GoWanchain.Core.TxPool

/-!
# Admission and execution

A transaction that `validateTx` admits on a state can be executed on it, if its nonce is due and there is room for its
gas: the two ask for the same funds, the same stamp and, almost, the same intrinsic gas. But the pool counts the gas
of a creation as before homestead until it has seen a new head, and it does not ask whether the gas limit is a `uint64`.
-/

namespace GoWanchain.Core

open State Vm Types

section

variable [Keccak]

theorem getBalance_run_start (st : StateTransition) (msg : Message) (addr : Address) :
    ((st.onDB fun db => db.setNonce msg.sender (db.getNonce msg.sender + 1)).withAccount addr).world.db.getBalance
      msg.sender = st.world.db.getBalance msg.sender := by
  rw [StateTransition.getBalance_withAccount]
  show (st.world.db.setNonce _ _).getBalance _ = _
  rw [StateDB.getBalance_eq, StateDB.content_setNonce, StateDB.getBalance_eq]
  simp

theorem getBalance_paid (st : StateTransition) (msg : Message) : (st.paid msg).world.db.getBalance msg.sender =
    st.world.db.getBalance msg.sender - ((msg.gasLimit * msg.price : ℕ) : ℤ) := by
  rw [StateDB.getBalance_eq, content_paid, StateDB.getBalance_eq]
  simp [Accounts.credit, sub_eq_add_neg]

theorem getBalance_stamped (st : StateTransition) (sender a : Address) (info : PrivacyTxInfo) :
    (st.stamped sender info).world.db.getBalance a = st.world.db.getBalance a := by
  rw [StateDB.getBalance_eq, content_stamped, StateDB.getBalance_eq]
  by_cases ha : a = otaImageStorageAddr
  · subst ha
    simp [Accounts.setBytes]
  · simp [Accounts.setBytes, ha]

variable [Crypto] {msg : Message} {st t : StateTransition} {total : ℕ}

theorem run_insufficient_iff (evm : Evm) (msg : Message) (st : StateTransition) :
    (st.run evm msg).err = some .errInsufficientBalance ↔ ¬ (msg.amount : ℤ) ≤ st.world.db.getBalance msg.sender := by
  rw [StateTransition.run]
  cases msg.recipient with
  | none =>
    rw [create_insufficient_iff (evm.finish_result (within_create ..)), canTransfer]
    simp
  | some addr =>
    rw [← getBalance_run_start st msg addr]
    refine (call_insufficient_iff (evm.finish_result (within_call ..))).trans ?_
    rw [canTransfer]
    simp

/-- A message that begins its execution ends it well, if its gas covers the intrinsic gas and its sender has the
value. -/
theorem transitionDb_ok_iff (evm : Evm) (hacquire : acquireGas msg st = .ok (intrinsicOf msg st, total) t) :
    (∃ e st', transitionDb evm msg st = .ok e st') ↔
      intrinsicOf msg st ≤ t.gas ∧ (msg.amount : ℤ) ≤ t.world.db.getBalance msg.sender := by
  rw [transitionDb_eq, Action.bind_of_ok hacquire]
  have hend := conclude_run evm msg (intrinsicOf msg st) total t
  have hrun := run_insufficient_iff evm msg { t with gas := t.gas - intrinsicOf msg st }
  generalize conclude evm msg (intrinsicOf msg st) total t = result at hend
  cases hend with
  | outOfGas hgas => exact iff_of_false (by simp) fun h => hgas h.1
  | insufficient _ herr => exact iff_of_false (by simp) fun h => hrun.mp herr h.2
  | normal _ hgas hr herr | privacy _ hgas hr herr =>
    exact iff_of_true ⟨_, _, rfl⟩ ⟨hgas, by_contra fun hne => herr (hr ▸ hrun.mpr hne)⟩

theorem acquireGas_privacy {info : PrivacyTxInfo} (hprivacy : isNormalTransaction msg.txType = false)
    (hintrinsic : intrinsicOf msg st < 2 ^ 64) (hvalue : msg.amount = 0)
    (hfetch : fetchPrivacyTxInfo st.world.db (addressBytes msg.sender) st.data msg.price = .ok info)
    (himage : (st.world.db.content otaImageStorageAddr).bytes (imageKey info.toRingSignInfo) = [])
    (hpool : info.stampTotalGas ≤ st.gp) : acquireGas msg st = .ok (intrinsicOf msg st, info.stampTotalGas)
      { (st.withAccount msg.sender).stamped msg.sender info with gp := st.gp - info.stampTotalGas } := by
  have hend := acquireGas_run msg st
  generalize acquireGas msg st = result at hend
  cases hend with
  | refused hnormal => exact absurd hprivacy (by simp [hnormal])
  | large hlarge => exact absurd hintrinsic hlarge
  | valued _ hne => exact absurd hvalue hne
  | invalid _ _ _ herr => cases hfetch.symm.trans herr
  | full _ _ hfetch' _ hfull =>
    cases hfetch.symm.trans hfetch'
    exact absurd hpool hfull
  | used _ _ hfetch' hused =>
    cases hfetch.symm.trans hfetch'
    exact absurd himage hused
  | begins hbegins =>
    cases hbegins with
    | normal hnormal => exact absurd hprivacy (by simp [hnormal])
    | privacy _ _ hfetch' =>
      cases hfetch.symm.trans hfetch'
      rfl

theorem transitionDb_normal_ok_iff (evm : Evm) (hnormal : isNormalTransaction msg.txType = true)
    (hnonce : st.world.db.getNonce msg.sender = msg.nonce) (hpool : msg.gasLimit ≤ st.gp) (hgas : st.gas = 0)
    (hfunds : ((msg.gasLimit * msg.price + msg.amount : ℕ) : ℤ) ≤ st.world.db.getBalance msg.sender) :
    (∃ e st', transitionDb evm msg st = .ok e st') ↔ msg.gasLimit < 2 ^ 64 ∧ intrinsicOf msg st ≤ msg.gasLimit := by
  push_cast at hfunds
  constructor
  · rintro ⟨e, st', h⟩
    obtain ⟨total, t, hbegins, hends⟩ := transitionDb_eq_ok h
    cases hbegins with
    | normal _ haffordable =>
      have hle := hends.intrinsic_le
      rw [(gas_paid st msg).1, hgas, Nat.zero_add] at hle
      exact ⟨haffordable.gasLimit, hle⟩
    | privacy hprivacy => exact absurd hprivacy (by simp [hnormal])
  · rintro ⟨hlimit, hle⟩
    have haffordable : Affordable msg st := ⟨fun _ => hnonce, hlimit, by push_cast; omega, hpool⟩
    have hacquire := acquireGas_of_affordable hnormal haffordable
    rw [if_pos (hle.trans_lt hlimit)] at hacquire
    refine (transitionDb_ok_iff evm hacquire).mpr ⟨?_, ?_⟩
    · rwa [(gas_paid st msg).1, hgas, Nat.zero_add]
    · rw [getBalance_paid]
      push_cast
      omega

theorem transitionDb_privacy_ok_iff (evm : Evm) {info : PrivacyTxInfo}
    (hprivacy : isNormalTransaction msg.txType = false) (hvalue : msg.amount = 0)
    (hfetch : fetchPrivacyTxInfo st.world.db (addressBytes msg.sender) st.data msg.price = .ok info)
    (himage : (st.world.db.content otaImageStorageAddr).bytes (imageKey info.toRingSignInfo) = [])
    (hpool : info.stampTotalGas ≤ st.gp) : (∃ e st', transitionDb evm msg st = .ok e st') ↔
      0 ≤ st.world.db.getBalance msg.sender ∧ intrinsicOf msg st ≤ info.gasLeftSubRingSign := by
  obtain ⟨-, -, -, hlt, hleft⟩ := fetchPrivacyTxInfo_eq_ok hfetch
  have hfunded (hle : intrinsicOf msg st ≤ info.gasLeftSubRingSign) :
      (∃ e st', transitionDb evm msg st = .ok e st') ↔ 0 ≤ st.world.db.getBalance msg.sender := by
    rw [transitionDb_ok_iff evm (acquireGas_privacy hprivacy (hle.trans_lt (hleft.trans_lt hlt)) hvalue hfetch himage
      hpool), hvalue]
    show _ ≤ info.gasLeftSubRingSign ∧ _ ≤ ((st.withAccount msg.sender).stamped _ info).world.db.getBalance _ ↔ _
    rw [getBalance_stamped, StateTransition.getBalance_withAccount]
    exact and_iff_right hle
  constructor
  · rintro ⟨e, st', h⟩
    obtain ⟨total, t, hbegins, hends⟩ := transitionDb_eq_ok h
    cases hbegins with
    | normal hnormal => exact absurd hprivacy (by simp [hnormal])
    | privacy _ _ hfound =>
      cases hfetch.symm.trans hfound
      exact ⟨(hfunded hends.intrinsic_le).mp ⟨e, st', h⟩, hends.intrinsic_le⟩
  · rintro ⟨hbalance, hle⟩
    exact (hfunded hle).mpr hbalance

/-! ### What the pool asked -/

/-- The gas that a transaction has for its execution: its limit, or what is left of its stamp. -/
def execGas (db : StateDB) (sender : Address) (tx : Transaction) : ℕ :=
  if isNormalTransaction tx.txtype then tx.gasLimit
  else
    match fetchPrivacyTxInfo db (addressBytes sender) tx.payload tx.price with
    | .ok info => info.gasLeftSubRingSign
    | .error _ => 0

inductive Admitted (pool : TxPool) (tx : Transaction) (sender : Address) : Prop
  | normal (hnormal : isNormalTransaction tx.txtype = true)
    (hcost : (tx.cost : ℤ) ≤ pool.currentState.getBalance sender)
    (hgas : intrinsicGas tx.payload tx.recipient.isNone pool.homestead ≤ tx.gasLimit)
  | privacy {info : PrivacyTxInfo} (hprivacy : isNormalTransaction tx.txtype = false) (hvalue : tx.amount = 0)
    (hfetch : fetchPrivacyTxInfo pool.currentState (addressBytes sender) tx.payload tx.price = .ok info)
    (himage : (pool.currentState.content otaImageStorageAddr).bytes (imageKey info.toRingSignInfo) = [])
    (hgas : intrinsicGas tx.payload tx.recipient.isNone pool.homestead ≤ info.gasLeftSubRingSign)

theorem admitted_of_validPrivacyTx {pool : TxPool} {tx : Transaction} {sender : Address}
    (hprivacy : isNormalTransaction tx.txtype = false)
    (h : validPrivacyTx pool.currentState (addressBytes sender) tx.payload tx.price
      (intrinsicGas tx.payload tx.recipient.isNone pool.homestead) tx.amount pool.currentMaxGas = .ok ()) :
    Admitted pool tx sender := by
  simp only [validPrivacyTx, GoWanchain.bind_eq_ok, ensure_eq_ok, relabel_eq_ok, checkOTAImageExist_run] at h
  obtain ⟨-, -, -, hvalue, -, -, info, hfetch, -, -, exist, hexist, -, hspent, hgas⟩ := h
  cases hexist
  refine .privacy hprivacy hvalue hfetch ?_ hgas
  rw [StateDB.getStateByteArray_eq] at hspent
  simpa [imageKey] using hspent

theorem admitted_of_validateTx {pool : TxPool} {tx : Transaction} {loc : Bool} {sender : Address}
    (hsender : pool.signer tx = some sender) (h : pool.validateTx tx loc = .ok ()) : Admitted pool tx sender := by
  simp only [TxPool.validateTx, GoWanchain.bind_eq_ok, ensure_eq_ok, need_eq_ok, hsender, Option.some.injEq] at h
  obtain ⟨-, -, -, -, -, -, _, rfl, -, -, -, -, -, hcost, hchecks⟩ := h
  cases hnormal : isNormalTransaction tx.txtype with
  | true =>
    rw [if_pos hnormal] at hchecks
    obtain ⟨_, hgas, -⟩ := GoWanchain.bind_eq_ok.mp hchecks
    exact .normal hnormal (hcost hnormal) (ensure_eq_ok.mp hgas)
  | false =>
    rw [if_neg (by simp [hnormal])] at hchecks
    obtain ⟨_, hvalid, -⟩ := GoWanchain.bind_eq_ok.mp hchecks
    exact admitted_of_validPrivacyTx hnormal hvalid

omit [Keccak] [Crypto] in
theorem intrinsicGas_homestead_le_iff {data : Bytes} {recipient : Option Address} {homestead : Bool} {gas : ℕ}
    (h : intrinsicGas data recipient.isNone homestead ≤ gas) : intrinsicGas data recipient.isNone true ≤ gas ↔
      (homestead = false → recipient = none → intrinsicGas data true true ≤ gas) := by
  cases homestead with
  | true => simp [h]
  | false =>
    cases recipient with
    | none => simp
    | some => simpa [intrinsicGas] using h

variable {pool : TxPool} {tx : Transaction} {loc : Bool} {w : World} {gp : ℕ}

/-- A transaction that the pool admits on a state is executed on it, for a nonce that is due and with room for its gas,
if and only if its gas limit is a `uint64` and, before the pool has seen a new head, the gas of a creation covers what a
creation costs after homestead. -/
theorem transitionDb_ok_iff_of_admitted (evm : Evm) (hvalid : pool.validateTx tx loc = .ok ())
    (hmsg : tx.asMessage pool.signer = some msg) (hstate : w.db = pool.currentState)
    (hnonce : pool.currentState.getNonce msg.sender = tx.accountNonce) (hgas : tx.gasLimit ≤ gp)
    (hstamp : ∀ info, fetchPrivacyTxInfo pool.currentState (addressBytes msg.sender) tx.payload tx.price = .ok info →
      info.stampTotalGas ≤ gp) : (∃ e st', transitionDb evm msg (newStateTransition msg gp w) = .ok e st') ↔
      0 ≤ pool.currentState.getBalance msg.sender ∧ (isNormalTransaction tx.txtype = true → tx.gasLimit < 2 ^ 64) ∧
        (pool.homestead = false → tx.recipient = none →
          intrinsicGas tx.payload true true ≤ execGas pool.currentState msg.sender tx) := by
  obtain ⟨sender, hsender, rfl⟩ := Option.map_eq_some_iff.mp hmsg
  rw [← hstate] at hnonce
  cases admitted_of_validateTx hsender hvalid with
  | normal hnormal _ hintrinsic =>
    have hexec : execGas pool.currentState sender tx = tx.gasLimit := if_pos hnormal
    have hfunds : ((tx.gasLimit * tx.price + tx.amount : ℕ) : ℤ) ≤ w.db.getBalance sender := by
      rwa [hstate, Nat.mul_comm]
    have hbalance : 0 ≤ w.db.getBalance sender := le_trans (Nat.cast_nonneg _) hfunds
    refine (transitionDb_normal_ok_iff evm hnormal hnonce hgas rfl hfunds).trans ?_
    rw [hexec, ← intrinsicGas_homestead_le_iff hintrinsic, ← hstate]
    simp only [hbalance, hnormal, true_and, true_implies]
    rfl
  | @privacy info hprivacy hvalue hfetch himage hintrinsic =>
    have hpool := hstamp info hfetch
    have hexec : execGas pool.currentState sender tx = info.gasLeftSubRingSign := by
      simp only [execGas, hprivacy, hfetch, Bool.false_eq_true, if_false]
    rw [hexec, ← intrinsicGas_homestead_le_iff hintrinsic]
    rw [← hstate] at hfetch himage ⊢
    refine (transitionDb_privacy_ok_iff evm hprivacy hvalue hfetch himage hpool).trans ?_
    simp only [hprivacy, Bool.false_eq_true, false_implies, true_and]
    rfl

end

namespace Sample

open TxPool.Sample (start)

attribute [local instance] State.Sample.keccak Vm.Sample.crypto

/-- A creation whose gas covers what it cost before homestead. -/
def cheapCreation : Transaction := { TxPool.Sample.transfer 0 1 with recipient := none, gasLimit := 30000 }

/-- A new pool admits it, and its execution runs out of gas. -/
theorem cheapCreation_fails : (start 0).validateTx cheapCreation true = .ok () ∧
    ∃ msg, cheapCreation.asMessage (start 0).signer = some msg ∧
      (start 0).currentState.getNonce msg.sender = cheapCreation.accountNonce ∧
      ∃ st, transitionDb Vm.Sample.evm msg (newStateTransition msg 100000 ⟨(start 0).currentState, []⟩) =
        .error (.vm .errOutOfGas) st := by
  refine ⟨by decide +kernel, _, rfl, by decide +kernel, by decide +kernel⟩

/-- The message of a transfer. -/
def transferMessage : Message := ⟨1, some 7, 0, 1, 21000, 1, [], true, normalTx⟩

theorem transfer_executes : (start 0).validateTx (TxPool.Sample.transfer 0 1) true = .ok () ∧
    ∃ e st', transitionDb Vm.Sample.evm transferMessage
      (newStateTransition transferMessage 100000 ⟨(start 0).currentState, []⟩) = .ok e st' := by
  have hvalid : (start 0).validateTx (TxPool.Sample.transfer 0 1) true = .ok () := by decide +kernel
  have hstamp (info : PrivacyTxInfo) (h : fetchPrivacyTxInfo (start 0).currentState
      (addressBytes transferMessage.sender) [] 1 = .ok info) : info.stampTotalGas ≤ 100000 := by cases h
  exact ⟨hvalid, (transitionDb_ok_iff_of_admitted Vm.Sample.evm hvalid rfl rfl (by decide +kernel) (by decide +kernel)
    hstamp).mpr ⟨by decide +kernel, fun _ => by decide +kernel, fun _ h => by cases h⟩⟩

end Sample

end GoWanchain.Core
