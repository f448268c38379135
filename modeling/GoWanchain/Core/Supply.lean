import GoWanchain.Core.OtaLedger
import GoWanchain.Core.Payload
import GoWanchain.Vm.Supply

/-!
# The supply under a transition

The sender of a normal message pays for its gas, gets back what is left, and the coinbase gets the rest; so a message
to an account without code or to a privacy contract keeps the supply, also when the call fails. A privacy message uses a
stamp up, and the coinbase gets the gas it pays for. What is left of the stamp after the division by the gas price is
lost.
-/

namespace GoWanchain.Core

open State Vm Types

section Supply

variable [Keccak]

omit [Keccak] in
/-- The sum of all balances and of all recorded OTA balances, without the values of the recorded images. -/
noncomputable def supply (db : StateDB) : ℤ :=
  ∑ a, db.getBalance a + ∑ k, (beNat (db.getStateByteArray otaBalanceStorageAddr k) : ℤ) -
    ∑ i, (beNat (db.getStateByteArray otaImageStorageAddr i) : ℤ)

theorem supply_eq (db : StateDB) : supply db = Accounts.total db.content := by
  simp only [supply, Accounts.total, Accounts.otaBalance, Accounts.imageValue, StateDB.getBalance_eq,
    StateDB.getStateByteArray_eq]

variable [Crypto]

/-- The machine runs no code for the recipient. -/
def Codeless (db : StateDB) (addr : Address) : Prop :=
  db.getCode addr = [] ∨ addr = wanCoinPrecompileAddr ∨ addr = wanStampPrecompileAddr

omit [Crypto] in
theorem Codeless.not_runs {db : StateDB} {addr : Address} (h : Codeless db addr) (caller : Address) (value : ℕ) :
    ¬ (⟨caller, addr, (db.content addr).code, addr, value⟩ : Contract).Runs := by
  rintro ⟨hprecompiled, hcode⟩
  rcases h with h | rfl | rfl
  · rw [StateDB.getCode_eq] at h
    exact hcode h
  · cases hprecompiled
  · cases hprecompiled

variable {evm : Evm} {msg : Message}

theorem call_supply {depth : ℕ} {ro : Bool} {caller addr : Address} {input : Bytes} {gas value n : ℕ} {w : World}
    {r : Result} (hw : w.db.WF) (haddr : Codeless w.db addr)
    (h : evm.finish n (evm.call depth ro caller addr input gas value w) = some r) :
    supply r.world.db = supply w.db := by
  rw [supply_eq, supply_eq]
  obtain ⟨-, l, -, ⟨-, hsame⟩ | ⟨-, heffect⟩⟩ := call_settled (loop_ran evm n) hw h
  · rw [hsame]
  · rw [heffect.total_eq (haddr.not_runs caller value), Accounts.total_opened]

section Counted

variable (msg : Message) (addr : Address) (st : StateTransition)

omit [Crypto]

theorem content_counted : (st.counted msg addr).world.db.content =
    Accounts.setNonce st.world.db.content msg.sender (st.world.db.getNonce msg.sender + 1) := by
  rw [StateTransition.counted, StateTransition.content_withAccount]
  exact StateDB.content_setNonce _ _ _

theorem leads_counted : st.world.db.Leads (st.counted msg addr).world.db := by
  have hnonce : st.world.db.Leads (st.onDB fun db => db.setNonce msg.sender (db.getNonce msg.sender + 1)).world.db :=
    .moves (StateDB.change_moves _ _ (.nonceChange _))
  exact hnonce.trans (StateTransition.leads_withAccount _ addr)

theorem supply_counted : supply (st.counted msg addr).world.db = supply st.world.db := by
  rw [supply_eq, supply_eq, content_counted]
  refine Accounts.total_congr (fun a => ?_) (Accounts.bytes_setNonce _ _ _ _) (Accounts.bytes_setNonce _ _ _ _)
  by_cases ha : a = msg.sender <;> simp [Accounts.setNonce, ha]

theorem codeless_counted {addr : Address} (h : Codeless st.world.db addr) :
    Codeless (st.counted msg addr).world.db addr := by
  refine h.imp_left fun h => ?_
  rw [StateDB.getCode_eq] at h ⊢
  rw [content_counted]
  by_cases ha : addr = msg.sender <;> simpa [Accounts.setNonce, ha] using h

end Counted

theorem run_supply (st : StateTransition) {addr : Address} (hw : st.world.db.WF) (hto : msg.recipient = some addr)
    (haddr : Codeless st.world.db addr) : supply (st.run evm msg).world.db = supply st.world.db := by
  obtain ⟨input, gas, hrun⟩ : ∃ input gas, evm.finish (gas + 1)
      (evm.call 0 false msg.sender addr input gas msg.amount (st.counted msg addr).world) = some (st.run evm msg) := by
    unfold StateTransition.run
    rw [hto]
    exact ⟨_, _, evm.finish_result _⟩
  rw [call_supply (leads_counted msg addr st hw).1 (codeless_counted msg st haddr) hrun, supply_counted]

/-! ### The transition -/

variable {st : StateTransition} {addr : Address}

theorem supply_normal (evm : Evm) (intrinsic : ℕ) (hw : (st.paid msg).world.db.WF) (hgas : st.gas = 0)
    (hto : msg.recipient = some addr) (haddr : Codeless (st.paid msg).world.db addr) {t : StateTransition}
    (ht : t = ((st.paid msg).ran evm msg intrinsic).refunded msg) :
    supply (t.rewarded evm msg t.gasUsed).world.db = supply st.world.db := by
  obtain ⟨hpaid, hinitial, -⟩ := gas_paid st msg
  have hfull : (st.paid msg).gas = (st.paid msg).initialGas := by omega
  have hused := (gasUsed_refunded evm msg intrinsic hfull).1
  rw [← ht] at hused
  obtain ⟨refund, -, hleft, -, -, -, hrefunded⟩ := refunded_spec ((st.paid msg).ran evm msg intrinsic) msg
  rw [← ht] at hleft hrefunded
  have hran : supply ((st.paid msg).ran evm msg intrinsic).world.db = supply (st.paid msg).world.db :=
    run_supply { st.paid msg with gas := (st.paid msg).gas - intrinsic } hw hto haddr
  rw [supply_eq, supply_eq (st.paid msg).world.db, content_paid, Accounts.total_credit] at hran
  rw [supply_eq, content_rewarded, Accounts.total_credit, hrefunded, Accounts.total_credit, hran, ← hleft, supply_eq]
  have hsum : msg.gasLimit = t.gasUsed + t.gas := (hused.trans hinitial).symm
  rw [hsum]
  push_cast
  ring

theorem supply_privacy (evm : Evm) (intrinsic : ℕ) (hw : st.world.db.WF) (hto : msg.recipient = some addr)
    (haddr : Codeless st.world.db addr) {info : PrivacyTxInfo}
    (hfetch : fetchPrivacyTxInfo st.world.db (addressBytes msg.sender) st.data msg.price = .ok info)
    (himage : (st.world.db.content otaImageStorageAddr).bytes (imageKey info.toRingSignInfo) = []) {t : StateTransition}
    (ht : t.world = ((st.withAccount msg.sender).stamped msg.sender info).world) :
    supply ((t.ran evm msg intrinsic).rewarded evm msg info.stampTotalGas).world.db =
      supply st.world.db - ((info.otaBalance % msg.price : ℕ) : ℤ) := by
  have hcontent : t.world.db.content = Accounts.setBytes st.world.db.content otaImageStorageAddr
      (imageKey info.toRingSignInfo) (beBytes info.otaBalance) := by
    rw [ht, content_stamped, st.content_withAccount]
  have hwf : t.world.db.WF := by
    rw [ht]
    exact ((advances_stamped st msg hfetch himage).leads hw).1
  have hcode : Codeless t.world.db addr := by
    refine haddr.imp_left fun h => ?_
    rw [StateDB.getCode_eq] at h ⊢
    rw [hcontent, Accounts.code_setBytes, h]
  have hran : supply (t.ran evm msg intrinsic).world.db = supply t.world.db :=
    run_supply { t with gas := t.gas - intrinsic } hwf hto hcode
  rw [supply_eq, supply_eq t.world.db, hcontent, Accounts.total_setImage himage] at hran
  obtain ⟨-, -, htotal, -⟩ := fetchPrivacyTxInfo_eq_ok hfetch
  rw [supply_eq, content_rewarded, Accounts.total_credit, hran, htotal, supply_eq]
  have hdiv : (info.otaBalance : ℤ) = (info.otaBalance / msg.price * msg.price + info.otaBalance % msg.price : ℕ) := by
    rw [Nat.div_add_mod']
  rw [hdiv]
  push_cast
  ring

/-- **Supply.** A message to an account without code, or to a privacy contract, that is applied without an error keeps
the supply if it is a normal one, also when its call fails. A privacy message lowers it by what its stamp has beyond a
multiple of the gas price. -/
theorem transitionDb_supply (evm : Evm) {msg : Message} (gp : ℕ) {w : World} (hw : w.db.WF) {addr : Address}
    (hto : msg.recipient = some addr) (haddr : Codeless w.db addr) {e : Executed} {st : StateTransition}
    (h : transitionDb evm msg (newStateTransition msg gp w) = .ok e st) :
    (isNormalTransaction msg.txType = true → supply st.world.db = supply w.db) ∧
    (isNormalTransaction msg.txType = false → ∃ info,
      fetchPrivacyTxInfo w.db (addressBytes msg.sender) msg.data msg.price = .ok info ∧
        supply st.world.db = supply w.db - ((info.otaBalance % msg.price : ℕ) : ℤ)) := by
  obtain ⟨total, t, hbegins, hconcluding⟩ := transitionDb_eq_ok h
  have hwf : t.world.db.WF := (hbegins.advances.leads hw).1
  cases hbegins with
  | normal hnormal =>
    refine ⟨fun _ => ?_, fun hprivacy => absurd hnormal (by simp [hprivacy])⟩
    cases hconcluding with
    | privacy hprivacy => exact absurd hnormal (by simp [hprivacy])
    | normal _ _ _ _ ht =>
      refine supply_normal evm _ hwf rfl hto (haddr.imp_left fun h => ?_) ht
      rw [StateDB.getCode_eq] at h ⊢
      rw [content_paid, Accounts.code_credit]
      exact h
  | privacy hprivacy _ hfetch himage =>
    refine ⟨fun hnormal => absurd hnormal (by simp [hprivacy]), fun _ => ⟨_, hfetch, ?_⟩⟩
    cases hconcluding with
    | normal hnormal => exact absurd hnormal (by simp [hprivacy])
    | privacy => exact supply_privacy evm _ hw hto haddr hfetch himage rfl

end Supply

namespace Sample

attribute [local instance] State.Sample.keccak Vm.Sample.crypto

theorem stampWorld_wf : stampWorld.db.WF := by
  have hnew : (StateDB.new (fun _ => none) fun _ => none).WF := .new _ _
  simp only [stampWorld]
  exact (leads_setStateByteArray _ _ _ _ (leads_setStateByteArray _ _ _ _ hnew).1).1

def pricedMessage : Message := { freeMessage with price := 3 * 10 ^ 8 }

/-- What is left of the stamp is lost. -/
theorem pricedMessage_supply : ∃ e st info,
    transitionDb Vm.Sample.evm pricedMessage (newStateTransition pricedMessage (10 ^ 7) stampWorld) = .ok e st ∧
      fetchPrivacyTxInfo stampWorld.db (addressBytes 0x11) pricedMessage.data (3 * 10 ^ 8) = .ok info ∧
      supply st.world.db = supply stampWorld.db - ((info.otaBalance % (3 * 10 ^ 8) : ℕ) : ℤ) := by
  obtain ⟨e, st, hend, -⟩ : ∃ e st, transitionDb Vm.Sample.evm pricedMessage
      (newStateTransition pricedMessage (10 ^ 7) stampWorld) = .ok e st ∧ e.failed = false := by
    decide +kernel
  obtain ⟨info, hfetch, hsupply⟩ := (transitionDb_supply Vm.Sample.evm (10 ^ 7) stampWorld_wf rfl
    (.inl (by decide +kernel)) hend).2 rfl
  exact ⟨e, st, info, hend, hfetch, hsupply⟩

end Sample

end GoWanchain.Core
