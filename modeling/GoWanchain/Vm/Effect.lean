import GoWanchain.Vm.Requests
import GoWanchain.Vm.Totality

/-!
# What a contract does to the accounts

`Effect c readOnly σ l τ` is the abstract meaning of a run: code that runs for the contract `c` takes the
accounts from `σ` to `τ`, and the requests `l` to the privacy contracts were granted and not reverted on the
way, the last one first. There is no gas, no stack and no revert in it: a call that fails has no effect,
except that a failed creation counts the nonce. Code that is run by a delegate call has the caller and the
value of its contract.
-/

namespace GoWanchain.Vm

open State
open StateDB (getCode_eq change_moves getBalance_eq exist)

namespace Accounts

def opened (σ : Accounts) (caller addr : Address) (value : ℕ) : Accounts :=
  if addr ≠ wanCoinPrecompileAddr ∧ addr ≠ wanStampPrecompileAddr then σ.transfer caller addr value else σ

/-- The accounts after the transfer to a new account. -/
def created (σ : Accounts) (caller addr : Address) (value : ℕ) : Accounts :=
  transfer (Function.update σ addr { Content.zero with balance := (σ addr).balance, nonce := 1 }) caller addr value

theorem code_created (σ : Accounts) (caller addr : Address) (value : ℕ) :
    (σ.created caller addr value addr).code = [] := by
  simp [created, transfer, Content.zero]

/-- The balance of `a` goes to the beneficiary. -/
def destruct (σ : Accounts) (a beneficiary : Address) : Accounts :=
  let paid := σ.credit beneficiary (σ a).balance.toNat
  Function.update paid a { paid a with balance := 0 }

/-- The nonce of `a` is counted. -/
def count (σ : Accounts) (a : Address) : Accounts := σ.setNonce a ((σ a).nonce + 1)

end Accounts

/-- The interpreter runs code for the contract. -/
structure Contract.Runs (c : Contract) : Prop where
  precompiled : precompiledContracts c.codeAddr = none
  code : c.code ≠ []

/-! ### The operations of the state -/

variable [Keccak]

variable {w : World} {c : Contract} {r : Result} {ro : Bool} {input : Bytes} {depth gas value : ℕ}
  {E : List Request → Accounts → Prop} {caller addr : Address}

theorem Quiet.content_eq {w' : World} (h : Quiet w w') : w'.db.content = w.db.content :=
  StateDB.content_of_moves h.moves

theorem Quiet.leads {w' : World} (h : Quiet w w') : w.db.Leads w'.db := .moves h.moves

theorem content_openCall (db : StateDB) (caller addr : Address) (value : ℕ) :
    (Evm.openCall caller addr value db).content = Accounts.opened db.content caller addr value := by
  have hexist : (if db.exist addr then db else db.createAccount addr).content = db.content := by
    cases h : db.state.getStateObject addr with
    | some => simp [exist, h]
    | none =>
      have hmissing : db.content addr = .zero := StateDB.content_of_get_none h
      simp only [exist, h, Option.isSome_none, Bool.false_eq_true, if_false]
      rw [StateDB.content_createAccount, Function.update_eq_self_iff, hmissing, Content.zero]
  unfold Evm.openCall Accounts.opened
  simp only
  split
  · rw [content_transfer, hexist]
  · exact hexist

theorem leads_transfer (db : StateDB) (sender recipient : Address) (amount : ℕ) :
    db.Leads (transfer db sender recipient amount) :=
  (StateDB.Leads.moves (StateDB.subBalance_moves _ _ _)).trans (.moves (StateDB.addBalance_moves _ _ _))

theorem leads_openCall (db : StateDB) (caller addr : Address) (value : ℕ) :
    db.Leads (Evm.openCall caller addr value db) := by
  have hexist : db.Leads (if db.exist addr then db else db.createAccount addr) := by
    split
    · exact .refl _
    · exact .moves (StateDB.createAccount_moves db addr)
  unfold Evm.openCall
  simp only
  split
  · exact hexist.trans (leads_transfer _ _ _ _)
  · exact hexist

theorem content_openCreate (db : StateDB) (caller addr : Address) (value : ℕ) :
    (Evm.openCreate caller addr value db).content = Accounts.created db.content caller addr value := by
  rw [Evm.openCreate, content_transfer, StateDB.content_setNonce, StateDB.content_createAccount,
    Function.update_idem, Function.update_self]
  rfl

theorem leads_openCreate (db : StateDB) (caller addr : Address) (value : ℕ) :
    db.Leads (Evm.openCreate caller addr value db) :=
  ((StateDB.Leads.moves (StateDB.createAccount_moves db addr)).trans
    (.moves (change_moves _ _ (.nonceChange 1)))).trans (leads_transfer _ _ _ _)

theorem content_destruct (w : World) (a beneficiary : Address) :
    (w.destruct a beneficiary).db.content = Accounts.destruct w.db.content a beneficiary := by
  show ((w.db.addBalance beneficiary (w.db.getBalance a)).suicide a).1.content = _
  rw [StateDB.content_suicide, StateDB.content_addBalance_toNat, getBalance_eq]
  rfl

theorem leads_destruct (w : World) (a beneficiary : Address) : w.db.Leads (w.destruct a beneficiary).db :=
  (StateDB.Leads.moves (StateDB.addBalance_moves _ _ _)).trans (.moves (StateDB.suicide_moves _ _))

theorem empty_content {db : StateDB} {a : Address} (h : db.empty a = true) :
    (db.content a).balance = 0 ∧ (db.content a).nonce = 0 := by
  cases hget : db.state.getStateObject a with
  | none =>
    rw [StateDB.content_of_get_none hget]
    exact ⟨rfl, rfl⟩
  | some =>
    rw [StateDB.content_of_get hget]
    simp only [StateDB.empty, hget, Option.elim_some, StateObject.empty, Bool.and_eq_true, beq_iff_eq] at h
    exact ⟨h.1.1.1.2, h.1.1.1.1⟩

/-! ### Effects -/

variable [Crypto] {evm : Evm}

inductive Effect : Contract → Bool → Accounts → List Request → Accounts → Prop
  | skip {c : Contract} {ro : Bool} {σ : Accounts} : Effect c ro σ [] σ
  | seq {c : Contract} {ro : Bool} {σ τ υ : Accounts} {l l' : List Request}
    (h : Effect c ro σ l τ) (h' : Effect c ro τ l' υ) : Effect c ro σ (l' ++ l) υ
  | sstore {c : Contract} {σ : Accounts} (hc : c.Runs) (loc val : Hash) : Effect c false σ [] (σ.setWord c.self loc val)
  | destruct {c : Contract} {σ : Accounts} (hc : c.Runs) (beneficiary : Address) :
    Effect c false σ [] (σ.destruct c.self beneficiary)
  | requests {c : Contract} {ro : Bool} {σ τ : Accounts} {l : List Request}
    (hc : precompiledContracts c.codeAddr ≠ none) (h : Requests c σ l τ) : Effect c ro σ l τ
  | call {c : Contract} {ro : Bool} {σ τ : Accounts} {l : List Request} (hc : c.Runs) (addr : Address)
    (value : ℕ) (hvalue : value ≤ (σ c.self).balance) (hro : ro = true → value = 0)
    (h : Effect ⟨c.self, addr, (σ addr).code, addr, value⟩ ro (σ.opened c.self addr value) l τ) : Effect c ro σ l τ
  | callCode {c : Contract} {ro : Bool} {σ τ : Accounts} {l : List Request} (hc : c.Runs) (addr : Address)
    (value : ℕ) (hvalue : value ≤ (σ c.self).balance)
    (h : Effect ⟨c.self, c.self, (σ addr).code, addr, value⟩ ro σ l τ) : Effect c ro σ l τ
  | delegateCall {c : Contract} {ro : Bool} {σ τ : Accounts} {l : List Request} (hc : c.Runs)
    (addr : Address) (h : Effect ⟨c.callerAddress, c.self, (σ addr).code, addr, c.value⟩ ro σ l τ) : Effect c ro σ l τ
  | staticCall {c : Contract} {ro : Bool} {σ τ : Accounts} {l : List Request} (hc : c.Runs)
    (addr : Address) (h : Effect ⟨c.self, addr, (σ addr).code, addr, 0⟩ true σ l τ) : Effect c ro σ l τ
  | count {c : Contract} {σ : Accounts} (hc : c.Runs) : Effect c false σ [] (σ.count c.self)
  | create {c : Contract} {σ τ : Accounts} {l : List Request} (hc : c.Runs) (code ret : Bytes) (value : ℕ)
    (hvalue : value ≤ (σ c.self).balance) {addr : Address}
    (haddr : addr = createAddress c.self (σ c.self).nonce)
    (hempty : (σ.count c.self addr).balance = 0 ∧ (σ.count c.self addr).nonce = 0)
    (h : Effect ⟨c.self, addr, code, addr, value⟩ false ((σ.count c.self).created c.self addr value) l τ) :
    Effect c false σ l (τ.setCode addr ret)

/-! ### Results -/

/-- What is known of a run for the contract `c` from the world `w`. -/
structure Ran (c : Contract) (ro : Bool) (w : World) (r : Result) : Prop where
  leads : w.db.Leads r.world.db
  effect : r.err = none → ∃ l, r.world.accepted = l ++ w.accepted ∧ Effect c ro w.db.content l r.world.db.content

theorem runPrecompiledContract_ran {p : PrecompiledContract}
    (hp : precompiledContracts c.codeAddr = some p) (ro : Bool) (input : Bytes) (gas : ℕ) (w : World) :
    Ran c ro w (runPrecompiledContract p input c gas w) := by
  have hleads : w.db.Leads (p.run input c w).1.db := PrecompiledContract.run_writes.leads
  unfold runPrecompiledContract
  split
  · split
    · rename_i w' ret hrun
      rw [hrun] at hleads
      obtain ⟨l, hrequests, haccepted⟩ := PrecompiledContract.run_requests hrun
      exact ⟨hleads, fun _ => ⟨l, haccepted, .requests (by simp [hp]) hrequests⟩⟩
    · rename_i w' err hrun
      rw [hrun] at hleads
      exact ⟨hleads, fun h => by cases h⟩
  · exact ⟨.refl _, fun h => by cases h⟩

omit [Crypto] in
theorem revert_spec (hw : w.db.WF) (h : w.db.snapshot.Leads r.world.db) :
    w.db.Leads (r.world.revert w).db ∧ (r.world.revert w).db.content = w.db.content := by
  obtain ⟨s, hs, hleads, hview⟩ := h.revert hw
  simp only [World.revert, hs, Option.getD_some]
  exact ⟨hleads, StateDB.content_eq_of_view hview⟩

/-- What is known of the result of a call from the world `w`: it has the effect `E`, or none. -/
structure Settled (E : List Request → Accounts → Prop) (w : World) (r : Result) : Prop where
  leads : w.db.Leads r.world.db
  effect : ∃ l, r.world.accepted = l ++ w.accepted ∧
    (l = [] ∧ r.world.db.content = w.db.content ∨ E l r.world.db.content)

theorem settleCall_settled {w₁ : World} (h : Ran c ro w₁ r)
    (hw : w.db.WF) (hleads : w.db.snapshot.Leads w₁.db) (haccepted : w₁.accepted = w.accepted) :
    Settled (Effect c ro w₁.db.content) w (settleCall w r) := by
  have hr := hleads.trans h.leads
  unfold settleCall
  split
  · rename_i herr
    obtain ⟨l, hl, heffect⟩ := h.effect herr
    exact ⟨(StateDB.Leads.snapshot _).trans hr, l, haccepted ▸ hl, .inr heffect⟩
  · obtain ⟨hback, hcontent⟩ := revert_spec hw hr
    exact ⟨hback, [], rfl, .inl ⟨rfl, hcontent⟩⟩

omit [Crypto] in
theorem settleCreate_cases (before : World) (addr : Address) (r : Result) :
    (r.err = none ∧ ∃ gas, Evm.settleCreate before addr r =
      { r with gas, world := r.world.onDB (·.setCode addr r.ret) }) ∨
    ∃ gas err, Evm.settleCreate before addr r = ⟨r.ret, gas, some err, r.world.revert before⟩ := by
  unfold Evm.settleCreate
  by_cases hsize : r.ret.length > maxCodeSize
  · simp [hsize]
  cases herr : r.err with
  | some => simp [hsize, herr]
  | none =>
    by_cases hgas : r.ret.length * createDataGas ≤ r.gas <;> simp [hsize, hgas]

theorem settleCreate_settled {w₁ : World} (h : Ran c false w₁ r)
    (hw : w.db.WF) (hleads : w.db.snapshot.Leads w₁.db) (haccepted : w₁.accepted = w.accepted)
    (addr : Address) : Settled (fun l υ => ∃ τ ret, Effect c false w₁.db.content l τ ∧ υ = τ.setCode addr ret) w
      (Evm.settleCreate w addr r) := by
  have hr := hleads.trans h.leads
  rcases settleCreate_cases w addr r with ⟨herr, gas, hres⟩ | ⟨gas, err, hres⟩
  · obtain ⟨l, hl, heffect⟩ := h.effect herr
    rw [hres]
    refine ⟨((StateDB.Leads.snapshot _).trans hr).trans (.moves (change_moves _ _
      (.codeChange _ _))), l, haccepted ▸ hl, .inr ⟨_, r.ret, heffect, ?_⟩⟩
    exact StateDB.content_setCode _ _ _
  · obtain ⟨hback, hcontent⟩ := revert_spec hw hr
    rw [hres]
    exact ⟨hback, [], rfl, .inl ⟨rfl, hcontent⟩⟩

/-! ### Runs -/

/-- Frames that end within `n` rounds have their effect. -/
def Runs (evm : Evm) (n : ℕ) : Prop := ∀ f r, evm.loop n f = some r → f.world.db.WF →
  f.scope.contract.Runs → Ran f.scope.contract f.scope.readOnly f.world r

variable {n : ℕ}

theorem enter_ran (hrun : Runs evm n) {settle : Result → Result} (hw : w.db.WF)
    (h : evm.finish n (enter c input ro depth gas w settle) = some r) : ∃ r₀, r = settle r₀ ∧ Ran c ro w r₀ := by
  unfold enter at h
  split at h
  · rename_i p hp
    cases h
    exact ⟨_, rfl, runPrecompiledContract_ran hp _ _ _ _⟩
  rename_i hp
  split at h
  · cases h
    exact ⟨_, rfl, .refl _, fun _ => ⟨[], rfl, .skip⟩⟩
  · rename_i hcode
    obtain ⟨r₀, hr₀, rfl⟩ := Option.map_eq_some_iff.mp h
    exact ⟨r₀, rfl, hrun _ _ hr₀ hw ⟨hp, hcode⟩⟩

omit [Crypto] in
theorem settled_of_eq (h : r.world = w) : Settled E w r :=
  ⟨h ▸ .refl _, [], by simp [h], .inl ⟨rfl, by rw [h]⟩⟩

theorem checkCall_settled {k : Entry} (h : evm.finish n (evm.checkCall depth gas w k) = some r)
    (hk : evm.finish n k = some r → Settled E w r) : Settled E w r := by
  unfold Evm.checkCall at h
  split_ifs at h
  · cases h
    exact settled_of_eq rfl
  · cases h
    exact settled_of_eq rfl
  · exact hk h

theorem checkTransfer_settled {k : Entry} (h : evm.finish n (Evm.checkTransfer caller gas value w k) = some r)
    (hk : value ≤ (w.db.content caller).balance → evm.finish n k = some r → Settled E w r) : Settled E w r := by
  unfold Evm.checkTransfer at h
  split_ifs at h with hcan
  · refine hk ?_ h
    rw [← getBalance_eq]
    simpa [canTransfer] using hcan
  · cases h
    exact settled_of_eq rfl

theorem enter_settled (hrun : Runs evm n) {db : StateDB} (hw : w.db.WF) (hdb : w.db.snapshot.Leads db)
    (h : evm.finish n (enter c input ro depth gas { w with db } (settleCall w)) = some r) :
    Settled (Effect c ro db.content) w r := by
  obtain ⟨r₀, rfl, hran⟩ := enter_ran hrun (hdb hw.snapshot).1 h
  exact settleCall_settled hran hw hdb rfl

omit [Crypto] in
theorem content_snapshot (db : StateDB) : db.snapshot.content = db.content := rfl

theorem call_settled (hrun : Runs evm n) (hw : w.db.WF)
    (h : evm.finish n (evm.call depth ro caller addr input gas value w) = some r) :
    Settled (fun l τ => value ≤ (w.db.content caller).balance ∧
      Effect ⟨caller, addr, (w.db.content addr).code, addr, value⟩ ro
        (Accounts.opened w.db.content caller addr value) l τ) w r := by
  refine checkCall_settled h fun h => checkTransfer_settled h fun hvalue h => ?_
  simp only at h
  split at h
  · cases h
    exact ⟨.snapshot _, [], rfl, .inl ⟨rfl, rfl⟩⟩
  · have hcode : (Evm.openCall caller addr value w.db.snapshot).getCode addr = (w.db.content addr).code := by
      rw [getCode_eq, content_openCall, content_snapshot, Accounts.opened]
      split
      · simp [Accounts.transfer]
      · rfl
    have hsettled := enter_settled hrun hw (leads_openCall _ _ _ _) h
    rw [hcode, content_openCall] at hsettled
    obtain ⟨hleads, l, hl, heffect⟩ := hsettled
    exact ⟨hleads, l, hl, heffect.imp_right fun he => ⟨hvalue, he⟩⟩

theorem callCode_settled (hrun : Runs evm n) (hw : w.db.WF)
    (h : evm.finish n (evm.callCode depth ro caller addr input gas value w) = some r) :
    Settled (fun l τ => value ≤ (w.db.content caller).balance ∧
      Effect ⟨caller, caller, (w.db.content addr).code, addr, value⟩ ro w.db.content l τ) w r := by
  refine checkCall_settled h fun h => checkTransfer_settled h fun hvalue h => ?_
  obtain ⟨hleads, l, hl, heffect⟩ := enter_settled hrun hw (.refl _) h
  rw [getCode_eq] at heffect
  exact ⟨hleads, l, hl, heffect.imp_right fun he => ⟨hvalue, he⟩⟩

theorem delegateCall_settled (hrun : Runs evm n) {parent : Contract} (hw : w.db.WF)
    (h : evm.finish n (evm.delegateCall depth ro parent addr input gas w) = some r) :
    Settled (Effect ⟨parent.callerAddress, parent.self, (w.db.content addr).code, addr, parent.value⟩ ro
      w.db.content) w r := by
  refine checkCall_settled h fun h => ?_
  have hsettled := enter_settled hrun hw (.refl _) h
  rwa [getCode_eq] at hsettled

theorem staticCall_settled (hrun : Runs evm n) (hw : w.db.WF)
    (h : evm.finish n (evm.staticCall depth caller addr input gas w) = some r) :
    Settled (Effect ⟨caller, addr, (w.db.content addr).code, addr, 0⟩ true w.db.content) w r := by
  refine checkCall_settled h fun h => ?_
  have hsettled := enter_settled hrun hw (.refl _) h
  rwa [getCode_eq] at hsettled

/-- The effect of a creation. -/
def Creates (caller : Address) (value : ℕ) (σ : Accounts) (l : List Request) (υ : Accounts) : Prop :=
  υ = σ.count caller ∧ l = [] ∨ value ≤ (σ caller).balance ∧
    ∃ addr code ret τ, addr = createAddress caller (σ caller).nonce ∧
      ((σ.count caller addr).balance = 0 ∧ (σ.count caller addr).nonce = 0) ∧
      Effect ⟨caller, addr, code, addr, value⟩ false ((σ.count caller).created caller addr value) l τ ∧
      υ = τ.setCode addr ret

theorem create_settled (hrun : Runs evm n) {code : Bytes} (hw : w.db.WF)
    (h : evm.finish n (evm.create depth false caller code gas value w) = some r) :
    Settled (Creates caller value w.db.content) w r := by
  unfold Evm.create at h
  split at h
  · cases h
    exact settled_of_eq rfl
  refine checkTransfer_settled h fun hvalue h => ?_
  simp only [StateDB.getNonce_eq] at h
  generalize haddr : createAddress caller (w.db.content caller).nonce = addr at h
  -- counting the nonce is not reverted
  have hcount : w.db.Leads (w.db.setNonce caller ((w.db.content caller).nonce + 1)) :=
    .moves (change_moves _ _ (.nonceChange _))
  have hcontent : (w.db.setNonce caller ((w.db.content caller).nonce + 1)).content =
      Accounts.count w.db.content caller := StateDB.content_setNonce _ _ _
  generalize hcounted : w.db.setNonce caller ((w.db.content caller).nonce + 1) = counted at hcount hcontent
  simp only [World.onDB, hcounted] at h
  have hcounted : counted.WF := (hcount hw).1
  split at h
  · cases h
    exact ⟨hcount, [], rfl, .inr (.inl ⟨hcontent, rfl⟩)⟩
  rename_i hempty
  have hempty := empty_content (by simpa using hempty)
  rw [hcontent] at hempty
  have hopen := leads_openCreate counted.snapshot caller addr value
  have hopened : (Evm.openCreate caller addr value counted.snapshot).content =
      (Accounts.count w.db.content caller).created caller addr value := by
    rw [content_openCreate, content_snapshot, hcontent]
  split at h
  · cases h
    refine ⟨(hcount.trans (.snapshot _)).trans hopen, [], rfl, .inr (.inr ⟨hvalue, addr, [], [], _,
      haddr.symm, hempty, .skip, ?_⟩)⟩
    show (Evm.openCreate caller addr value counted.snapshot).content = _
    rw [hopened, Accounts.setCode, eq_comm, Function.update_eq_self_iff]
    exact Content.ext rfl rfl (Accounts.code_created _ _ _ _).symm rfl rfl
  · obtain ⟨r₀, rfl, hran⟩ := enter_ran hrun (hopen hcounted.snapshot).1 h
    obtain ⟨hleads, l, hl, heffect⟩ :=
      settleCreate_settled (w := { w with db := counted }) hran hcounted hopen rfl addr
    refine ⟨hcount.trans hleads, l, hl, .inr ?_⟩
    rcases heffect with ⟨rfl, hsame⟩ | ⟨τ, ret, heffect, hτ⟩
    · exact .inl ⟨hsame.trans hcontent, rfl⟩
    · refine .inr ⟨hvalue, addr, code, ret, τ, haddr.symm, hempty, ?_, hτ⟩
      rw [← hopened]
      exact heffect

theorem finish_enter {settle : Result → Result} (h : evm.finish n (enter c input ro depth gas w settle) = some r) :
    ∃ r₀, r = settle r₀ := by
  unfold enter at h
  split at h
  · cases h
    exact ⟨_, rfl⟩
  split at h
  · cases h
    exact ⟨_, rfl⟩
  · obtain ⟨r₀, -, rfl⟩ := Option.map_eq_some_iff.mp h
    exact ⟨r₀, rfl⟩

theorem create_code {code : Bytes}
    (h : evm.finish n (evm.create depth ro caller code gas value w) = some r) (herr : r.err = none) :
    r.world.db.getCode (createAddress caller (w.db.getNonce caller)) = r.ret := by
  unfold Evm.create Evm.checkTransfer at h
  simp only at h
  split_ifs at h with hdepth hcan hempty hrecursion
  · cases h
    cases herr
  · cases h
    cases herr
  · cases h
    rw [getCode_eq]
    show ((Evm.openCreate _ _ _ _).content _).code = []
    rw [content_openCreate, Accounts.code_created]
  · obtain ⟨r₀, rfl⟩ := finish_enter h
    rcases settleCreate_cases _ _ r₀ with ⟨-, gas', hres⟩ | ⟨gas', err, hres⟩
    · rw [hres, getCode_eq]
      show ((StateDB.setCode _ _ _).content _).code = _
      rw [StateDB.content_setCode, Function.update_self]
    · rw [hres] at herr
      cases herr
  · cases h
    cases herr

theorem Call.done (hrun : Runs evm n) {s : Scope} {entry : Entry}
    (hcall : Call evm s w gas entry) (hs : s.contract.Runs) (hw : w.db.WF)
    (h : evm.finish n entry = some r) : w.db.Leads r.world.db ∧ ∃ l, r.world.accepted = l ++ w.accepted ∧
      Effect s.contract s.readOnly w.db.content l r.world.db.content := by
  have hdone {E : List Request → Accounts → Prop} (hsettled : Settled E w r)
      (hE : ∀ l τ, E l τ → Effect s.contract s.readOnly w.db.content l τ) :
      w.db.Leads r.world.db ∧ ∃ l, r.world.accepted = l ++ w.accepted ∧
        Effect s.contract s.readOnly w.db.content l r.world.db.content := by
    obtain ⟨hleads, l, hl, ⟨rfl, hsame⟩ | heffect⟩ := hsettled
    · exact ⟨hleads, [], hl, hsame ▸ .skip⟩
    · exact ⟨hleads, l, hl, hE l _ heffect⟩
  cases hcall with
  | call addr _ _ value hro =>
    exact hdone (call_settled hrun hw h) fun l τ he => .call hs addr value he.1 hro he.2
  | callCode addr _ _ value =>
    exact hdone (callCode_settled hrun hw h) fun l τ he => .callCode hs addr value he.1 he.2
  | delegateCall addr =>
    exact hdone (delegateCall_settled hrun hw h) fun l τ he => .delegateCall hs addr he
  | staticCall addr =>
    exact hdone (staticCall_settled hrun hw h) fun l τ he => .staticCall hs addr he
  | create code _ value hro =>
    rw [hro] at h hdone ⊢
    refine hdone (create_settled hrun hw h) ?_
    rintro l υ (⟨rfl, rfl⟩ | ⟨hvalue, addr, code, ret, τ, haddr, hempty, heffect, rfl⟩)
    · exact .count hs
    · exact .create hs code ret value hvalue haddr hempty heffect

/-- A frame that ends without an error has an effect. -/
theorem loop_ran (evm : Evm) (n : ℕ) : Runs evm n := by
  induction n with
  | zero =>
    intro f r h
    cases h
  | succ n ih =>
    intro f r h hw hs
    -- an effect, and then the rest of the run
    have hgoes {f' : Frame} (hscope : f'.scope = f.scope) (hleads : f.world.db.Leads f'.world.db)
        (heffect : ∃ l, f'.world.accepted = l ++ f.world.accepted ∧
          Effect f.scope.contract f.scope.readOnly f.world.db.content l f'.world.db.content)
        (h : evm.loop n f' = some r) : Ran f.scope.contract f.scope.readOnly f.world r := by
      obtain ⟨hrest, hend⟩ := ih f' r h (hleads hw).1 (hscope ▸ hs)
      refine ⟨hleads.trans hrest, fun herr => ?_⟩
      obtain ⟨l, hl, he⟩ := heffect
      obtain ⟨l', hl', he'⟩ := hend herr
      rw [hscope] at he'
      exact ⟨l' ++ l, by rw [hl', hl, List.append_assoc], he.seq he'⟩
    have hround := step_round evm f
    rw [Evm.loop_succ] at h
    generalize evm.step f = outcome at hround h
    cases hround with
    | halt _ hworld =>
      cases h
      exact ⟨hworld.leads, fun _ => ⟨[], hworld.accepted, hworld.content_eq ▸ .skip⟩⟩
    | @destruct r' w hro hgas hworld beneficiary hr =>
      cases h
      refine ⟨hr ▸ hworld.leads.trans (leads_destruct _ _ _), fun _ => ⟨[], ?_, ?_⟩⟩
      · rw [hr]
        exact hworld.accepted
      · rw [hr, content_destruct, hworld.content_eq, hro]
        exact .destruct hs beneficiary
    | next hscope _ hworld =>
      exact hgoes hscope hworld.leads ⟨[], hworld.accepted, hworld.content_eq ▸ .skip⟩ h
    | @sstore f' w hro hscope hgas hworld loc val hf =>
      refine hgoes hscope ?_ ⟨[], ?_, ?_⟩ h
      · rw [hf]
        exact hworld.leads.trans (.moves (change_moves _ _ (.storageChange loc val)))
      · rw [hf]
        exact hworld.accepted
      · rw [hf, World.onDB, StateDB.content_setState, hworld.content_eq, hro]
        exact .sstore hs loc val
    | spawn hcall _ hscope hworld =>
      obtain ⟨r₁, hr₁, h⟩ := Option.bind_eq_some_iff.mp h
      obtain ⟨hleads, l, hl, heffect⟩ := hcall.done ih hs hw hr₁
      refine hgoes (hscope r₁) ?_ ⟨l, ?_, ?_⟩ h <;> rw [hworld r₁]
      · exact hleads
      · exact hl
      · exact heffect

end GoWanchain.Vm
