import GoWanchain.Vm.Static

/-!
# What a call costs its caller

A call of an account without code moves the value it names, and code that runs for others cannot spend the
account's balance: the only debits are transfers of the running contract, and the purchases of the privacy
contracts, which debit the caller of the contract they run for. So a contract that is called with a value
for which a note or a stamp is sold can buy one at the expense of its caller, who has paid the value
already; with any other value it cannot.
-/

namespace GoWanchain.Vm

open State

namespace Accounts

variable (σ : Accounts) (a b : Address)

@[simp] theorem balance_setWord (loc val : Hash) : (σ.setWord a loc val b).balance = (σ b).balance := by
  by_cases h : b = a <;> simp [setWord, h]

@[simp] theorem balance_setCode (code : Bytes) : (σ.setCode a code b).balance = (σ b).balance := by
  by_cases h : b = a <;> simp [setCode, h]

@[simp] theorem balance_count : (σ.count a b).balance = (σ b).balance := by
  by_cases h : b = a <;> simp [count, setNonce, h]

@[simp] theorem code_setWord (loc val : Hash) : (σ.setWord a loc val b).code = (σ b).code := by
  by_cases h : b = a <;> simp [setWord, h]

@[simp] theorem code_count : (σ.count a b).code = (σ b).code := by
  by_cases h : b = a <;> simp [count, setNonce, h]

@[simp] theorem code_opened (value : ℕ) (c : Address) : (σ.opened a b value c).code = (σ c).code := by
  unfold opened
  split <;> simp [transfer]

theorem balance_destruct (beneficiary : Address) : (σ.destruct a beneficiary b).balance =
    if b = a then 0 else (σ b).balance + if b = beneficiary then (σ a).balance.toNat else 0 := by
  by_cases h : b = a
  · simp [destruct, h]
  · simp [destruct, h, balance_credit]

@[simp] theorem code_destruct (beneficiary : Address) : (σ.destruct a beneficiary b).code = (σ b).code := by
  by_cases h : b = a <;> simp [destruct, h]

theorem le_balance_transfer (recipient : Address) (value : ℕ) :
    (σ b).balance - (if b = a then value else 0) ≤ (σ.transfer a recipient value b).balance := by
  rw [transfer, balance_credit, balance_credit]
  split_ifs <;> omega

theorem le_balance_opened (addr : Address) (value : ℕ) :
    (σ b).balance - (if b = a then value else 0) ≤ (σ.opened a addr value b).balance := by
  rw [opened]
  by_cases hopen : addr ≠ wanCoinPrecompileAddr ∧ addr ≠ wanStampPrecompileAddr
  · rw [if_pos hopen]
    exact le_balance_transfer σ a b addr value
  · rw [if_neg hopen]
    split_ifs <;> omega

theorem le_balance_created (addr : Address) (value : ℕ) :
    (σ b).balance - (if b = a then value else 0) ≤ (σ.created a addr value b).balance := by
  have hnew : (Function.update σ addr
      { Content.zero with balance := (σ addr).balance, nonce := 1 } b).balance = (σ b).balance := by
    by_cases h : b = addr <;> simp [h]
  rw [← hnew]
  exact le_balance_transfer _ a b addr value

end Accounts

section

variable [Keccak] [Crypto] {c : Contract} {ro : Bool} {σ τ : Accounts} {l : List Request}

omit [Keccak] [Crypto] in
theorem Buy.balance_eq {payer : Address} {wanAddr : Bytes} {value : ℕ} (h : Buy payer wanAddr value σ τ)
    (a : Address) : (τ a).balance = (σ a).balance + if a = payer then -(value : ℤ) else 0 := by
  rw [h.after, Accounts.balance_credit, Accounts.balance_setBytes, Accounts.balance_setBytes]

theorem Refund.le_balance {payee : Address} {info : RingSignInfo} (h : Refund payee info σ τ)
    (a : Address) : (σ a).balance ≤ (τ a).balance := by
  rw [h.after, Accounts.balance_credit, Accounts.balance_setBytes]
  split_ifs <;> omega

theorem Effect.nonneg (h : Effect c ro σ l τ) {a : Address} (ha : 0 ≤ (σ a).balance) : 0 ≤ (τ a).balance := by
  induction h with
  | skip => exact ha
  | seq _ _ ih ih' => exact ih' (ih ha)
  | sstore | count => simpa using ha
  | destruct =>
    rw [Accounts.balance_destruct]
    split_ifs <;> omega
  | requests _ h =>
    cases h with
    | none => exact ha
    | buy h =>
      rw [h.balance_eq a]
      have hfunds := h.funds
      split_ifs with heq
      · subst heq
        omega
      · omega
    | refund h => exact ha.trans (h.le_balance a)
  | @call c ro σ τ l hc addr value hvalue hro h ih =>
    refine ih ?_
    have hle := σ.le_balance_opened c.self a addr value
    split_ifs at hle with heq
    · subst heq
      omega
    · omega
  | callCode _ _ _ _ _ ih | delegateCall _ _ _ ih | staticCall _ _ _ ih => exact ih ha
  | @create c σ τ l hc code ret value hvalue addr haddr hempty h ih =>
    rw [Accounts.balance_setCode]
    refine ih ?_
    have hle := (σ.count c.self).le_balance_created c.self a addr value
    rw [Accounts.balance_count] at hle
    split_ifs at hle with heq
    · subst heq
      omega
    · omega

/-- Code that runs for `c` cannot spend the balance of `a`, unless with a purchase for `value`. -/
structure Harmless (a : Address) (value : ℕ) (c : Contract) : Prop where
  self : c.Runs → c.self ≠ a
  value : c.callerAddress = a → c.value = value

omit [Keccak] [Crypto] in
theorem Harmless.call {a addr caller : Address} {value v : ℕ} {code : Bytes} (hcaller : caller ≠ a)
    (hcode : addr = a → code = []) : Harmless a value ⟨caller, addr, code, addr, v⟩ where
  self hruns haddr := hruns.code (hcode haddr)
  value heq := absurd heq hcaller

theorem Effect.saves (h : Effect c ro σ l τ) {a : Address} {value : ℕ} {K : ℤ} (hK : 0 < K)
    (hvalue : value ∉ stampValueSet ++ wanCoinValueSet) (hc : Harmless a value c)
    (hcode : (σ a).code = []) (hbalance : K ≤ (σ a).balance) : (τ a).code = [] ∧ K ≤ (τ a).balance := by
  induction h with
  | skip => exact ⟨hcode, hbalance⟩
  | seq _ _ ih ih' =>
    obtain ⟨hcode, hbalance⟩ := ih hc hcode hbalance
    exact ih' hc hcode hbalance
  | sstore | count => simpa using ⟨hcode, hbalance⟩
  | destruct hruns =>
    refine ⟨by simpa using hcode, ?_⟩
    rw [Accounts.balance_destruct, if_neg (hc.self hruns).symm]
    split_ifs <;> omega
  | requests _ h =>
    cases h with
    | none => exact ⟨hcode, hbalance⟩
    | @buy wanAddr τ h =>
      refine ⟨by simpa [h.after] using hcode, ?_⟩
      rw [h.balance_eq a]
      split_ifs with heq
      · -- the value of a purchase is one that is sold
        have hmem := h.value_mem
        rw [hc.value heq.symm] at hmem
        exact absurd (List.mem_append.mpr hmem) hvalue
      · omega
    | refund h => exact ⟨by simpa [h.after] using hcode, hbalance.trans (h.le_balance a)⟩
  | @call c ro σ τ l hruns addr v hv hro h ih =>
    have hself := hc.self hruns
    refine ih (.call hself fun heq => heq ▸ hcode) (by simpa using hcode) ?_
    have hle := σ.le_balance_opened c.self a addr v
    rw [if_neg hself.symm] at hle
    omega
  | callCode hruns _ _ _ _ ih =>
    exact ih ⟨fun _ => hc.self hruns, fun heq => absurd heq (hc.self hruns)⟩ hcode hbalance
  | delegateCall hruns _ _ ih =>
    exact ih ⟨fun _ => hc.self hruns, fun heq => hc.value heq⟩ hcode hbalance
  | staticCall hruns _ _ ih =>
    exact ih (.call (hc.self hruns) fun heq => heq ▸ hcode) hcode hbalance
  | @create c σ τ l hruns code ret v hv addr haddr hempty h ih =>
    have hself := hc.self hruns
    -- an account with a balance is not empty, so nothing is created at `a`
    have hne : addr ≠ a := by
      rintro rfl
      rw [Accounts.balance_count] at hempty
      omega
    have hstart := ih (.call hself fun heq => absurd heq hne) ?_ ?_
    · rw [Accounts.balance_setCode]
      refine ⟨?_, hstart.2⟩
      rw [Accounts.setCode, Function.update_of_ne hne.symm]
      exact hstart.1
    · simpa [Accounts.created, Accounts.transfer, hne.symm] using hcode
    · have hle := (σ.count c.self).le_balance_created c.self a addr v
      rw [if_neg hself.symm, Accounts.balance_count] at hle
      omega

theorem call_costs_value (evm : Evm) {w : World} (hw : w.db.WF) {a : Address} (callee : Address)
    (input : Bytes) (gas : ℕ) {value : ℕ} (hcode : w.db.getCode a = [])
    (hvalue : value ∉ stampValueSet ++ wanCoinValueSet) :
    w.db.getBalance a - value ≤ (evm.result gas (evm.call 0 false a callee input gas value w)
      (within_call ..)).world.db.getBalance a := by
  have hfinish := evm.finish_result (within_call evm 0 false a callee input gas value w)
  obtain ⟨-, l, -, heffect⟩ := call_settled (loop_ran evm _) hw hfinish
  rw [StateDB.getCode_eq] at hcode
  rw [StateDB.getBalance_eq, StateDB.getBalance_eq]
  rcases heffect with ⟨-, hsame⟩ | ⟨hfunds, heffect⟩
  · rw [hsame]
    omega
  have hstart := Accounts.le_balance_opened w.db.content a a callee value
  rw [if_pos rfl] at hstart
  by_cases hK : 0 < (w.db.content a).balance - value
  · refine (heffect.saves hK hvalue ⟨fun hruns heq => hruns.code ?_, fun _ => rfl⟩ ?_ hstart).2
    · exact (congrArg (fun b => (w.db.content b).code) heq).trans hcode
    · simpa using hcode
  · exact (not_lt.mp hK).trans (heffect.nonneg (by omega))

end

namespace Sample

attribute [local instance] State.Sample.keccak Sample.crypto

/-- Code that hands its input on to the contract `dst` by a delegate call. -/
def forwarder (dst : UInt8) : Bytes :=
  [0x36, 0x60, 0, 0x60, 0, 0x37, 0x60, 0, 0x60, 0, 0x36, 0x60, 0, 0x60, dst, 0x5a, 0xf4, 0x00]

def forwarderWorld (dst : UInt8) (value : ℕ) : World where
  db := ((StateDB.new (fun _ => none) fun _ => none).setCode 0x22 (forwarder dst)).setBalance 0x11 (2 * value)
  accepted := []

theorem forwarderWorld_wf (dst : UInt8) (value : ℕ) : (forwarderWorld dst value).db.WF := by
  have hnew : (StateDB.new (fun _ => none) fun _ => none).WF := .new _ _
  have hcode := (StateDB.Leads.moves (StateDB.change_moves _ 0x22
    (.codeChange (some (forwarder dst)) (keccak256 (forwarder dst)))) hnew).1
  exact (StateDB.Leads.moves (StateDB.change_moves _ 0x11 (.balanceChange (2 * value))) hcode).1

def forwarderEntry (dst : UInt8) (id : Bytes) (value : ℕ) : Entry :=
  evm.call 0 false 0x11 0x22 (packStringUint id (encodeHex wanAddr) value) 100000 value (forwarderWorld dst value)

theorem forwarder_stamp : ∀ value ∈ stampValueSet,
    (evm.result 100000 (forwarderEntry 200 stBuyId value) (within_call ..)).world.db.getBalance 0x11 = 0 := by
  decide +kernel

theorem forwarder_coin : ∀ value ∈ wanCoinValueSet,
    (evm.result 100000 (forwarderEntry 100 buyIdArr value) (within_call ..)).world.db.getBalance 0x11 = 0 := by
  decide +kernel

theorem forwarder_drains {value : ℕ} (h : value ∈ stampValueSet ++ wanCoinValueSet) : ∃ dst id,
    (evm.result 100000 (forwarderEntry dst id value) (within_call ..)).world.db.getBalance 0x11 = 0 := by
  rcases List.mem_append.mp h with h | h
  · exact ⟨200, stBuyId, forwarder_stamp value h⟩
  · exact ⟨100, buyIdArr, forwarder_coin value h⟩

theorem getCode_forwarderWorld (dst : UInt8) (value : ℕ) : (forwarderWorld dst value).db.getCode 0x11 = [] := by
  rw [StateDB.getCode_eq]
  simp only [forwarderWorld, StateDB.content_setBalance, StateDB.content_setCode, Function.update_self]
  rfl

theorem getBalance_forwarderWorld (dst : UInt8) (value : ℕ) :
    (forwarderWorld dst value).db.getBalance 0x11 = 2 * value := by
  rw [StateDB.getBalance_eq]
  simp only [forwarderWorld, StateDB.content_setBalance, Function.update_self]

end Sample

end GoWanchain.Vm
