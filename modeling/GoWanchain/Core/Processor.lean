import GoWanchain.Core.Outcome
import GoWanchain.Types.Header

/-!
# Transactions of a block

`core/state_processor.go`, with `NewEVMContext` of `core/evm.go` and the receipts and blooms of
`core/types`.

The receipt of a transaction that creates a contract computes the address of the contract again, from the
nonce of the transaction. The nonce of a normal transaction is that of its sender; that of a privacy
transaction is not checked (`contractAddress_iff`).
-/

namespace GoWanchain.Core

open State Vm Types
open Action (check_bind get_bind modify_bind lift_bind)

/-! ### Receipts -/

inductive ReceiptStatus where
  | failed
  | successful
deriving DecidableEq

structure Receipt where
  postState : Bytes
  status : ReceiptStatus
  cumulativeGasUsed : ℕ
  bloom : BitVec 2048
  logs : List Log
  txHash : Hash
  contractAddress : Address
  gasUsed : ℕ
deriving DecidableEq

/-- What `NewEVMContext` asks the chain for: `Author` of the engine and `GetHashFn`. -/
structure ChainContext where
  author : Header → Address
  getHash : Header → ℕ → Hash

def newEVMContext (msg : Message) (header : Header) (chain : ChainContext) (author : Option Address) : Vm.Context where
  getHash := chain.getHash header
  origin := msg.sender
  gasPrice := msg.price
  coinbase := author.getD (chain.author header)
  gasLimit := header.gasLimit.toNat
  blockNumber := header.number.toNat
  time := header.time.toNat
  difficulty := header.difficulty.toNat

structure Environment where
  signer : Signer
  chain : ChainContext
  author : Option Address
  header : Header
  config : Vm.Config

def Environment.evm (env : Environment) (msg : Message) : Evm :=
  ⟨newEVMContext msg env.header env.chain env.author, env.config⟩

structure Processing where
  gp : ℕ
  usedGas : ℕ
  world : World

abbrev Process := EStateM CoreError Processing

section Process

variable [Keccak]

/-- The three bits of a bloom. -/
def bloom9 (b : Bytes) : BitVec 2048 :=
  let h := bePadded 32 (keccak256 b).toNat
  [0, 2, 4].foldl (fun r i => r ||| 1#2048 <<< (beNat ((h.drop i).take 2) % 2048)) 0

def logsBloom (logs : List Log) : BitVec 2048 :=
  logs.foldl (fun bin log => log.topics.foldl (fun bin topic => bin ||| bloom9 (bePadded 32 topic.toNat))
    (bin ||| bloom9 (addressBytes log.address))) 0

variable [Crypto]

def applyMessage (evm : Evm) (msg : Message) : Process Executed := fun p =>
  match transitionDb evm msg (newStateTransition msg p.gp p.world) with
  | .ok executed st => .ok executed { p with gp := st.gp, world := st.world }
  | .error err st => .error err { p with gp := st.gp, world := st.world }

theorem applyMessage_of_ok {evm : Evm} {msg : Message} {p : Processing} {executed : Executed} {st : StateTransition}
    (h : transitionDb evm msg (newStateTransition msg p.gp p.world) = .ok executed st) :
    applyMessage evm msg p = .ok executed { p with gp := st.gp, world := st.world } := by
  rw [applyMessage, h]

theorem applyMessage_of_error {evm : Evm} {msg : Message} {p : Processing} {err : CoreError} {st : StateTransition}
    (h : transitionDb evm msg (newStateTransition msg p.gp p.world) = .error err st) :
    applyMessage evm msg p = .error err { p with gp := st.gp, world := st.world } := by
  rw [applyMessage, h]

def applyTransaction (env : Environment) (tx : Transaction) : Process (Receipt × ℕ) := do
  let msg ← Action.lift fun _ => need (tx.asMessage env.signer) .errInvalidSig
  let vmenv := env.evm msg
  let executed ← applyMessage vmenv msg
  modify fun p => { p with world := p.world.onDB (·.finalise true), usedGas := p.usedGas + executed.usedGas }
  let p ← get
  let logs := p.world.db.getLogs tx.hash
  return ({ postState := []
            status := if executed.failed then .failed else .successful
            cumulativeGasUsed := p.usedGas
            bloom := logsBloom logs
            logs
            txHash := tx.hash
            contractAddress :=
              if msg.recipient = none then createAddress vmenv.context.origin tx.accountNonce else 0
            gasUsed := executed.usedGas }, executed.usedGas)

/-- The loop of `Process`, for the transactions from the index `i` on. -/
def processTransactions (env : Environment) (blockHash : Hash) : ℕ → List Transaction → Process (List Receipt)
  | _, [] => pure []
  | i, tx :: txs => do
    modify fun p => { p with world := p.world.onDB (·.prepare tx.hash blockHash i) }
    let (receipt, _) ← applyTransaction env tx
    return receipt :: (← processTransactions env blockHash (i + 1) txs)

/-- `Process`: the receipts, their logs and the gas that was used. What the engine does to the state at the end is
`finalize`. -/
def process (env : Environment) (finalize : List Receipt → World → World) (blockHash : Hash) (txs : List Transaction) :
    Process (List Receipt × List Log × ℕ) := do
  let receipts ← processTransactions env blockHash 0 txs
  modify fun p => { p with world := finalize receipts p.world }
  return (receipts, receipts.flatMap (·.logs), (← get).usedGas)

def Processing.start (gasLimit : ℕ) (w : World) : Processing := ⟨gasLimit, 0, w⟩

/-! ### Inversion -/

variable {env : Environment} {tx : Transaction} {p p' : Processing} {receipt : Receipt} {gas : ℕ}

variable {msg : Message} {st : StateTransition} {executed : Executed}

omit [Keccak] [Crypto] in
theorem asMessage_eq_some {signer : Signer} (h : tx.asMessage signer = some msg) :
    signer tx = some msg.sender ∧ msg = ⟨msg.sender, tx.recipient, tx.accountNonce, tx.amount, tx.gasLimit, tx.price,
      tx.payload, true, tx.txtype⟩ := by
  obtain ⟨sender, hsender, rfl⟩ := Option.map_eq_some_iff.mp h
  exact ⟨hsender, rfl⟩

/-- A transaction that was applied: its message, the result and the state before it is finalised. -/
structure Applied (env : Environment) (tx : Transaction) (p : Processing) (m : Message) (executed : Executed)
    (st : StateTransition) : Prop where
  message : tx.asMessage env.signer = some m
  transition : transitionDb (env.evm m) m (newStateTransition m p.gp p.world) = .ok executed st

theorem applyTransaction_eq_ok (h : applyTransaction env tx p = .ok (receipt, gas) p') : ∃ msg executed st,
    Applied env tx p msg executed st ∧
      p' = ⟨st.gp, p.usedGas + executed.usedGas, st.world.onDB (·.finalise true)⟩ ∧ gas = executed.usedGas ∧
      receipt.gasUsed = executed.usedGas ∧ (receipt.status = .successful ↔ executed.failed = false) ∧
      receipt.contractAddress = if tx.recipient = none then createAddress msg.sender tx.accountNonce else 0 := by
  unfold applyTransaction at h
  rw [lift_bind] at h
  cases hmsg : tx.asMessage env.signer with
  | none => simp [hmsg, need] at h
  | some msg =>
    simp only [hmsg, need, Option.elim_some] at h
    obtain ⟨executed, q, happly, h⟩ := Action.bind_eq_ok.mp h
    rw [modify_bind, get_bind] at h
    unfold applyMessage at happly
    split at happly
    · rename_i e st htransition
      cases happly
      cases h
      refine ⟨msg, executed, st, ⟨hmsg, htransition⟩, rfl, rfl, rfl, ?_, ?_⟩
      · cases executed.failed <;> simp
      · rw [(asMessage_eq_some hmsg).2]
        rfl
    · cases happly

/-! ### Gas -/

omit [Crypto] in
theorem gas_paid (st : StateTransition) (msg : Message) : (st.paid msg).gas = st.gas + msg.gasLimit ∧
    (st.paid msg).initialGas = msg.gasLimit ∧ (st.paid msg).gp = st.gp - msg.gasLimit := by
  simp [StateTransition.paid, StateTransition.bought, StateTransition.onDB]

theorem run_gas_le (evm : Evm) (msg : Message) (st : StateTransition) : (st.run evm msg).gas ≤ st.gas := by
  unfold StateTransition.run
  split
  · exact evm.result_gas_le _
  · refine (evm.result_gas_le _).trans (le_of_eq ?_)
    rw [StateTransition.gas_withAccount]
    rfl

theorem gasUsed_refunded (evm : Evm) (msg : Message) (intrinsic : ℕ)
    (h : st.gas = st.initialGas) : ((st.ran evm msg intrinsic).refunded msg).gasUsed +
      ((st.ran evm msg intrinsic).refunded msg).gas = st.initialGas ∧
    ((st.ran evm msg intrinsic).refunded msg).gp = st.gp + ((st.ran evm msg intrinsic).refunded msg).gas := by
  have hrun := run_gas_le evm msg { st with gas := st.gas - intrinsic }
  obtain ⟨refund, hrefund, hgas, hinitial, hgp, -⟩ := refunded_spec (st.ran evm msg intrinsic) msg
  have hran : (st.ran evm msg intrinsic).gas ≤ st.initialGas := by
    refine hrun.trans ?_
    simp only [h]
    exact Nat.sub_le _ _
  have hsame : (st.ran evm msg intrinsic).initialGas = st.initialGas := rfl
  have hpool : (st.ran evm msg intrinsic).gp = st.gp := rfl
  rw [StateTransition.gasUsed, hgas, hinitial, hgp, hsame, hpool]
  rw [StateTransition.gasUsed, hsame] at hrefund
  omega

/-- The gas of a transition that succeeds: what is used is taken from the pool. It is no more than the limit of a
normal message, and all that the stamp of a privacy message pays for. -/
theorem transitionDb_gas {evm : Evm} {gp : ℕ} {w : World}
    (h : transitionDb evm msg (newStateTransition msg gp w) = .ok executed st) :
    st.gp + executed.usedGas = gp ∧ (isNormalTransaction msg.txType = true → executed.usedGas ≤ msg.gasLimit) ∧
      (isNormalTransaction msg.txType = false → ∃ info,
        fetchPrivacyTxInfo w.db (addressBytes msg.sender) msg.data msg.price = .ok info ∧
          executed.usedGas = info.otaBalance / msg.price) := by
  obtain ⟨total, t, hbegins, hconcluding⟩ := transitionDb_eq_ok h
  cases hbegins with
  | normal hnormal haffordable =>
    cases hconcluding with
    | privacy hprivacy => exact absurd hnormal (by simp [hprivacy])
    | @normal _ _ r hr herr u hu =>
      obtain ⟨hpaid, hinitial, hgp⟩ := gas_paid (newStateTransition msg gp w) msg
      have hpool : msg.gasLimit ≤ gp := haffordable.pool
      have hstart : (newStateTransition msg gp w).gas = 0 := rfl
      have hgp₀ : (newStateTransition msg gp w).gp = gp := rfl
      have hbought : ((newStateTransition msg gp w).paid msg).gas =
          ((newStateTransition msg gp w).paid msg).initialGas := by omega
      obtain ⟨hused, hleft⟩ := gasUsed_refunded evm msg (intrinsicOf msg (newStateTransition msg gp w)) hbought
      rw [← hu] at hused hleft
      have hend : (u.rewarded evm msg u.gasUsed).gp = u.gp := rfl
      simp only [hend]
      refine ⟨by omega, fun _ => by omega, fun hprivacy => absurd hnormal (by simp [hprivacy])⟩
  | @privacy info hprivacy hvalue hfetch himage hpool =>
    cases hconcluding with
    | normal hnormal => exact absurd hnormal (by simp [hprivacy])
    | privacy =>
      obtain ⟨-, -, htotal, -⟩ := fetchPrivacyTxInfo_eq_ok hfetch
      refine ⟨Nat.sub_add_cancel hpool, fun hnormal => absurd hnormal (by simp [hprivacy]), fun _ =>
        ⟨info, hfetch, htotal⟩⟩

theorem applyTransaction_gas (h : applyTransaction env tx p = .ok (receipt, gas) p') :
    p'.gp + receipt.gasUsed = p.gp ∧ p'.usedGas = p.usedGas + receipt.gasUsed := by
  obtain ⟨msg, executed, st, happlied, rfl, -, hreceipt, -⟩ := applyTransaction_eq_ok h
  have hgas := (transitionDb_gas happlied.transition).1
  rw [hreceipt]
  exact ⟨hgas, rfl⟩

theorem processTransactions_gas {blockHash : Hash} {i : ℕ} {txs : List Transaction} {receipts : List Receipt}
    (h : processTransactions env blockHash i txs p = .ok receipts p') :
    p'.gp + (receipts.map Receipt.gasUsed).sum = p.gp ∧
      p'.usedGas = p.usedGas + (receipts.map Receipt.gasUsed).sum := by
  induction txs generalizing i p receipts with
  | nil =>
    cases h
    exact ⟨rfl, rfl⟩
  | cons _ _ ih =>
    rw [processTransactions, modify_bind] at h
    obtain ⟨⟨receipt, gas⟩, q, happly, h⟩ := Action.bind_eq_ok.mp h
    obtain ⟨rest, q', hrest, h⟩ := Action.bind_eq_ok.mp h
    cases h
    obtain ⟨hpool, hused⟩ := applyTransaction_gas happly
    obtain ⟨hpool', hused'⟩ := ih hrest
    rw [List.map_cons, List.sum_cons]
    -- preparing the state does not touch the gas
    simp only at hpool hused
    constructor <;> omega

/-- **The gas of a block.** Every transaction takes from the gas pool exactly what its receipt records. So the gas that
a block uses is the sum over its receipts, is what its pool has lost, and is no more than its gas limit. -/
theorem process_gas (env : Environment) (finalize : List Receipt → World → World) (blockHash : Hash) :
    (∀ tx p receipt gas p', applyTransaction env tx p = .ok (receipt, gas) p' → p'.gp + receipt.gasUsed = p.gp) ∧
    ∀ gasLimit txs w receipts logs used p',
      process env finalize blockHash txs (.start gasLimit w) = .ok (receipts, logs, used) p' →
        used = (receipts.map Receipt.gasUsed).sum ∧ p'.gp + used = gasLimit ∧ used ≤ gasLimit := by
  refine ⟨fun tx p receipt gas p' h => (applyTransaction_gas h).1, fun gasLimit txs w receipts logs used p' h => ?_⟩
  obtain ⟨receipts', q, hrun, h⟩ := Action.bind_eq_ok.mp h
  rw [modify_bind, get_bind] at h
  cases h
  obtain ⟨hpool, hused⟩ := processTransactions_gas hrun
  have hlimit : (Processing.start gasLimit w).gp = gasLimit := rfl
  have hzero : (Processing.start gasLimit w).usedGas = 0 := rfl
  refine ⟨?_, ?_, ?_⟩
  · show q.usedGas = _
    omega
  · show q.gp + q.usedGas = _
    omega
  · show q.usedGas ≤ _
    omega

/-- The gas that is recorded for a normal transaction is within its limit; for a privacy transaction it is all that
its stamp pays for, whatever its limit. -/
theorem receipt_gasUsed (h : applyTransaction env tx p = .ok (receipt, gas) p') :
    (isNormalTransaction tx.txtype = true → receipt.gasUsed ≤ tx.gasLimit) ∧
      (isNormalTransaction tx.txtype = false → ∃ sender info, env.signer tx = some sender ∧
        fetchPrivacyTxInfo p.world.db (addressBytes sender) tx.payload tx.price = .ok info ∧
          receipt.gasUsed = info.otaBalance / tx.price) := by
  obtain ⟨msg, executed, st, happlied, -, -, hreceipt, -⟩ := applyTransaction_eq_ok h
  obtain ⟨hsender, hmsg⟩ := asMessage_eq_some happlied.message
  obtain ⟨-, hnormal, hprivacy⟩ := transitionDb_gas happlied.transition
  rw [hmsg] at hnormal hprivacy
  rw [hreceipt]
  refine ⟨hnormal, fun h => ?_⟩
  obtain ⟨info, hfetch, hused⟩ := hprivacy h
  exact ⟨msg.sender, info, hsender, hfetch, hused⟩

/-! ### Contracts -/

theorem Begins.nonce {t : StateTransition} {total : ℕ} (h : Begins msg st total t) (a : Address) :
    t.world.db.getNonce a = st.world.db.getNonce a := by
  rw [StateDB.getNonce_eq, StateDB.getNonce_eq]
  cases h with
  | normal => rw [content_paid, Accounts.nonce_credit]
  | privacy =>
    show ((StateTransition.stamped _ _ _).world.db.content a).nonce = _
    rw [content_stamped, StateTransition.content_withAccount]
    by_cases ha : a = otaImageStorageAddr <;> simp [Accounts.setBytes, ha]

/-- A creation that succeeds: the code that it returns is at the address that `Create` computes, from the nonce of
the sender in the state. -/
theorem transitionDb_deploys {evm : Evm} {st' : StateTransition}
    (hcreation : msg.recipient = none) (h : transitionDb evm msg st = .ok executed st')
    (hsuccess : executed.failed = false) :
    st'.world.db.getCode (createAddress msg.sender (st.world.db.getNonce msg.sender)) = executed.ret := by
  obtain ⟨total, t, hbegins, hconcluding⟩ := transitionDb_eq_ok h
  rw [← hbegins.nonce]
  have hcode : ({ t with gas := t.gas - intrinsicOf msg st }.run evm msg).err = none →
      ((t.ran evm msg (intrinsicOf msg st)).world.db.content
        (createAddress msg.sender (t.world.db.getNonce msg.sender))).code =
          ({ t with gas := t.gas - intrinsicOf msg st }.run evm msg).ret := by
    intro herr
    rw [← StateDB.getCode_eq]
    unfold StateTransition.ran
    simp only [StateTransition.run, hcreation] at herr ⊢
    exact create_code (evm.finish_result _) herr
  rw [StateDB.getCode_eq]
  cases hconcluding with
  | @normal hnormal hgas r hr herr u hu =>
    obtain ⟨refund, -, -, -, -, -, hcontent⟩ := refunded_spec (t.ran evm msg (intrinsicOf msg st)) msg
    rw [content_rewarded, Accounts.code_credit, hu, hcontent, Accounts.code_credit]
    rw [hr] at hsuccess ⊢
    exact hcode (by simpa using hsuccess)
  | @privacy hprivacy hgas r hr herr =>
    rw [content_rewarded, Accounts.code_credit]
    rw [hr] at hsuccess ⊢
    exact hcode (by simpa using hsuccess)

theorem Applied.nonce (h : Applied env tx p msg executed st) (hnormal : isNormalTransaction tx.txtype = true) :
    p.world.db.getNonce msg.sender = tx.accountNonce := by
  obtain ⟨-, hmsg⟩ := asMessage_eq_some h.message
  obtain ⟨total, t, hbegins, -⟩ := transitionDb_eq_ok h.transition
  have htype : msg.txType = tx.txtype := by rw [hmsg]
  cases hbegins with
  | normal _ haffordable =>
    have hnonce := haffordable.nonce (by rw [hmsg])
    rw [hmsg] at hnonce ⊢
    exact hnonce
  | privacy hprivacy => exact absurd hnormal (by rw [← htype]; simp [hprivacy])

/-- The address in the receipt of a transaction that creates a contract is the one with the code if and only if the
transaction is a normal one, or has the nonce of its sender all the same. The addresses for the two nonces
must not collide. -/
theorem contractAddress_iff (h : applyTransaction env tx p = .ok (receipt, gas) p') (hcreation : tx.recipient = none)
    (hstatus : receipt.status = .successful)
    (hcollision : ∀ sender, env.signer tx = some sender →
      createAddress sender tx.accountNonce = createAddress sender (p.world.db.getNonce sender) →
      tx.accountNonce = p.world.db.getNonce sender) :
    ∃ msg executed st deployed, Applied env tx p msg executed st ∧ p'.world = st.world.onDB (·.finalise true) ∧
      deployed = createAddress msg.sender (p.world.db.getNonce msg.sender) ∧
      st.world.db.getCode deployed = executed.ret ∧
      (receipt.contractAddress = deployed ↔
        isNormalTransaction tx.txtype = true ∨ tx.accountNonce = p.world.db.getNonce msg.sender) := by
  obtain ⟨msg, executed, st, happlied, rfl, -, -, hsuccess, haddress⟩ := applyTransaction_eq_ok h
  have hrecipient : msg.recipient = none := by rw [(asMessage_eq_some happlied.message).2, hcreation]
  have hcode := transitionDb_deploys hrecipient happlied.transition (hsuccess.mp hstatus)
  refine ⟨msg, executed, st, _, happlied, rfl, rfl, hcode, ?_⟩
  rw [haddress, if_pos hcreation]
  constructor
  · exact fun heq => .inr (hcollision _ (asMessage_eq_some happlied.message).1 heq)
  · rintro (hnormal | hnonce)
    · rw [happlied.nonce hnormal]
    · rw [hnonce]

end Process

namespace Sample

attribute [local instance] State.Sample.keccak Vm.Sample.crypto

def environment : Environment where
  signer _ := some 0x11
  chain := ⟨fun _ => 0x99, fun _ _ => 0⟩
  author := none
  header := ⟨0, 0, 0, 0, 0, 0, 0, 0, 1, 10 ^ 7, 0, 0, [], 0, 0⟩
  config := {}

/-- A privacy transaction that creates a contract with the code `[0]`; its sender has the nonce 0. -/
def creation (nonce : UInt64) : Transaction where
  txtype := privacyTx
  accountNonce := nonce
  price := 10 ^ 9
  gasLimit := 21000
  recipient := none
  amount := 0
  payload := stampData [0x60, 1, 0x60, 0, 0xf3]
  v := 0
  r := 0
  s := 0

def processing : Processing := ⟨10 ^ 7, 0, stampWorld⟩

/-- The stamp pays for more gas than the limit of the transaction. -/
theorem gasUsed_above_limit : ∃ out p', applyTransaction environment (creation 0) processing = .ok out p' ∧
    (creation 0).gasLimit < out.1.gasUsed := by
  decide +kernel

theorem receipt_gasUsed_creation : ∃ out p', applyTransaction environment (creation 0) processing = .ok out p' ∧
    (isNormalTransaction (creation 0).txtype = true → out.1.gasUsed ≤ (creation 0).gasLimit) ∧
    (isNormalTransaction (creation 0).txtype = false → ∃ sender info, environment.signer (creation 0) = some sender ∧
      fetchPrivacyTxInfo processing.world.db (addressBytes sender) (creation 0).payload (creation 0).price =
        .ok info ∧ out.1.gasUsed = info.otaBalance / (creation 0).price) := by
  have hrun : ∃ out p', applyTransaction environment (creation 0) processing = .ok out p' ∧
      out.1.status = .successful := by decide +kernel
  obtain ⟨⟨receipt, gas⟩, p', happly, -⟩ := hrun
  exact ⟨_, p', happly, receipt_gasUsed happly⟩

/-- A block with one privacy transaction. -/
theorem process_gas_creation : ∃ receipts logs used p',
    process environment (fun _ w => w) 0 [creation 0] (.start (10 ^ 7) stampWorld) = .ok (receipts, logs, used) p' ∧
      used = (receipts.map Receipt.gasUsed).sum ∧ p'.gp + used = 10 ^ 7 ∧ used ≤ 10 ^ 7 := by
  have hrun : ∃ out p', process environment (fun _ w => w) 0 [creation 0] (.start (10 ^ 7) stampWorld) = .ok out p' ∧
      out.1.length = 1 := by decide +kernel
  obtain ⟨⟨receipts, logs, used⟩, p', hprocess, -⟩ := hrun
  exact ⟨receipts, logs, used, p', hprocess, (process_gas environment _ 0).2 _ _ _ _ _ _ _ hprocess⟩

/-- The receipt names an account without code. -/
theorem receipt_misses_contract : ∃ out p', applyTransaction environment (creation 5) processing = .ok out p' ∧
    out.1.status = .successful ∧ p'.world.db.getCode (createAddress 0x11 0) = [0] ∧
    p'.world.db.getCode out.1.contractAddress = [] := by
  decide +kernel

theorem contractAddress_iff_creation : ∃ out p', applyTransaction environment (creation 5) processing = .ok out p' ∧
    ∃ msg executed st deployed, Applied environment (creation 5) processing msg executed st ∧
      p'.world = st.world.onDB (·.finalise true) ∧
      deployed = createAddress msg.sender (processing.world.db.getNonce msg.sender) ∧
      st.world.db.getCode deployed = executed.ret ∧
      (out.1.contractAddress = deployed ↔ isNormalTransaction (creation 5).txtype = true ∨
        (creation 5).accountNonce = processing.world.db.getNonce msg.sender) := by
  have hrun : ∃ out p', applyTransaction environment (creation 5) processing = .ok out p' ∧
      out.1.status = .successful := by decide +kernel
  obtain ⟨⟨receipt, gas⟩, p', happly, hstatus⟩ := hrun
  refine ⟨_, p', happly, contractAddress_iff happly rfl hstatus fun sender hsender => ?_⟩
  cases hsender
  decide +kernel

end Sample

end GoWanchain.Core
