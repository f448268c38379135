import GoWanchain.Core.Processor
import GoWanchain.Vm.Aliasing

/-!
# The payload of a transaction

`AsMessage` and `NewStateTransition` hand the payload of a transaction on without copying it, `abi.Unpack`
takes the call data of a privacy transaction as a window of it, and `Call` gives this slice to the contract.
So what a contract writes into its input it writes into the transaction, and the block that is stored
afterwards has other bytes than the one that was hashed.
-/

namespace GoWanchain.Core

open State Vm Types
open Action (check_bind get_bind modify_run pure_run)

/-- `toGoType` of `bytes`, the `i`-th output: a window of the output. -/
def toGoBytesSlice (i : ℕ) (h : Heap UInt8) (output : Slice) : Option Slice :=
  if i * 32 + 32 > output.len then none
  else
    let offset := readInt (output.elems h) (i * 32 + 24)
    if offset < -24 ∨ offset + 32 > output.len then none
    else
      let size := readInt (output.elems h) (offset + 24).toNat
      if size < 0 ∨ offset + 32 + size > output.len then none
      else some (output.sub (offset + 32).toNat (offset + 32 + size).toNat)

/-- The slice that the machine is given: the payload, or the call data in the payload of a privacy message. -/
def callDataSlice (msg : Message) (h : Heap UInt8) (payload : Slice) : Option Slice :=
  if isNormalTransaction msg.txType then some payload else toGoBytesSlice 1 h (payload.sub 4 payload.len)

/-! ### Windows of the payload -/

section Windows

variable {h : Heap UInt8} {payload output data : Slice} {i : ℕ}

theorem toGoBytesSlice_elems (hvalid : output.Valid h) :
    (toGoBytesSlice i h output).map (·.elems h) = toGoBytes i (output.elems h) := by
  unfold toGoBytesSlice toGoBytes
  rw [hvalid.length_elems]
  simp only
  split
  · rfl
  split
  · rfl
  split
  · rfl
  · rename_i hoffset hsize
    have hlen : ∀ x y : ℤ, 0 ≤ x → 0 ≤ y → (x + y).toNat - x.toNat = y.toNat := by omega
    rw [Option.map_some, Slice.elems_sub (by omega), hlen _ _ (by omega) (by omega)]

theorem toGoBytesSlice_within (hvalid : output.Valid h) (hdata : toGoBytesSlice i h output = some data) :
    data.Valid h ∧ data.array = output.array ∧ output.offset ≤ data.offset := by
  unfold toGoBytesSlice at hdata
  simp only at hdata
  split_ifs at hdata with hlen hoffset hsize
  cases hdata
  exact ⟨hvalid.sub (by omega) (by omega), rfl, Nat.le_add_right _ _⟩

theorem callDataSlice_within {msg : Message} (hvalid : payload.Valid h)
    (hdata : callDataSlice msg h payload = some data) :
    data.Valid h ∧ data.array = payload.array ∧ payload.offset ≤ data.offset := by
  unfold callDataSlice at hdata
  split at hdata
  · cases hdata
    exact ⟨hvalid, rfl, le_rfl⟩
  · have hlen : 4 ≤ payload.len := by
      by_contra hshort
      have hempty : (payload.sub 4 payload.len).len = 0 := by
        show payload.len - 4 = 0
        omega
      simp [toGoBytesSlice, hempty] at hdata
    obtain ⟨hdatavalid, harray, hoffset⟩ := toGoBytesSlice_within (hvalid.sub hlen le_rfl) hdata
    exact ⟨hdatavalid, harray, (Nat.le_add_right _ _).trans hoffset⟩

end Windows

section Payload

variable [Keccak] [Crypto]

def beforeRun (msg : Message) : Transition ℕ := do
  let gas ← acquireGas msg
  useGas gas.1
  return gas.2

def afterRun (evm : Evm) (msg : Message) (stampTotalGas : ℕ) : Transition Executed := do
  let (ret, vmerr) ← execute evm msg
  Action.check (vmerr ≠ some .errInsufficientBalance) (.vm .errInsufficientBalance)
  let (requiredGas, usedGas) ← settleGas msg stampTotalGas
  modify (·.onDB (·.addBalance evm.context.coinbase ((usedGas * msg.price : ℕ) : ℤ)))
  return ⟨ret, requiredGas, usedGas, vmerr.isSome⟩

theorem transitionDb_eq_beforeRun (evm : Evm) (msg : Message) :
    transitionDb evm msg = beforeRun msg >>= afterRun evm msg := by
  simp [transitionDb_eq, beforeRun, afterRun, conclude]

omit [Crypto] in
/-- The state in which `Call` is made: the nonce is counted, and the recipient exists. -/
def StateTransition.counted (msg : Message) (addr : Address) (st : StateTransition) : StateTransition :=
  (st.onDB fun db => db.setNonce msg.sender (db.getNonce msg.sender + 1)).withAccount addr

/-- What the machine can do to the arrays, when it is given the slice `data`. -/
inductive Executes (msg : Message) (st : StateTransition) (h : Heap UInt8) (data : Slice) : Heap UInt8 → Prop
  | create {h' : Heap UInt8} (hr : msg.recipient = none) (run : Interprets h h') : Executes msg st h data h'
  | refused {addr : Address} (hr : msg.recipient = some addr)
    (hcan : canTransfer (st.counted msg addr).world.db msg.sender msg.amount = false) : Executes msg st h data h
  | outOfGas {addr : Address} {p : PrecompiledContract} (hr : msg.recipient = some addr)
    (hcan : canTransfer (st.counted msg addr).world.db msg.sender msg.amount = true)
    (hp : precompiledContracts addr = some p) (hgas : ¬ p.requiredGas (data.elems h) ≤ st.gas) :
    Executes msg st h data h
  | precompiled {addr : Address} {p : PrecompiledContract} (hr : msg.recipient = some addr)
    (hcan : canTransfer (st.counted msg addr).world.db msg.sender msg.amount = true)
    (hp : precompiledContracts addr = some p) (hgas : p.requiredGas (data.elems h) ≤ st.gas) :
    Executes msg st h data (p.runOn h data)
  | contract {addr : Address} {h' : Heap UInt8} (hr : msg.recipient = some addr)
    (hcan : canTransfer (st.counted msg addr).world.db msg.sender msg.amount = true)
    (hp : precompiledContracts addr = none) (run : Interprets h h') : Executes msg st h data h'

/-- What a transition can do to the arrays, when the message has the slice `payload`. -/
inductive Transits (msg : Message) (st : StateTransition) (h : Heap UInt8) (payload : Slice) : Heap UInt8 → Prop
  | stops {err : CoreError} {t : StateTransition} (hbefore : beforeRun msg st = .error err t) :
    Transits msg st h payload h
  | runs {total : ℕ} {t : StateTransition} {data : Slice} {h' : Heap UInt8} (hbefore : beforeRun msg st = .ok total t)
    (hdata : callDataSlice msg h payload = some data) (run : Executes msg t h data h') : Transits msg st h payload h'

variable {msg : Message} {st t : StateTransition} {total : ℕ} {h h' : Heap UInt8} {payload data : Slice}

theorem beforeRun_eq_ok (hbefore : beforeRun msg st = .ok total t) : ∃ t₀, Begins msg st total t₀ ∧
    t = { t₀ with gas := t₀.gas - intrinsicOf msg st } := by
  unfold beforeRun useGas at hbefore
  obtain ⟨gas, t₀, hacquire, hbefore⟩ := Action.bind_eq_ok.mp hbefore
  have hend := acquireGas_run msg st
  rw [hacquire] at hend
  simp only [bind_assoc, get_bind, check_bind] at hbefore
  split_ifs at hbefore with hgas
  cases hbefore
  cases hend with
  | used => exact absurd hgas (Nat.not_le.mpr (intrinsicGas_pos _ _ _))
  | begins hbegins => exact ⟨t₀, hbegins, rfl⟩

omit [Keccak] in
theorem fetchPrivacyTxInfo_callData {db : StateDB} {hashInput input : Bytes} {gasPrice : ℕ} {info : PrivacyTxInfo}
    (hfetch : fetchPrivacyTxInfo db hashInput input gasPrice = .ok info) :
    4 ≤ input.length ∧ toGoBytes 1 (input.drop 4) = some info.callData := by
  simp only [fetchPrivacyTxInfo, bind_eq_ok, ensure_eq_ok, need_eq_ok, relabel_eq_ok, pure_eq_ok] at hfetch
  obtain ⟨-, hlen, ⟨data, params⟩, hunpack, ring, -, -, -, -, -, -, -, rfl⟩ := hfetch
  unfold unpackStringBytes at hunpack
  split_ifs at hunpack
  simp only [Option.bind_eq_some_iff, Option.map_eq_some_iff, Prod.mk.injEq] at hunpack
  obtain ⟨s, -, params', hparams, -, rfl⟩ := hunpack
  exact ⟨hlen, hparams⟩

theorem callDataSlice_elems (hvalid : payload.Valid h) (hpayload : payload.elems h = st.data)
    (hbefore : beforeRun msg st = .ok total t) :
    ∃ data, callDataSlice msg h payload = some data ∧ data.elems h = t.data := by
  obtain ⟨t₀, hbegins, rfl⟩ := beforeRun_eq_ok hbefore
  cases hbegins with
  | normal hnormal =>
    refine ⟨payload, if_pos hnormal, ?_⟩
    rw [hpayload]
    exact (StateTransition.data_paid msg st).symm
  | @privacy info hprivacy hvalue hfetch himage hpool =>
    obtain ⟨hlen, hcall⟩ := fetchPrivacyTxInfo_callData hfetch
    rw [← hpayload, hvalid.length_elems] at hlen
    have hdrop : (payload.sub 4 payload.len).elems h = st.data.drop 4 := by
      rw [Slice.elems_sub le_rfl, hpayload, List.take_of_length_le]
      rw [List.length_drop, ← hpayload, hvalid.length_elems]
    rw [← hdrop, ← toGoBytesSlice_elems (hvalid.sub hlen le_rfl)] at hcall
    obtain ⟨data, hdata, helems⟩ := Option.map_eq_some_iff.mp hcall
    refine ⟨data, ?_, helems⟩
    rw [callDataSlice, if_neg (by simp [hprivacy]), hdata]

omit [Crypto] in
theorem getBalance_counted (msg : Message) (addr a : Address) (st : StateTransition) :
    (st.counted msg addr).world.db.getBalance a = st.world.db.getBalance a := by
  rw [StateTransition.counted, StateTransition.getBalance_withAccount, StateDB.getBalance_eq, StateDB.getBalance_eq]
  show ((StateDB.setNonce _ _ _).content a).balance = _
  rw [StateDB.content_setNonce]
  by_cases ha : a = msg.sender <;> simp [ha]

/-- A message that calls `ecrecover`, gets as far as that, and is written over: the byte behind the first 128 bytes of
the input is a byte of the payload. -/
def Exposed (msg : Message) (st : StateTransition) (h : Heap UInt8) (payload : Slice) : Prop :=
  msg.recipient = some 1 ∧ ∃ total t data, beforeRun msg st = .ok total t ∧
    msg.amount ≤ t.world.db.getBalance msg.sender ∧ callDataSlice msg h payload = some data ∧
    (PrecompiledContract.native .ecrecover).requiredGas (data.elems h) ≤ t.gas ∧ Clobbers h data ∧
    data.offset + 128 < payload.offset + payload.len

omit [Keccak] [Crypto] in
theorem precompiledContracts_ecrecover_iff (addr : Address) :
    precompiledContracts addr = some (.native .ecrecover) ↔ addr = 1 := by
  constructor
  · intro hp
    by_contra hne
    simp only [precompiledContracts, hne, if_false] at hp
    split_ifs at hp <;> cases hp
  · rintro rfl
    rfl

theorem elems_kept_iff (hvalid : payload.Valid h) (hrun : Transits msg st h payload h') :
    payload.elems h' = payload.elems h ↔ ¬ Exposed msg st h payload := by
  cases hrun with
  | stops hbefore =>
    refine iff_of_true rfl ?_
    rintro ⟨-, total, t, data, hok, -⟩
    cases hbefore.symm.trans hok
  | @runs total t data _ hbefore hdata run =>
    obtain ⟨hdatavalid, harray, hoffset⟩ := callDataSlice_within hvalid hdata
    cases run with
    | create hr run =>
      refine iff_of_true (Slice.elems_kept run.keeps hvalid.array_lt) ?_
      rintro ⟨hone, -⟩
      cases hr.symm.trans hone
    | refused _ hcan =>
      refine iff_of_true rfl ?_
      rintro ⟨-, total', t', data', hok, hamount, -⟩
      cases hbefore.symm.trans hok
      rw [canTransfer, getBalance_counted, decide_eq_false_iff_not] at hcan
      exact hcan hamount
    | outOfGas hr _ hp hgas =>
      refine iff_of_true rfl ?_
      rintro ⟨hone, total', t', data', hok, -, hdata', hgas', -⟩
      cases hbefore.symm.trans hok
      cases hdata.symm.trans hdata'
      cases hr.symm.trans hone
      cases hp
      exact hgas hgas'
    | @precompiled addr p hr hcan hp hgas =>
      rw [elems_runOn_iff p hdatavalid hvalid]
      refine not_congr ⟨?_, ?_⟩
      · rintro ⟨rfl, hclobbers, -, -, hend⟩
        rw [precompiledContracts_ecrecover_iff] at hp
        rw [canTransfer, getBalance_counted, decide_eq_true_eq] at hcan
        exact ⟨hp ▸ hr, total, t, data, hbefore, hcan, hdata, hgas, hclobbers, hend⟩
      · rintro ⟨hone, total', t', data', -, -, hdata', -, hclobbers, hend⟩
        cases hdata.symm.trans hdata'
        cases hr.symm.trans hone
        cases hp
        exact ⟨rfl, hclobbers, harray.symm, hoffset.trans (Nat.le_add_right _ _), hend⟩
    | contract hr _ hp run =>
      refine iff_of_true (Slice.elems_kept run.keeps hvalid.array_lt) ?_
      rintro ⟨hone, -⟩
      cases hr.symm.trans hone
      cases hp

theorem exists_transits (hvalid : payload.Valid h) (hpayload : payload.elems h = st.data) :
    ∃ h', Transits msg st h payload h' := by
  cases hbefore : beforeRun msg st with
  | error => exact ⟨h, .stops hbefore⟩
  | ok _ t =>
    obtain ⟨data, hdata, -⟩ := callDataSlice_elems hvalid hpayload hbefore
    cases hr : msg.recipient with
    | none => exact ⟨h, .runs hbefore hdata (.create hr (.refl h))⟩
    | some addr =>
      cases hcan : canTransfer (t.counted msg addr).world.db msg.sender msg.amount with
      | false => exact ⟨h, .runs hbefore hdata (.refused hr hcan)⟩
      | true =>
        cases hp : precompiledContracts addr with
        | none => exact ⟨h, .runs hbefore hdata (.contract hr hcan hp (.refl h))⟩
        | some p =>
          by_cases hgas : p.requiredGas (data.elems h) ≤ t.gas
          · exact ⟨_, .runs hbefore hdata (.precompiled hr hcan hp hgas)⟩
          · exact ⟨h, .runs hbefore hdata (.outOfGas hr hcan hp hgas)⟩

/-- The execution of a transaction whose payload is the slice `payload`: its message, and the arrays afterwards. -/
structure Handled (signer : Signer) (tx : Transaction) (gp : ℕ) (w : World) (h : Heap UInt8) (payload : Slice)
    (msg : Message) (h' : Heap UInt8) : Prop where
  message : tx.asMessage signer = some msg
  valid : payload.Valid h
  elems : payload.elems h = tx.payload
  transits : Transits msg (newStateTransition msg gp w) h payload h'

/-- The payload of a transaction is kept, unless it calls `ecrecover` and is written over there. The other precompiled
contracts keep all arrays, whatever the length and the capacity of their input. -/
theorem payload_kept_iff {signer : Signer} {tx : Transaction} {gp : ℕ} {w : World}
    (hrun : Handled signer tx gp w h payload msg h') :
    (payload.elems h' = tx.payload ↔ ¬ Exposed msg (newStateTransition msg gp w) h payload) ∧
      ∀ (p : PrecompiledContract) (input : Slice), input.Valid h →
        (h <+: p.runOn h input ↔ ¬ (p = .native .ecrecover ∧ Clobbers h input)) := by
  refine ⟨?_, fun p input hinput => prefix_runOn_iff p hinput⟩
  rw [← hrun.elems]
  exact elems_kept_iff hrun.valid hrun.transits

end Payload

namespace Sample

attribute [local instance] State.Sample.keccak Vm.Sample.crypto

/-- A signature to recover, with one byte more than it takes. -/
def recovery : Transaction where
  txtype := normalTx
  accountNonce := 0
  price := 0
  gasLimit := 10 ^ 5
  recipient := some 1
  amount := 0
  payload := List.replicate 63 0 ++ [27] ++ bePadded 32 1 ++ bePadded 32 1 ++ [7]
  v := 0
  r := 0
  s := 0

def recoveryMessage : Message := ⟨0x11, some 1, 0, 0, 10 ^ 5, 0, recovery.payload, true, normalTx⟩

def recoveryHeap : Heap UInt8 := [recovery.payload]

def recoverySlice : Slice := ⟨0, 0, 129, 129⟩

theorem recovery_handled : Handled environment.signer recovery (10 ^ 7) stampWorld recoveryHeap recoverySlice
    recoveryMessage (PrecompiledContract.runOn recoveryHeap recoverySlice (.native .ecrecover)) where
  message := rfl
  valid := ⟨by decide, by decide, by decide +kernel⟩
  elems := by decide +kernel
  transits := by
    have hbefore : ∃ total t,
        beforeRun recoveryMessage (newStateTransition recoveryMessage (10 ^ 7) stampWorld) = .ok total t ∧
        canTransfer (t.counted recoveryMessage 1).world.db recoveryMessage.sender recoveryMessage.amount = true := by
      decide +kernel
    obtain ⟨total, t, hbefore, hcan⟩ := hbefore
    exact .runs hbefore rfl (.precompiled rfl hcan rfl (Nat.zero_le _))

/-- The last byte of the payload is written over with 0, and the transaction has another hash. -/
theorem recovery_alters_payload : ∃ h', Handled environment.signer recovery (10 ^ 7) stampWorld recoveryHeap
      recoverySlice recoveryMessage h' ∧
    recoverySlice.elems h' = recovery.payload.set 128 0 ∧ recoverySlice.elems h' ≠ recovery.payload ∧
    { recovery with payload := recoverySlice.elems h' }.hash ≠ recovery.hash :=
  ⟨_, recovery_handled, by decide +kernel⟩

theorem payload_kept_iff_recovery : ∃ h', Handled environment.signer recovery (10 ^ 7) stampWorld recoveryHeap
      recoverySlice recoveryMessage h' ∧
    (recoverySlice.elems h' = recovery.payload ↔
      ¬ Exposed recoveryMessage (newStateTransition recoveryMessage (10 ^ 7) stampWorld) recoveryHeap recoverySlice) ∧
    ∀ (p : PrecompiledContract) (input : Slice), input.Valid recoveryHeap →
      (recoveryHeap <+: p.runOn recoveryHeap input ↔ ¬ (p = .native .ecrecover ∧ Clobbers recoveryHeap input)) :=
  ⟨_, recovery_handled, payload_kept_iff recovery_handled⟩

end Sample

end GoWanchain.Core
