import GoWanchain.Core.Outcome
import GoWanchain.Vm.Custody
import GoWanchain.Vm.OtaSet

/-!
# The ledger of one-time addresses along a chain

A history begins with the state of a chain whose ledger is empty and goes on with transitions, calls of the
machine, snapshots and reverts, the ends of transactions and the ends of blocks (`Reaches`). A transition
counts with the state in which it ends, also with an error.

The accounts of an empty ledger may hold coins, but none is in the trie as an empty account, as no state
that a block commits has one: the mark of such an account is lost when its first touch is reverted, and with
it what the block records there.
-/

namespace GoWanchain.Core

open State Vm Types
open Action (final)

section Histories

variable [Keccak] [Crypto]

/-! ### The parts of a transition -/

section Parts

variable (st : StateTransition) (msg : Message) (evm : Evm)

theorem advances_withAccount (addr : Address) : Advances st.world (st.withAccount addr).world := by
  refine .of_same (st.leads_withAccount addr) ?_ (st.accepted_withAccount addr) fun a _ => ?_
  · unfold StateTransition.withAccount
    split
    · exact .refl _
    · exact custody_createAccount _ _
  · rw [st.content_withAccount]

theorem advances_paid : Advances st.world (st.paid msg).world := by
  have haccount := (advances_withAccount st msg.sender).trans (advances_withAccount _ msg.sender)
  have hbought : Advances st.world (((st.withAccount msg.sender).withAccount msg.sender).bought msg).world :=
    haccount.trans (advances_subBalance _ msg.sender _)
  exact hbought.trans (advances_withAccount _ msg.sender)

theorem advances_stamped {info : PrivacyTxInfo}
    (h : fetchPrivacyTxInfo st.world.db (addressBytes msg.sender) st.data msg.price = .ok info)
    (himage : (st.world.db.content otaImageStorageAddr).bytes (imageKey info.toRingSignInfo) = []) :
    Advances st.world ((st.withAccount msg.sender).stamped msg.sender info).world := by
  have hring := (fetchPrivacyTxInfo_eq_ok h).2.1
  refine (advances_withAccount st msg.sender).trans ⟨leads_setStateByteArray _ _ _ _, custody_setStateByteArray _ _ _ _,
    fun _ => ⟨[.stamp msg.sender info.toRingSignInfo], rfl, ?_⟩⟩
  refine .granted (.same (.refl _)) ?_ (.refl _)
  show Ring _ _ _ ∧ _ = [] ∧ _ = _
  rw [content_stamped, st.content_withAccount]
  exact ⟨hring, himage, rfl⟩

theorem advances_refunded : Advances st.world (st.refunded msg).world :=
  ((advances_withAccount st msg.sender).trans (advances_addBalance _ msg.sender _)).trans
    (advances_addBalance _ msg.sender _)

theorem advances_rewarded (usedGas : ℕ) : Advances st.world (st.rewarded evm msg usedGas).world :=
  advances_addBalance _ evm.context.coinbase _

end Parts

/-- No contract is created at a reserved address. -/
def Undisturbed : Prop := ∀ caller nonce, ¬ Reserved (createAddress caller nonce)

variable {msg : Message} {st : StateTransition} {evm : Evm} {w v u : World}

theorem advances_run (hfree : Undisturbed) (evm : Evm) (msg : Message) (st : StateTransition) :
    Advances st.world (st.run evm msg).world := by
  unfold StateTransition.run
  cases msg.recipient with
  | none => exact create_advances hfree (evm.finish_result _)
  | some addr =>
    have hcounted : Advances st.world (st.onDB fun db => db.setNonce msg.sender (db.getNonce msg.sender + 1)).world :=
      advances_setNonce st.world msg.sender _
    exact (hcounted.trans (advances_withAccount _ addr)).trans (call_advances hfree (evm.finish_result _))

/-! ### Transitions -/

theorem Concluding.advances (hfree : Undisturbed) {intrinsic total : ℕ}
    {r : EStateM.Result CoreError StateTransition Executed} (h : Concluding evm msg intrinsic total st r) :
    Advances st.world (final r).world := by
  have hran : Advances st.world (st.ran evm msg intrinsic).world :=
    advances_run hfree evm msg { st with gas := st.gas - intrinsic }
  cases h with
  | outOfGas => exact .refl _
  | insufficient => exact hran
  | normal _ _ _ _ ht =>
    subst ht
    exact (hran.trans (advances_refunded _ msg)).trans (advances_rewarded _ msg evm _)
  | privacy => exact hran.trans (advances_rewarded _ msg evm total)

theorem Begins.advances {total : ℕ} {t : StateTransition} (h : Begins msg st total t) : Advances st.world t.world := by
  cases h with
  | normal => exact advances_paid st msg
  | privacy _ _ h himage => exact advances_stamped st msg h himage

theorem Acquiring.advances {r : EStateM.Result CoreError StateTransition (ℕ × ℕ)} (h : Acquiring msg st r) :
    Advances st.world (final r).world := by
  have haccount := advances_withAccount st msg.sender
  cases h with
  | refused _ _ _ ht =>
    rcases ht with rfl | rfl
    · exact haccount
    · exact haccount.trans (advances_withAccount _ msg.sender)
  | large _ ht =>
    rcases ht with rfl | rfl
    · exact advances_paid st msg
    · exact haccount
  | valued | invalid | used => exact haccount
  | full _ _ h himage => exact advances_stamped st msg h himage
  | begins h => exact h.advances

theorem transitionDb_advances (hfree : Undisturbed) (evm : Evm) (msg : Message) (st : StateTransition) :
    Advances st.world (final (transitionDb evm msg st)).world := by
  rw [transitionDb_eq]
  have hacquire := (acquireGas_run msg st).advances
  cases hresult : acquireGas msg st with
  | ok gas t =>
    rw [hresult] at hacquire
    rw [Action.bind_of_ok hresult]
    exact hacquire.trans ((conclude_run evm msg gas.1 gas.2 t).advances hfree)
  | error =>
    rw [hresult] at hacquire
    rw [Action.bind_of_error hresult]
    exact hacquire

/-! ### Histories -/

/-- A transition, or a call of the machine. Code runs for no reserved account. -/
inductive Step (w : World) : World → Prop
  | transition (evm : Evm) (msg : Message) (gp : ℕ) :
    Step w (final (transitionDb evm msg (newStateTransition msg gp w))).world
  | call {evm : Evm} {n depth : ℕ} {ro : Bool} {caller addr : Address} {input : Bytes} {gas value : ℕ} {r : Result}
    (h : evm.finish n (evm.call depth ro caller addr input gas value w) = some r) : Step w r.world
  | callCode {evm : Evm} {n depth : ℕ} {ro : Bool} {caller addr : Address} {input : Bytes} {gas value : ℕ} {r : Result}
    (hcaller : ¬ Reserved caller)
    (h : evm.finish n (evm.callCode depth ro caller addr input gas value w) = some r) : Step w r.world
  | delegateCall {evm : Evm} {n depth : ℕ} {ro : Bool} {parent : Contract} {addr : Address} {input : Bytes} {gas : ℕ}
    {r : Result} (hparent : ¬ Reserved parent.self)
    (h : evm.finish n (evm.delegateCall depth ro parent addr input gas w) = some r) : Step w r.world
  | staticCall {evm : Evm} {n depth : ℕ} {caller addr : Address} {input : Bytes} {gas : ℕ} {r : Result}
    (h : evm.finish n (evm.staticCall depth caller addr input gas w) = some r) : Step w r.world
  | create {evm : Evm} {n depth : ℕ} {caller : Address} {code : Bytes} {gas value : ℕ} {r : Result}
    (h : evm.finish n (evm.create depth false caller code gas value w) = some r) : Step w r.world

/-- The work of one transaction: steps, and snapshots to which the state may be reverted. -/
inductive Work : World → World → Prop
  | refl {w : World} : Work w w
  | step {w v u : World} (h : Work w v) (hstep : Step v u) : Work w u
  | snapshot {w v : World} (h : Work w v) : Work w (v.onDB (·.snapshot))
  | revert {w v u : World} (h : Work w v) (hsince : Work (v.onDB (·.snapshot)) u) : Work w (u.revert v)

/-- Work, the ends of transactions, and the ends of blocks, with which the next state is opened. -/
inductive Reaches (w : World) : World → Prop
  | refl : Reaches w w
  | work {v u : World} (h : Reaches w v) (hwork : Work v u) : Reaches w u
  | finalise {v : World} (h : Reaches w v) : Reaches w (v.onDB (·.finalise true))
  | block {v : World} (h : Reaches w v) (db : Hash → Option Bytes) : Reaches w (v.onDB (·.reopen db))

theorem Step.advances (hfree : Undisturbed) (h : Step w v) : Advances w v := by
  cases h with
  | transition evm msg gp => exact transitionDb_advances hfree evm msg (newStateTransition msg gp w)
  | call h => exact call_advances hfree h
  | callCode hcaller h => exact callCode_advances hfree hcaller h
  | delegateCall hparent h => exact delegateCall_advances hfree hparent h
  | staticCall h => exact staticCall_advances hfree h
  | create h => exact create_advances hfree h

theorem Work.advances (hfree : Undisturbed) (h : Work w v) : Advances w v := by
  induction h with
  | refl => exact .refl _
  | step _ hstep ih => exact ih.trans (hstep.advances hfree)
  | snapshot _ ih => exact ih.trans (.snapshot _)
  | revert _ _ ih ihsince => exact ih.trans ihsince.revert

/-- What is known of a state of a history that began with `w`. -/
structure Kept (w v : World) : Prop where
  wf : v.db.WF
  archives : v.db.Archives Reserved
  replay : ∃ l, v.accepted = l ++ w.accepted ∧ Replay w.db.content l v.db.content

theorem Kept.same {db : StateDB} (h : Kept w v) (hwf : db.WF) (harchives : db.Archives Reserved)
    (hsame : SameLedger v.db.content db.content) : Kept w { v with db } := by
  obtain ⟨l, hl, hreplay⟩ := h.replay
  exact ⟨hwf, harchives, l, hl, hreplay.same_right hsame⟩

theorem Reaches.kept (hfree : Undisturbed) (hw : w.db.WF) (harchives : w.db.Archives Reserved) (h : Reaches w v) :
    Kept w v := by
  induction h with
  | refl => exact ⟨hw, harchives, [], rfl, .same (.refl _)⟩
  | work _ hwork ih =>
    obtain ⟨l, hl, hreplay⟩ := ih.replay
    have hadvances := hwork.advances hfree
    obtain ⟨l', hl', hreplay'⟩ := hadvances.replay ih.wf
    exact ⟨(hadvances.leads ih.wf).1, hadvances.custody.archives ih.archives, l' ++ l,
      by rw [hl', hl, List.append_assoc], hreplay.append hreplay'⟩
  | finalise _ ih => exact ih.same ih.wf.finalise ih.archives.finalise fun a ha => ih.archives.content_finalise_bytes ha
  | block _ db ih =>
    exact ih.same (.new _ _) (ih.archives.reopen db) fun a ha => ih.archives.content_reopen_bytes db ha

/-! ### From an empty ledger -/

/-- The reserved accounts of a trie have no code and no storage, and none of them is an empty account. -/
structure EmptyLedger (trie : Address → Option Account) : Prop where
  root : ∀ a data, Reserved a → trie a = some data → data.root = ∅
  codeHash : ∀ a data, Reserved a → trie a = some data → data.codeHash = emptyCodeHash
  solid : ∀ a data, Reserved a → trie a = some data → data.nonce ≠ 0 ∨ data.balance ≠ 0

def opening (db : Hash → Option Bytes) (trie : Address → Option Account) : World := ⟨.new db trie, []⟩

namespace EmptyLedger

variable {db : Hash → Option Bytes} {trie : Address → Option Account} (h : EmptyLedger trie)
include h

omit [Crypto] in
theorem archives : (opening db trie).db.Archives Reserved := by
  refine .new db fun a data ha hdata => ⟨⟨.newObject_of_slots ?_ ?_, rfl, h.codeHash a data ha hdata, rfl⟩, ?_⟩
  · intro k hk
    cases hk
  · intro k _
    exact ⟨[], by simp [h.root a data ha hdata, slotOfBytes]⟩
  · rcases h.solid a data ha hdata with hnonce | hbalance
    · simp [StateObject.empty, newObject, hnonce]
    · simp [StateObject.empty, newObject, hbalance]

omit [Crypto] in
theorem bytes_eq {a : Address} (ha : Reserved a) (k : Hash) : ((opening db trie).db.content a).bytes k = [] := by
  rw [StateDB.Archives.bytes_eq]
  show ((trie a).map newObject).elim [] (·.getStateByteArray k) = []
  cases hdata : trie a with
  | none => rfl
  | some data => simp [StateObject.getStateByteArray, newObject, h.root a data ha hdata]

theorem kept (hfree : Undisturbed) {w : World} (hw : Reaches (opening db trie) w) : Kept (opening db trie) w :=
  hw.kept hfree (.new db trie) h.archives

theorem books (hfree : Undisturbed) {w : World} (hw : Reaches (opening db trie) w) : Books w.db.content := by
  obtain ⟨l, -, hreplay⟩ := (h.kept hfree hw).replay
  exact (books_of_blank fun a ha k => h.bytes_eq ha k).replay hreplay

end EmptyLedger

omit [Crypto] in
theorem getOtaBalanceFromAX_eq_ok {db : StateDB} {ax : Bytes} {b : ℕ} : getOtaBalanceFromAX db ax = .ok b ↔
    ax.length = hashLength ∧ Accounts.otaBalance db.content (bytesToHash ax) = b := by
  simp only [getOtaBalanceFromAX, GoWanchain.bind_eq_ok, ensure_eq_ok, pure_eq_ok, exists_const,
    StateDB.getStateByteArray_eq, Accounts.otaBalance]

/-- The ledger of one-time addresses. In every state that is reached from an empty ledger, a recorded balance has its
address in its own bucket and in no other, neither of them changes any more, and the array of which
`CheckOTALongAddrExist` takes 33 bytes has so many. -/
theorem ledger_recorded (hfree : Undisturbed) {db : Hash → Option Bytes} {trie : Address → Option Account}
    (hempty : EmptyLedger trie) {w : World} (hw : Reaches (opening db trie) w) :
    (∀ ax b, getOtaBalanceFromAX w.db ax = .ok b → b ≠ 0 →
      (∃ wanAddr, w.db.getStateByteArray (otaBalance2ContractAddr b) (bytesToHash ax) = wanAddr ∧
        wanAddr.length = wAddressLength ∧ getAXFromWanAddr wanAddr = .ok ax) ∧
      (∀ value ∈ stampValueSet ++ wanCoinValueSet, value ≠ b →
        w.db.getStateByteArray (otaBalance2ContractAddr value) (bytesToHash ax) = []) ∧
      ∀ v, Reaches w v → getOtaBalanceFromAX v.db ax = .ok b ∧
        v.db.getStateByteArray (otaBalance2ContractAddr b) (bytesToHash ax) =
          w.db.getStateByteArray (otaBalance2ContractAddr b) (bytesToHash ax)) ∧
    ∀ (otaLongAddr : Bytes) (b : ℕ), getOtaBalanceFromAX w.db ((otaLongAddr.drop 1).take hashLength) = .ok b → b ≠ 0 →
      33 ≤ (w.db.getStateByteArray (otaBalance2ContractAddr b)
        (bytesToHash ((otaLongAddr.drop 1).take hashLength))).length := by
  have hbooks := hempty.books hfree hw
  have hkept := hempty.kept hfree hw
  refine ⟨fun ax b hb hne => ?_, fun otaLongAddr b hb hne => ?_⟩
  · obtain ⟨hlen, rfl⟩ := getOtaBalanceFromAX_eq_ok.mp hb
    obtain ⟨haddr, hkey⟩ := hbooks.address _ hne
    refine ⟨⟨_, rfl, ?_, ?_⟩, fun value hv hvalue => ?_, fun v hv => ?_⟩
    · rwa [StateDB.getStateByteArray_eq]
    · rw [StateDB.getStateByteArray_eq]
      exact getAXFromWanAddr_of_otaKey haddr hlen hkey
    · rw [StateDB.getStateByteArray_eq]
      exact hbooks.others _ value hv hvalue
    · obtain ⟨l, -, hreplay⟩ := (hv.kept hfree hkept.wf hkept.archives).replay
      have hgrows := hreplay.grows
      rw [StateDB.getStateByteArray_eq, StateDB.getStateByteArray_eq]
      exact ⟨getOtaBalanceFromAX_eq_ok.mpr ⟨hlen, hgrows.balance _ hne⟩,
        hgrows.address _ hne _ (hbooks.value_mem _ hne)⟩
  · obtain ⟨-, rfl⟩ := getOtaBalanceFromAX_eq_ok.mp hb
    rw [StateDB.getStateByteArray_eq, (hbooks.address _ hne).1]
    decide

end Histories

namespace Sample

open Vm.Sample (member wanAddr)

/-- A hash with which no contract is created at a reserved address. -/
@[reducible] def keccak : Keccak := ⟨fun _ => 1⟩

attribute [local instance] keccak Vm.Sample.crypto

theorem undisturbed : Undisturbed := by
  intro caller nonce h
  have hone : createAddress caller nonce = 1 := rfl
  rw [hone] at h
  exact absurd h (by decide +kernel)

/-- A chain on which the account 0x11 has 100 coins. -/
def fundedTrie (a : Address) : Option Account :=
  if a = 0x11 then some { Account.zero with balance := 10 ^ 20 } else none

def coinMessage : Message :=
  { sender := 0x11, recipient := some wanCoinPrecompileAddr, nonce := 0, amount := 10 ^ 19, gasLimit := 10 ^ 6,
    price := 1, data := packStringUint buyIdArr (encodeHex wanAddr) (10 ^ 19), checkNonce := true, txType := normalTx }

def boughtWorld : World :=
  (final (transitionDb Vm.Sample.evm coinMessage
    (newStateTransition coinMessage (10 ^ 7) (opening (fun _ => none) fundedTrie)))).world

theorem emptyLedger_fundedTrie : EmptyLedger fundedTrie := by
  have hnone (a : Address) (ha : Reserved a) : fundedTrie a = none := by
    refine if_neg ?_
    rintro rfl
    exact absurd ha (by decide +kernel)
  exact ⟨fun a data ha hdata => by simp [hnone a ha] at hdata, fun a data ha hdata => by simp [hnone a ha] at hdata,
    fun a data ha hdata => by simp [hnone a ha] at hdata⟩

theorem reaches_boughtWorld : Reaches (opening (fun _ => none) fundedTrie) boughtWorld :=
  .work .refl (.step .refl (.transition _ _ _))

theorem getOtaBalance_boughtWorld :
    getOtaBalanceFromAX boughtWorld.db (bePadded hashLength member.x) = .ok (10 ^ 19) := by
  decide +kernel

theorem boughtWorld_recorded : getOtaBalanceFromAX boughtWorld.db (bePadded hashLength member.x) = .ok (10 ^ 19) ∧
      ∃ wanAddr, boughtWorld.db.getStateByteArray (otaBalance2ContractAddr (10 ^ 19))
          (bytesToHash (bePadded hashLength member.x)) = wanAddr ∧
        wanAddr.length = wAddressLength ∧ getAXFromWanAddr wanAddr = .ok (bePadded hashLength member.x) :=
  ⟨getOtaBalance_boughtWorld, ((ledger_recorded undisturbed emptyLedger_fundedTrie reaches_boughtWorld).1 _ _
    getOtaBalance_boughtWorld (by norm_num)).1⟩

end Sample

end GoWanchain.Core
