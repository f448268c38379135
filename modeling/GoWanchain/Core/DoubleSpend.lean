import GoWanchain.Core.OtaLedger
import GoWanchain.Vm.Spending

/-!
# No one-time address is spent twice

Along every history from an empty ledger a one-time address is paid out at most once, by a refund or as a
stamp, and the recorded balances cover the recorded images. `TransitionDb` finds the image of a stamp that
was used and returns no error for it, but no gas is left then, so that it ends with an error at the
intrinsic gas, and nobody is paid.
-/

namespace GoWanchain.Core

open State Vm Types
open Action (final)

section Spending

variable [Keccak] [Crypto]

/-- The key image that the data of a privacy message carries is recorded. -/
def ImageRecorded (db : StateDB) (data : Bytes) : Prop :=
  4 ≤ data.length ∧ ∃ ringSignedData params publicKeys keyImage w q,
    unpackStringBytes (data.drop 4) = some (ringSignedData, params) ∧
      decodeRingSignOut ringSignedData = some (publicKeys, keyImage, w, q) ∧
      db.getStateByteArray otaImageStorageAddr (keccak256 (fromECDSAPub keyImage)) ≠ []

theorem ImageRecorded.bytes_ne {db : StateDB} {hashInput data : Bytes} {price : ℕ} {info : PrivacyTxInfo}
    (h : ImageRecorded db data) (hfetch : fetchPrivacyTxInfo db hashInput data price = .ok info) :
    (db.content otaImageStorageAddr).bytes (imageKey info.toRingSignInfo) ≠ [] := by
  obtain ⟨-, ringSignedData, params, publicKeys, keyImage, w, q, hunpack, hdecode, hrecorded⟩ := h
  simp only [fetchPrivacyTxInfo, fetchRingSignInfo, GoWanchain.bind_eq_ok, ensure_eq_ok, need_eq_ok, relabel_eq_ok,
    pure_eq_ok, hunpack] at hfetch
  obtain ⟨-, -, ⟨data', params'⟩, heq, ring, hring, -, -, -, -, -, -, rfl⟩ := hfetch
  obtain ⟨⟨publicKeys', keyImage', w', q'⟩, hdecode', balance, -, -, -, rfl⟩ := hring
  cases heq
  rw [hdecode] at hdecode'
  cases hdecode'
  rwa [StateDB.getStateByteArray_eq] at hrecorded

variable {evm : Evm} {msg : Message} {st : StateTransition}

theorem transitionDb_error_of_recorded (evm : Evm) (hprivacy : isNormalTransaction msg.txType = false)
    (hrecorded : ImageRecorded st.world.db st.data) : ∃ err st', transitionDb evm msg st = .error err st' ∧
      st'.world.db.content = st.world.db.content := by
  have hcontent := st.content_withAccount msg.sender
  have herror {err : CoreError} (h : acquireGas msg st = .error err (st.withAccount msg.sender)) :
      ∃ err st', transitionDb evm msg st = .error err st' ∧ st'.world.db.content = st.world.db.content := by
    rw [transitionDb_eq]
    exact ⟨err, _, Action.bind_of_error h _, hcontent⟩
  by_cases hintrinsic : intrinsicOf msg st < 2 ^ 64
  · have hend := acquireGas_run msg st
    generalize hacquire : acquireGas msg st = result at hend
    cases hend with
    | refused hnormal => exact absurd hprivacy (by simp [hnormal])
    | large h => exact absurd hintrinsic h
    | valued | invalid => exact herror hacquire
    | full _ _ h himage => exact absurd himage (hrecorded.bytes_ne h)
    | used =>
      -- there is no gas for the intrinsic gas
      refine ⟨.vm .errOutOfGas, { st.withAccount msg.sender with gas := 0, initialGas := 0, data := [] }, ?_, hcontent⟩
      rw [transitionDb_eq, Action.bind_of_ok hacquire]
      exact conclude_of_lt 0 (intrinsicGas_pos _ _ _)
    | begins h =>
      cases h with
      | normal hnormal => exact absurd hprivacy (by simp [hnormal])
      | privacy _ _ h himage => exact absurd himage (hrecorded.bytes_ne h)
  · exact herror (acquireGas_of_large hprivacy hintrinsic)

theorem transitionDb_of_recorded (evm : Evm) (st : StateTransition) (hprivacy : isNormalTransaction msg.txType = false)
    (hrecorded : ImageRecorded st.world.db st.data) :
    (∃ err st', transitionDb evm msg st = .error err st' ∧ err ≠ .panic ∧ st'.world.db.content = st.world.db.content) ↔
    ¬ (intrinsicOf msg st < 2 ^ 64 ∧ msg.amount = 0 ∧ msg.price = 0 ∧ Carries st.world.db msg.sender st.data) := by
  obtain ⟨err, st', hend, hcontent⟩ := transitionDb_error_of_recorded evm hprivacy hrecorded
  have hpanic := transitionDb_panics_iff evm msg st
  simp only [hprivacy, true_and] at hpanic
  rw [← hpanic, not_exists]
  constructor
  · rintro ⟨err', t, ht, hne, -⟩ t' ht'
    rw [ht] at ht'
    cases ht'
    exact hne rfl
  · intro hno
    refine ⟨err, st', hend, ?_, hcontent⟩
    rintro rfl
    exact hno st' hend

theorem EmptyLedger.spent {db : Hash → Option Bytes} {trie : Address → Option Account} (h : EmptyLedger trie)
    (hfree : Undisturbed) {image : Bytes → PublicKey} (himage : KeyImages image) {w : World}
    (hw : Reaches (opening db trie) w) : Spent image w.accepted w.db.content := by
  obtain ⟨l, hl, hreplay⟩ := (h.kept hfree hw).replay
  have haccepted : w.accepted = l := hl.trans (List.append_nil l)
  rw [haccepted]
  exact (spent_of_blank image fun a ha k => h.bytes_eq ha k).replay himage hreplay

/-- No double spend, and solvency. In every state that is reached from an empty ledger each one-time address is paid
out at most once, a privacy message whose key image is recorded gives an error and pays nobody, unless its gas price is
zero, and the recorded balances are at least the recorded images. -/
theorem no_double_spend (hfree : Undisturbed) {image : Bytes → PublicKey} (himage : KeyImages image)
    {db : Hash → Option Bytes} {trie : Address → Option Account} (hempty : EmptyLedger trie) {w : World}
    (hw : Reaches (opening db trie) w) : (∀ k, w.accepted.countP (·.spends image k) ≤ 1) ∧
    (∀ evm msg gp, isNormalTransaction msg.txType = false → ImageRecorded w.db msg.data →
      ((∃ err st, transitionDb evm msg (newStateTransition msg gp w) = .error err st ∧ err ≠ .panic ∧
        st.world.db.content = w.db.content) ↔
      ¬ (intrinsicOf msg (newStateTransition msg gp w) < 2 ^ 64 ∧ msg.amount = 0 ∧ msg.price = 0 ∧
        Carries w.db msg.sender msg.data))) ∧
    ∑ i, beNat (w.db.getStateByteArray otaImageStorageAddr i) ≤
      ∑ k, beNat (w.db.getStateByteArray otaBalanceStorageAddr k) := by
  have hspent := hempty.spent hfree himage hw
  refine ⟨hspent.once, fun evm msg gp hprivacy hrecorded => ?_, ?_⟩
  · exact transitionDb_of_recorded evm (newStateTransition msg gp w) hprivacy hrecorded
  · simp only [StateDB.getStateByteArray_eq]
    exact hspent.solvent

end Spending

namespace Sample

open Vm.Sample (member wanAddr)

/-- The image of a member, which is the member itself when its second coordinate is 2. -/
def keyImage (m : Bytes) : PublicKey := ⟨beNat (m.drop 1), (m.headD 0).toNat⟩

/-- Ring signatures that are nothing but their image. -/
@[reducible] def ringCrypto : Crypto :=
  { Vm.Sample.crypto with
    verifyRingSign := fun _ publicKeys image _ _ => publicKeys.any fun p => image = keyImage (ecdsaPKCompression p) }

attribute [local instance] keccak ringCrypto

theorem keyImages_keyImage : KeyImages keyImage where
  injective m m' hm hm' h := by
    obtain ⟨b, t, rfl⟩ := List.exists_cons_of_length_eq_add_one hm
    obtain ⟨b', t', rfl⟩ := List.exists_cons_of_length_eq_add_one hm'
    simp only [keyImage, List.drop_one, List.tail_cons, List.headD_cons, PublicKey.mk.injEq, UInt8.toNat_inj] at h
    obtain ⟨ht, rfl⟩ := h
    have hlen : t.length = t'.length := by simpa using hm.trans hm'.symm
    rw [← bePadded_beNat t, ht, hlen, bePadded_beNat]
  member σ hashInput info h := by
    have hverified : (info.publicKeys.any fun p => info.keyImage = keyImage (ecdsaPKCompression p)) = true := h.verified
    simpa using hverified

def stampPurchase : Message :=
  { sender := 0x11, recipient := some wanStampPrecompileAddr, nonce := 0, amount := 10 ^ 15, gasLimit := 10 ^ 6,
    price := 1, data := packStringUint stBuyId (encodeHex wanAddr) (10 ^ 15), checkNonce := true, txType := normalTx }

def stampedMessage (price : ℕ) : Message :=
  { sender := 0x22, recipient := some 0x33, nonce := 0, amount := 0, gasLimit := 0, price, data := stampData [],
    checkNonce := true, txType := privacyTx }

def usedWorld : World :=
  let bought := (final (transitionDb Vm.Sample.evm stampPurchase
    (newStateTransition stampPurchase (10 ^ 7) (opening (fun _ => none) fundedTrie)))).world
  (final (transitionDb Vm.Sample.evm (stampedMessage (10 ^ 9))
    (newStateTransition (stampedMessage (10 ^ 9)) (10 ^ 7) bought))).world

theorem reaches_usedWorld : Reaches (opening (fun _ => none) fundedTrie) usedWorld :=
  .work .refl (.step (.step .refl (.transition _ _ _)) (.transition _ _ _))

theorem imageRecorded_usedWorld : ImageRecorded usedWorld.db (stampData []) :=
  ⟨by decide +kernel, encodeRingSignOut member member, [], [member], member, [1], [1], by decide +kernel,
    by decide +kernel, by decide +kernel⟩

/-- The stamp is refused when it is used once more. -/
theorem no_double_spend_usedWorld : ∃ err st, transitionDb Vm.Sample.evm (stampedMessage (10 ^ 9))
      (newStateTransition (stampedMessage (10 ^ 9)) (10 ^ 7) usedWorld) = .error err st ∧ err ≠ .panic ∧
      st.world.db.content = usedWorld.db.content :=
  ((no_double_spend undisturbed keyImages_keyImage emptyLedger_fundedTrie reaches_usedWorld).2.1 Vm.Sample.evm
    (stampedMessage (10 ^ 9)) (10 ^ 7) rfl imageRecorded_usedWorld).mpr fun h => absurd h.2.2.1 (by decide)

/-- The node stops when it is used once more with the gas price zero. -/
theorem used_stamp_panics : Reaches (opening (fun _ => none) fundedTrie) usedWorld ∧
    ImageRecorded usedWorld.db (stampedMessage 0).data ∧
    ∃ st, transitionDb Vm.Sample.evm (stampedMessage 0)
      (newStateTransition (stampedMessage 0) (10 ^ 7) usedWorld) = .error .panic st :=
  ⟨reaches_usedWorld, imageRecorded_usedWorld, by decide +kernel⟩

end Sample

end GoWanchain.Core
