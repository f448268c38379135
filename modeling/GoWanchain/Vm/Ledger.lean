import GoWanchain.Vm.Effect

/-!
# The ledger of one-time addresses

The byte arrays at the reserved addresses are the ledger. Contracts change it only through requests:
whatever an effect does, replaying the requests that were granted accounts for the ledger it leaves
(`Effect.replay`), unless a contract is created at a reserved address.
-/

namespace GoWanchain.Vm

open State
open Accounts (bytes_setBytes otaBalance)

/-- The addresses whose byte arrays are the ledger. -/
def Reserved (a : Address) : Prop :=
  a = otaBalanceStorageAddr ∨ a = otaImageStorageAddr ∨
    ∃ value ∈ stampValueSet ++ wanCoinValueSet, a = otaBalance2ContractAddr value

instance (a : Address) : Decidable (Reserved a) :=
  inferInstanceAs (Decidable (_ ∨ _ ∨ ∃ value ∈ stampValueSet ++ wanCoinValueSet, _))

def SameLedger (σ τ : Accounts) : Prop := ∀ a, Reserved a → (τ a).bytes = (σ a).bytes

theorem SameLedger.refl (σ : Accounts) : SameLedger σ σ := fun _ _ => rfl

variable {σ τ : Accounts}

theorem SameLedger.trans {υ : Accounts} (h : SameLedger σ τ) (h' : SameLedger τ υ) : SameLedger σ υ :=
  fun a ha => (h' a ha).trans (h a ha)

theorem SameLedger.of_bytes (h : ∀ a, (τ a).bytes = (σ a).bytes) : SameLedger σ τ :=
  fun a _ => h a

/-- The storage of the balances is none of the addresses made of a balance, and has its own values. -/
theorem otaBalance2ContractAddr_ne : ∀ value ∈ stampValueSet ++ wanCoinValueSet, value ≠ 0 ∧
    otaBalance2ContractAddr value ≠ otaBalanceStorageAddr ∧
    otaBalance2ContractAddr value ≠ otaImageStorageAddr := by
  decide +kernel

/-- Slots that are filled stay as they are. -/
structure Grows (σ τ : Accounts) : Prop where
  balance : ∀ k, σ.otaBalance k ≠ 0 → τ.otaBalance k = σ.otaBalance k
  address : ∀ k, σ.otaBalance k ≠ 0 → ∀ value ∈ stampValueSet ++ wanCoinValueSet,
    (τ (otaBalance2ContractAddr value)).bytes k = (σ (otaBalance2ContractAddr value)).bytes k
  image : ∀ k, (σ otaImageStorageAddr).bytes k ≠ [] → (τ otaImageStorageAddr).bytes k = (σ otaImageStorageAddr).bytes k

theorem Grows.trans {υ : Accounts} (h : Grows σ τ) (h' : Grows τ υ) : Grows σ υ where
  balance k hk := (h'.balance k (by rwa [h.balance k hk])).trans (h.balance k hk)
  address k hk value hv :=
    (h'.address k (by rwa [h.balance k hk]) value hv).trans (h.address k hk value hv)
  image k hk := (h'.image k (by rwa [h.image k hk])).trans (h.image k hk)

theorem SameLedger.grows (h : SameLedger σ τ) : Grows σ τ where
  balance k _ := by rw [otaBalance, h _ (.inl rfl), otaBalance]
  address k _ value hv := by rw [h _ (.inr (.inr ⟨value, hv, rfl⟩))]
  image k _ := by rw [h _ (.inr (.inl rfl))]

namespace Accounts

variable (σ : Accounts) (a b : Address)

@[simp] theorem bytes_setWord (loc val : Hash) : (σ.setWord a loc val b).bytes = (σ b).bytes := by
  by_cases h : b = a <;> simp [setWord, h]

@[simp] theorem bytes_setNonce (nonce : UInt64) : (σ.setNonce a nonce b).bytes = (σ b).bytes := by
  by_cases h : b = a <;> simp [setNonce, h]

@[simp] theorem bytes_setCode (code : Bytes) : (σ.setCode a code b).bytes = (σ b).bytes := by
  by_cases h : b = a <;> simp [setCode, h]

@[simp] theorem bytes_destruct (beneficiary : Address) : (σ.destruct a beneficiary b).bytes = (σ b).bytes := by
  by_cases h : b = a <;> simp [destruct, h]

@[simp] theorem bytes_opened (value : ℕ) (c : Address) : (σ.opened a b value c).bytes = (σ c).bytes := by
  unfold opened
  split <;> simp [transfer]

theorem bytes_created (value : ℕ) {c : Address} (h : c ≠ b) : (σ.created a b value c).bytes = (σ c).bytes := by
  simp [created, transfer, h]

end Accounts

variable [Keccak] [Crypto]

/-- What a granted request does. -/
def Granted (σ τ : Accounts) : Request → Prop
  | .buy payer wanAddr value => Buy payer wanAddr value σ τ
  | .refund payee info => Refund payee info σ τ
  | .stamp sender info => Ring σ (addressBytes sender) info ∧ (σ otaImageStorageAddr).bytes (imageKey info) = [] ∧
    τ = σ.setBytes otaImageStorageAddr (imageKey info) (beBytes info.otaBalance)

/-- The ledger comes from the requests, the last one first. -/
inductive Replay (σ : Accounts) : List Request → Accounts → Prop
  | same {τ : Accounts} (h : SameLedger σ τ) : Replay σ [] τ
  | granted {τ υ ω : Accounts} {l : List Request} {r : Request} (h : Replay σ l τ) (hr : Granted τ υ r)
    (hω : SameLedger υ ω) : Replay σ (r :: l) ω

namespace Replay

variable {σ τ υ : Accounts} {l l' : List Request}

theorem same_right (h : Replay σ l τ) (hτ : SameLedger τ υ) : Replay σ l υ := by
  cases h with
  | same h => exact .same (h.trans hτ)
  | granted h hr hω => exact .granted h hr (hω.trans hτ)

theorem append (h : Replay σ l τ) (h' : Replay τ l' υ) : Replay σ (l' ++ l) υ := by
  induction h' with
  | same hτ => exact h.same_right hτ
  | granted _ hr hω ih => exact .granted ih hr hω

theorem same_left (hσ : SameLedger σ τ) (h : Replay τ l υ) : Replay σ l υ := by
  have := (Replay.same hσ).append h
  rwa [List.append_nil] at this

end Replay

theorem Requests.granted {c : Contract} {l : List Request} (h : Requests c σ l τ) : Replay σ l τ := by
  cases h with
  | none => exact .same (.refl σ)
  | buy h | refund h => exact .granted (.same (.refl σ)) h (.refl τ)

theorem Effect.replay {c : Contract} {ro : Bool} {l : List Request} (h : Effect c ro σ l τ)
    (hcreate : ro = true ∨ ∀ caller nonce, ¬ Reserved (createAddress caller nonce)) : Replay σ l τ := by
  induction h with
  | skip => exact .same (.refl _)
  | seq _ _ ih ih' => exact (ih hcreate).append (ih' hcreate)
  | sstore | destruct => exact .same (.of_bytes fun a => by simp)
  | requests _ h => exact h.granted
  | call _ _ _ _ _ _ ih => exact (ih hcreate).same_left (.of_bytes fun a => by simp)
  | callCode _ _ _ _ _ ih | delegateCall _ _ _ ih => exact ih hcreate
  | staticCall _ _ _ ih => exact ih (.inl rfl)
  | count => exact .same (.of_bytes fun a => by simp [Accounts.count])
  | create _ _ _ _ _ haddr _ _ ih =>
    have hfree := hcreate.resolve_left Bool.false_ne_true
    refine ((ih hcreate).same_left fun a ha => ?_).same_right (.of_bytes fun a => by simp)
    rw [Accounts.bytes_created _ _ _ _ (fun heq => hfree _ _ (haddr ▸ heq ▸ ha))]
    simp [Accounts.count]

/-! ### The ledger only grows -/

omit [Keccak] [Crypto] in
theorem Buy.grows {payer : Address} {wanAddr : Bytes} {value : ℕ}
    (h : Buy payer wanAddr value σ τ) : Grows σ τ ∧ τ.otaBalance (otaKey wanAddr) = value ∧ value ≠ 0 := by
  have hmem : value ∈ stampValueSet ++ wanCoinValueSet := List.mem_append.mpr h.value_mem
  obtain ⟨hne, hbalance, himage⟩ := otaBalance2ContractAddr_ne value hmem
  have hold {k : Hash} (hk : σ.otaBalance k ≠ 0) : k ≠ otaKey wanAddr := by
    rintro rfl
    exact hk h.fresh
  rw [h.after]
  refine ⟨⟨fun k hk => ?_, fun k hk v hv => ?_, fun k hk => ?_⟩, ?_, hne⟩
  · simp [otaBalance, bytes_setBytes, hold hk]
  · simp [bytes_setBytes, hold hk]
  · simp [bytes_setBytes, himage.symm, show otaImageStorageAddr ≠ otaBalanceStorageAddr by decide]
  · simp [otaBalance, bytes_setBytes]

omit [Keccak] [Crypto] in
theorem grows_setImage {key : Hash} (hfresh : (σ otaImageStorageAddr).bytes key = [])
    (value : Bytes) : Grows σ (σ.setBytes otaImageStorageAddr key value) := by
  refine ⟨fun k hk => ?_, fun k hk v hv => ?_, fun k hk => ?_⟩
  · simp [otaBalance, bytes_setBytes, show otaBalanceStorageAddr ≠ otaImageStorageAddr by decide]
  · simp [bytes_setBytes, (otaBalance2ContractAddr_ne v hv).2.2]
  · have hne : k ≠ key := by
      rintro rfl
      exact hk hfresh
    simp [bytes_setBytes, hne]

/-- Some slot was empty and is filled. -/
def Fills (σ τ : Accounts) : Prop :=
  ∃ k, σ.otaBalance k = 0 ∧ τ.otaBalance k ≠ 0 ∨
    (σ otaImageStorageAddr).bytes k = [] ∧ (τ otaImageStorageAddr).bytes k ≠ []

theorem Granted.grows {r : Request} (h : Granted σ τ r) : Grows σ τ := by
  cases r with
  | buy => exact (Buy.grows h).1
  | refund _ info =>
    have hafter : SameLedger (σ.setBytes otaImageStorageAddr (imageKey info) (beBytes info.otaBalance)) τ :=
      .of_bytes fun a => by simp [h.after]
    exact (grows_setImage h.fresh _).trans hafter.grows
  | stamp =>
    obtain ⟨-, hfresh, rfl⟩ := h
    exact grows_setImage hfresh _

theorem Granted.fills {r : Request} (h : Granted σ τ r) : Fills σ τ := by
  cases r with
  | buy _ wanAddr =>
    obtain ⟨-, hvalue, hne⟩ := Buy.grows h
    exact ⟨otaKey wanAddr, .inl ⟨h.fresh, by rwa [hvalue]⟩⟩
  | refund _ info =>
    refine ⟨imageKey info, .inr ⟨h.fresh, ?_⟩⟩
    simp [h.after, bytes_setBytes, h.ring.balance_ne]
  | stamp _ info =>
    obtain ⟨hring, hfresh, rfl⟩ := h
    exact ⟨imageKey info, .inr ⟨hfresh, by simp [bytes_setBytes, hring.balance_ne]⟩⟩

namespace Replay

variable {σ τ : Accounts} {l : List Request}

theorem grows (h : Replay σ l τ) : Grows σ τ := by
  induction h with
  | same h => exact h.grows
  | granted _ hr hω ih => exact (ih.trans hr.grows).trans hω.grows

theorem fills (h : Replay σ l τ) (hl : l ≠ []) : Fills σ τ := by
  cases h with
  | same => exact absurd rfl hl
  | @granted υ ω _ l r h hr hω =>
    obtain ⟨k, ⟨hbefore, hafter⟩ | ⟨hbefore, hafter⟩⟩ := hr.fills
    · -- the slot was empty at the start, for a filled one would have stayed
      refine ⟨k, .inl ⟨?_, ?_⟩⟩
      · by_contra hk
        exact hk ((h.grows.balance k hk).symm.trans hbefore)
      · rwa [hω.grows.balance k hafter]
    · refine ⟨k, .inr ⟨?_, ?_⟩⟩
      · by_contra hk
        exact hk ((h.grows.image k hk).symm.trans hbefore)
      · rwa [hω.grows.image k hafter]

end Replay

/-! ### What is recorded -/

/-- A recorded balance is an accepted one, and the full address is recorded with it, in its own bucket and in no
other. -/
structure Books (σ : Accounts) : Prop where
  value_mem : ∀ k, σ.otaBalance k ≠ 0 → σ.otaBalance k ∈ stampValueSet ++ wanCoinValueSet
  address : ∀ k, σ.otaBalance k ≠ 0 → ((σ (otaBalance2ContractAddr (σ.otaBalance k))).bytes k).length = wAddressLength ∧
      otaKey ((σ (otaBalance2ContractAddr (σ.otaBalance k))).bytes k) = k
  others : ∀ k, ∀ value ∈ stampValueSet ++ wanCoinValueSet, value ≠ σ.otaBalance k →
    (σ (otaBalance2ContractAddr value)).bytes k = []

section

omit [Keccak] [Crypto]

theorem getAXFromWanAddr_of_otaKey {wanAddr ax : Bytes} (hlen : wanAddr.length = wAddressLength)
    (hax : ax.length = hashLength) (h : otaKey wanAddr = bytesToHash ax) : getAXFromWanAddr wanAddr = .ok ax := by
  refine getAXFromWanAddr_eq_ok.mpr ⟨hlen, (bytesToHash_inj ?_ hax h.symm).symm⟩
  rw [hax, List.length_take, List.length_drop, hlen]
  rfl

theorem otaBalance2ContractAddr_inj : ∀ value ∈ stampValueSet ++ wanCoinValueSet,
    ∀ value' ∈ stampValueSet ++ wanCoinValueSet,
      otaBalance2ContractAddr value = otaBalance2ContractAddr value' → value = value' := by
  decide +kernel

theorem books_of_blank (h : ∀ a, Reserved a → ∀ k, (σ a).bytes k = []) : Books σ := by
  have hzero (k : Hash) : σ.otaBalance k = 0 := by
    rw [otaBalance, h _ (.inl rfl)]
    rfl
  exact ⟨fun k hk => absurd (hzero k) hk, fun k hk => absurd (hzero k) hk,
    fun k value hv _ => h _ (.inr (.inr ⟨value, hv, rfl⟩)) k⟩

end

namespace Books

variable {σ τ : Accounts}

section

variable (h : Books σ)

include h

section

omit [Keccak] [Crypto]

theorem congr (hbalance : ∀ k, τ.otaBalance k = σ.otaBalance k)
    (haddress : ∀ value ∈ stampValueSet ++ wanCoinValueSet,
      (τ (otaBalance2ContractAddr value)).bytes = (σ (otaBalance2ContractAddr value)).bytes) : Books τ := by
  refine ⟨fun k hk => ?_, fun k hk => ?_, fun k value hv hne => ?_⟩
  · rw [hbalance] at hk ⊢
    exact h.value_mem k hk
  · rw [hbalance] at hk ⊢
    rw [haddress _ (h.value_mem k hk)]
    exact h.address k hk
  · rw [haddress value hv]
    exact h.others k value hv (hbalance k ▸ hne)

theorem same (hsame : SameLedger σ τ) : Books τ :=
  h.congr (fun k => by rw [otaBalance, hsame _ (.inl rfl), otaBalance])
    fun value hv => hsame _ (.inr (.inr ⟨value, hv, rfl⟩))

theorem setImage (key : Hash) (value : Bytes) : Books (σ.setBytes otaImageStorageAddr key value) := by
  refine h.congr (fun k => ?_) fun v hv => ?_
  · simp [otaBalance, bytes_setBytes, show otaBalanceStorageAddr ≠ otaImageStorageAddr by decide]
  · funext k
    simp [bytes_setBytes, (otaBalance2ContractAddr_ne v hv).2.2]

theorem buy {payer : Address} {wanAddr : Bytes} {value : ℕ} (hbuy : Buy payer wanAddr value σ τ) : Books τ := by
  have hmem : value ∈ stampValueSet ++ wanCoinValueSet := List.mem_append.mpr hbuy.value_mem
  have hbalance (k : Hash) : τ.otaBalance k = if k = otaKey wanAddr then value else σ.otaBalance k := by
    have hne : otaBalanceStorageAddr ≠ otaBalance2ContractAddr value :=
      (otaBalance2ContractAddr_ne value hmem).2.1.symm
    rw [hbuy.after]
    by_cases hk : k = otaKey wanAddr <;> simp [otaBalance, bytes_setBytes, hk, hne]
  have hbytes (v : ℕ) (hv : v ∈ stampValueSet ++ wanCoinValueSet) (k : Hash) : (τ (otaBalance2ContractAddr v)).bytes k =
        if v = value ∧ k = otaKey wanAddr then wanAddr else (σ (otaBalance2ContractAddr v)).bytes k := by
    have hbucket : otaBalance2ContractAddr v = otaBalance2ContractAddr value ↔ v = value :=
      ⟨otaBalance2ContractAddr_inj v hv value hmem, fun heq => heq ▸ rfl⟩
    simp [hbuy.after, bytes_setBytes, hbucket, (otaBalance2ContractAddr_ne v hv).2.1]
  refine ⟨fun k hk => ?_, fun k hk => ?_, fun k v hv hne => ?_⟩
  · rw [hbalance] at hk ⊢
    split_ifs at hk ⊢
    · exact hmem
    · exact h.value_mem k hk
  · rw [hbalance] at hk ⊢
    split_ifs at hk ⊢ with heq
    · rw [hbytes value hmem, if_pos ⟨rfl, heq⟩]
      exact ⟨hbuy.length_eq, heq.symm⟩
    · rw [hbytes _ (h.value_mem k hk), if_neg fun hand => heq hand.2]
      exact h.address k hk
  · rw [hbalance] at hne
    split_ifs at hne with heq
    · rw [hbytes v hv, if_neg fun hand => hne hand.1]
      -- the address was in no bucket before it was bought
      refine h.others k v hv ?_
      rw [heq, hbuy.fresh]
      exact (otaBalance2ContractAddr_ne v hv).1
    · rw [hbytes v hv, if_neg fun hand => heq hand.2]
      exact h.others k v hv hne

end

theorem granted {r : Request} (hr : Granted σ τ r) : Books τ := by
  cases r with
  | buy => exact h.buy hr
  | refund _ info =>
    rw [hr.after]
    exact (h.setImage (imageKey info) (beBytes info.otaBalance)).same (.of_bytes fun a => by simp)
  | stamp =>
    obtain ⟨-, -, rfl⟩ := hr
    exact h.setImage _ _

theorem replay {l : List Request} (hreplay : Replay σ l τ) : Books τ := by
  induction hreplay with
  | same hsame => exact h.same hsame
  | granted _ hr hω ih => exact (ih.granted hr).same hω

end

end Books

end GoWanchain.Vm
