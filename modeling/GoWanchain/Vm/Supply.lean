import GoWanchain.Vm.Spending

/-!
# The supply of coins

The coins are in the balances of the accounts and in the one-time addresses that are not spent. A purchase and a
refund move them from the ones to the others, a transfer moves them among the accounts. So a call of an account
without code, or of a privacy contract, keeps the total (`Effect.total_eq`), for nothing else can happen there.
-/

namespace GoWanchain.Vm

open State

namespace Accounts

/-- All balances, and the one-time addresses that are not spent. -/
noncomputable def total (σ : Accounts) : ℤ :=
  ∑ a, (σ a).balance + ∑ k, (σ.otaBalance k : ℤ) - ∑ i, (σ.imageValue i : ℤ)

variable {σ τ : Accounts}

theorem total_congr (hbalance : ∀ a, (τ a).balance = (σ a).balance)
    (hota : (τ otaBalanceStorageAddr).bytes = (σ otaBalanceStorageAddr).bytes)
    (himage : (τ otaImageStorageAddr).bytes = (σ otaImageStorageAddr).bytes) : τ.total = σ.total := by
  simp only [total, otaBalance, imageValue, hbalance, hota, himage]

theorem total_credit (σ : Accounts) (a : Address) (amount : ℤ) : (σ.credit a amount).total = σ.total + amount := by
  simp only [total, otaBalance, imageValue, balance_credit, bytes_credit, Finset.sum_add_distrib, Finset.sum_ite_eq',
    Finset.mem_univ, if_true]
  ring

theorem total_opened (σ : Accounts) (caller addr : Address) (value : ℕ) :
    (σ.opened caller addr value).total = σ.total := by
  unfold opened
  split
  · rw [transfer, total_credit, total_credit]
    ring
  · rfl

theorem total_setBalance {key : Hash} (h : σ.otaBalance key = 0) (value : ℕ) :
    (σ.setBytes otaBalanceStorageAddr key (beBytes value)).total = σ.total + value := by
  have hota (k : Hash) : (otaBalance (σ.setBytes otaBalanceStorageAddr key (beBytes value)) k : ℤ) =
      σ.otaBalance k + if k = key then (value : ℤ) else 0 := by
    by_cases hk : k = key
    · simp [otaBalance, bytes_setBytes, hk, show beNat ((σ otaBalanceStorageAddr).bytes key) = 0 from h]
    · simp [otaBalance, bytes_setBytes, hk]
  have himage (i : Hash) : imageValue (σ.setBytes otaBalanceStorageAddr key (beBytes value)) i = σ.imageValue i := by
    simp [imageValue, bytes_setBytes, show otaImageStorageAddr ≠ otaBalanceStorageAddr by decide]
  simp only [total, hota, himage, balance_setBytes, Finset.sum_add_distrib, Finset.sum_ite_eq', Finset.mem_univ,
    if_true]
  ring

theorem total_setImage {key : Hash} (h : (σ otaImageStorageAddr).bytes key = []) (value : ℕ) :
    (σ.setBytes otaImageStorageAddr key (beBytes value)).total = σ.total - value := by
  have himage (i : Hash) : (imageValue (σ.setBytes otaImageStorageAddr key (beBytes value)) i : ℤ) =
      σ.imageValue i + if i = key then (value : ℤ) else 0 := by
    by_cases hi : i = key
    · simp [imageValue, bytes_setBytes, hi, h]
    · simp [imageValue, bytes_setBytes, hi]
  have hota (k : Hash) : otaBalance (σ.setBytes otaImageStorageAddr key (beBytes value)) k = σ.otaBalance k := by
    simp [otaBalance, bytes_setBytes, show otaBalanceStorageAddr ≠ otaImageStorageAddr by decide]
  simp only [total, hota, himage, balance_setBytes, Finset.sum_add_distrib, Finset.sum_ite_eq', Finset.mem_univ,
    if_true]
  ring

end Accounts

open Accounts

variable {σ τ : Accounts}

theorem Buy.total_eq {payer : Address} {wanAddr : Bytes} {value : ℕ} (h : Buy payer wanAddr value σ τ) :
    τ.total = σ.total := by
  obtain ⟨-, hbalance, himage⟩ := otaBalance2ContractAddr_ne value (List.mem_append.mpr h.value_mem)
  have hbucket : (σ.setBytes (otaBalance2ContractAddr value) (otaKey wanAddr) wanAddr).total = σ.total := by
    refine total_congr (fun a => by simp) ?_ ?_
    · funext k
      simp [bytes_setBytes, hbalance.symm]
    · funext k
      simp [bytes_setBytes, himage.symm]
  have hfresh : otaBalance (σ.setBytes (otaBalance2ContractAddr value) (otaKey wanAddr) wanAddr)
      (otaKey wanAddr) = 0 := by
    rw [otaBalance, bytes_setBytes, if_neg fun hand => hbalance hand.1.symm]
    exact h.fresh
  rw [h.after, total_credit, total_setBalance hfresh, hbucket]
  ring

variable [Keccak] [Crypto]

theorem Refund.total_eq {payee : Address} {info : RingSignInfo} (h : Refund payee info σ τ) : τ.total = σ.total := by
  rw [h.after, total_credit, total_setImage h.fresh]
  ring

theorem Requests.total_eq {c : Contract} {l : List Request} (h : Requests c σ l τ) : τ.total = σ.total := by
  cases h with
  | none => rfl
  | buy h | refund h => exact h.total_eq

theorem Effect.total_eq {c : Contract} {ro : Bool} {l : List Request} (h : Effect c ro σ l τ) (hc : ¬ c.Runs) :
    τ.total = σ.total := by
  induction h with
  | skip => rfl
  | seq _ _ ih ih' => exact (ih' hc).trans (ih hc)
  | requests _ h => exact h.total_eq
  | sstore hruns | destruct hruns | call hruns | callCode hruns | delegateCall hruns | staticCall hruns
  | count hruns | create hruns =>
    exact absurd hruns hc

end GoWanchain.Vm
