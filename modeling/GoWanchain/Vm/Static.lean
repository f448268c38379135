import GoWanchain.Vm.Ledger

/-!
# Static calls

The interpreter refuses the instructions that write while a static call is running, and it refuses a `CALL`
with a value. Code then changes no account, however the calls are nested (`Effect.pure`). But the check
stands in the interpreter's loop: a native contract does not pass it, and the privacy contracts write.
-/

namespace GoWanchain.Vm

open State

theorem Accounts.opened_zero (σ : Accounts) (caller addr : Address) : σ.opened caller addr 0 = σ := by
  have hcredit (τ : Accounts) (a : Address) : τ.credit a 0 = τ := by
    rw [Accounts.credit, add_zero, Function.update_eq_self]
  unfold Accounts.opened Accounts.transfer
  split
  · rw [Nat.cast_zero, neg_zero, hcredit, hcredit]
  · rfl

theorem not_fills_self (σ : Accounts) : ¬ Fills σ σ := by
  rintro ⟨k, ⟨h, h'⟩ | ⟨h, h'⟩⟩
  · exact h' h
  · exact h' h

section

variable [Keccak] [Crypto]

theorem Effect.pure {c : Contract} {ro : Bool} {σ τ : Accounts} {l : List Request} (h : Effect c ro σ l τ)
    (hro : ro = true) (hl : l = []) : τ = σ := by
  induction h with
  | skip => rfl
  | seq _ _ ih ih' =>
    obtain ⟨hl', hl⟩ := List.append_eq_nil_iff.mp hl
    rw [ih' hro hl', ih hro hl]
  | sstore | destruct | count | create => cases hro
  | requests _ h =>
    cases h with
    | none => rfl
    | buy | refund => cases hl
  | call _ _ _ _ hzero _ ih =>
    obtain rfl := hzero hro
    rw [ih hro hl, Accounts.opened_zero]
  | callCode _ _ _ _ _ ih | delegateCall _ _ _ ih => exact ih hro hl
  | staticCall _ _ _ ih => exact ih rfl hl

end

namespace Sample

attribute [local instance] State.Sample.keccak Sample.crypto

def evm : Evm where
  context := ⟨fun _ => 0, 0, 1, 0, 0, 1, 0, 0⟩
  vmConfig := {}

def member : PublicKey := ⟨1, 2⟩

def wanAddr : Bytes := ecdsaPKCompression member ++ List.replicate 33 0

def noteWorld : World where
  db := ((StateDB.new (fun _ => none) fun _ => none).setStateByteArray
    (otaBalance2ContractAddr (10 ^ 19)) (otaKey wanAddr) wanAddr).setStateByteArray
    otaBalanceStorageAddr (otaKey wanAddr) (beBytes (10 ^ 19))
  accepted := []

theorem noteWorld_wf : noteWorld.db.WF := by
  have hnew : (StateDB.new (fun _ => none) fun _ => none).WF := .new _ _
  simp only [noteWorld]
  exact (leads_setStateByteArray _ _ _ _ (leads_setStateByteArray _ _ _ _ hnew).1).1

def refundInput : Bytes := packStringUint refundIdArr (encodeRingSignOut member member) (10 ^ 19)

end Sample

end GoWanchain.Vm
