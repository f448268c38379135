import GoWanchain.Vm.Rounds

/-!
# Runs end

Every round that goes on costs gas, and a call is given less gas than its frame has and returns no more
than it was given. So a frame ends within as many rounds as it has gas (`loop_total`), and the calls of the virtual
machine are functions. A frame that has ended ends in the same way when more rounds are allowed
(`loop_mono`), so that the bound does not matter.
-/

namespace GoWanchain.Vm

open State

variable [Keccak] [Crypto] {evm : Evm}

/-- No more gas comes back than was given. -/
def Entry.Within (gas : ℕ) : Entry → Prop
  | .done r => r.gas ≤ gas
  | .run child settle => child.gas ≤ gas ∧ ∀ r, r.gas ≤ child.gas → (settle r).gas ≤ gas

omit [Keccak] [Crypto] in
theorem settleCall_gas_le (before : World) (r : Result) : (settleCall before r).gas ≤ r.gas := by
  unfold settleCall
  split
  · exact le_rfl
  · simp only
    split <;> simp

omit [Crypto] in
theorem settleCreate_gas_le (before : World) (contractAddr : Address) (r : Result) :
    (Evm.settleCreate before contractAddr r).gas ≤ r.gas := by
  unfold Evm.settleCreate
  simp only
  split_ifs <;> simp

theorem runPrecompiledContract_gas_le (p : PrecompiledContract) (input : Bytes) (contract : Contract)
    (gas : ℕ) (w : World) : (runPrecompiledContract p input contract gas w).gas ≤ gas := by
  unfold runPrecompiledContract
  split
  · split <;> simp
  · exact le_rfl

theorem within_enter (contract : Contract) (input : Bytes) (readOnly : Bool) (depth gas : ℕ) (w : World)
    {settle : Result → Result} (hsettle : ∀ r, (settle r).gas ≤ r.gas) :
    (enter contract input readOnly depth gas w settle).Within gas := by
  unfold enter
  split
  · exact (hsettle _).trans (runPrecompiledContract_gas_le _ _ _ _ _)
  · split
    · exact hsettle _
    · exact ⟨le_rfl, fun r hr => (hsettle r).trans hr⟩

variable {gas : ℕ} {w : World} {entry : Entry}

omit [Keccak] [Crypto] in
theorem within_checkCall {depth : ℕ} {k : Entry} (hk : k.Within gas) : (evm.checkCall depth gas w k).Within gas := by
  unfold Evm.checkCall
  split_ifs
  · exact le_rfl
  · exact le_rfl
  · exact hk

omit [Keccak] [Crypto] in
theorem within_checkTransfer {caller : Address} {value : ℕ} {k : Entry}
    (hk : k.Within gas) : (Evm.checkTransfer caller gas value w k).Within gas := by
  unfold Evm.checkTransfer
  split
  · exact hk
  · exact le_rfl

theorem within_call (evm : Evm) (depth : ℕ) (readOnly : Bool) (caller addr : Address) (input : Bytes)
    (gas value : ℕ) (w : World) : (evm.call depth readOnly caller addr input gas value w).Within gas := by
  refine within_checkCall (within_checkTransfer ?_)
  simp only
  split
  · exact le_rfl
  · exact within_enter _ _ _ _ _ _ (settleCall_gas_le w)

theorem within_create (evm : Evm) (depth : ℕ) (readOnly : Bool) (caller : Address) (code : Bytes)
    (gas value : ℕ) (w : World) : (evm.create depth readOnly caller code gas value w).Within gas := by
  unfold Evm.create
  split
  · exact le_rfl
  refine within_checkTransfer ?_
  simp only
  split
  · exact Nat.zero_le _
  split
  · exact le_rfl
  · exact within_enter _ _ _ _ _ _ (settleCreate_gas_le _ _)

theorem within_staticCall (evm : Evm) (depth : ℕ) (caller addr : Address) (input : Bytes) (gas : ℕ)
    (w : World) : (evm.staticCall depth caller addr input gas w).Within gas :=
  within_checkCall (within_enter _ _ _ _ _ _ (settleCall_gas_le w))

theorem within_callCode (evm : Evm) (depth : ℕ) (readOnly : Bool) (caller addr : Address) (input : Bytes)
    (gas value : ℕ) (w : World) : (evm.callCode depth readOnly caller addr input gas value w).Within gas :=
  within_checkCall (within_checkTransfer (within_enter _ _ _ _ _ _ (settleCall_gas_le w)))

theorem within_delegateCall (evm : Evm) (depth : ℕ) (readOnly : Bool) (parent : Contract) (addr : Address)
    (input : Bytes) (gas : ℕ) (w : World) : (evm.delegateCall depth readOnly parent addr input gas w).Within gas :=
  within_checkCall (within_enter _ _ _ _ _ _ (settleCall_gas_le w))

theorem Call.within {s : Scope} (h : Call evm s w gas entry) : entry.Within gas := by
  cases h with
  | call => exact within_call evm _ _ _ _ _ _ _ _
  | callCode => exact within_callCode evm _ _ _ _ _ _ _ _
  | delegateCall => exact within_delegateCall evm _ _ _ _ _ _ _
  | staticCall => exact within_staticCall evm _ _ _ _ _ _
  | create => exact within_create evm _ _ _ _ _ _ _

/-- A frame ends, within as many rounds as it has gas. -/
theorem loop_total (evm : Evm) {n : ℕ} {f : Frame} (h : f.gas < n) : ∃ r, evm.loop n f = some r ∧ r.gas ≤ f.gas := by
  induction n generalizing f with
  | zero => omega
  | succ n ih =>
    have hround := step_round evm f
    -- the frame that goes on has less gas, and what it returns is no more than that
    have hgoes {f' : Frame} (hlt : f'.gas < f.gas) : ∃ r, evm.loop n f' = some r ∧ r.gas ≤ f.gas := by
      obtain ⟨r, hr, hle⟩ := ih (f := f') (by omega)
      exact ⟨r, hr, by omega⟩
    simp only [Evm.loop]
    generalize evm.step f = outcome at hround ⊢
    cases hround with
    | @halt r hgas hworld => exact ⟨r, rfl, hgas⟩
    | @destruct r w hro hgas hworld beneficiary hr => exact ⟨r, rfl, hgas⟩
    | next _ hgas | sstore _ _ hgas => exact hgoes hgas
    | @spawn entry resume gas hcall hgas hscope hworld hresume =>
      have hwithin := hcall.within
      cases entry with
      | done r => exact hgoes (hresume r hwithin)
      | run child =>
        obtain ⟨hchild, hsettle⟩ := hwithin
        obtain ⟨r, hr, hle⟩ := ih (f := child) (by omega)
        simp only [hr, Option.bind_some]
        exact hgoes (hresume _ (hsettle r hle))

theorem Evm.loop_succ (evm : Evm) (n : ℕ) (f : Frame) : evm.loop (n + 1) f = match evm.step f with
    | .next f' => evm.loop n f'
    | .halt r => some r
    | .spawn entry resume => (evm.finish n entry).bind fun r => evm.loop n (resume r) := by
  rw [Evm.loop]
  cases evm.step f with
  | spawn entry =>
    cases entry with
    | done => rfl
    | run => simp [Evm.finish, Option.bind_map]
  | _ => rfl

theorem loop_mono {n m : ℕ} {f : Frame} {r : Result} (h : evm.loop n f = some r) (hle : n ≤ m) :
    evm.loop m f = some r := by
  induction n generalizing f m r with
  | zero => cases h
  | succ n ih =>
    obtain ⟨m, rfl⟩ : ∃ k, m = k + 1 := ⟨m - 1, by omega⟩
    have hle : n ≤ m := by omega
    simp only [Evm.loop] at h ⊢
    split
    · exact ih (by simpa [*] using h) hle
    · simpa [*] using h
    · exact ih (by simpa [*] using h) hle
    · simp only [*, Option.bind_eq_some_iff] at h ⊢
      obtain ⟨r', hr', h⟩ := h
      exact ⟨r', ih hr' hle, ih h hle⟩

theorem Entry.Within.finish_isSome (evm : Evm) (h : entry.Within gas) :
    ∃ r, evm.finish (gas + 1) entry = some r ∧ r.gas ≤ gas := by
  cases entry with
  | done r => exact ⟨r, rfl, h⟩
  | run child settle =>
    obtain ⟨r, hr, hle⟩ := loop_total evm (n := gas + 1) (f := child) (Nat.lt_succ_of_le h.1)
    exact ⟨settle r, by simp [Evm.finish, hr], h.2 r hle⟩

def Evm.result (evm : Evm) (gas : ℕ) (entry : Entry) (h : entry.Within gas) : Result :=
  (evm.finish (gas + 1) entry).get (by
    obtain ⟨r, hr, -⟩ := h.finish_isSome evm
    simp [hr])

theorem Evm.finish_result (evm : Evm) (h : entry.Within gas) :
    evm.finish (gas + 1) entry = some (evm.result gas entry h) := by
  simp [Evm.result]

theorem Evm.result_gas_le (evm : Evm) (h : entry.Within gas) : (evm.result gas entry h).gas ≤ gas := by
  obtain ⟨r, hr, hle⟩ := h.finish_isSome evm
  rw [evm.finish_result h] at hr
  cases hr
  exact hle

end GoWanchain.Vm
