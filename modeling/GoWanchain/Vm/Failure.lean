import GoWanchain.Vm.Rounds

/-!
# The error for a missing balance

`ErrInsufficientBalance` is the one error of the virtual machine that `TransitionDb` returns, for "the first balance
transfer may never fail". A call returns it when its own caller does not have the value, and from nowhere
else: the calls that code makes put their result on the stack of the frame, and no instruction and no precompiled
contract has this error (`call_insufficient_iff`, `create_insufficient_iff`).
-/

namespace GoWanchain.Vm

open State

variable [Keccak] [Crypto] {evm : Evm} {n : ℕ}

/-- The error is another one, or there is none. -/
def Result.Other (r : Result) : Prop := r.err ≠ some .errInsufficientBalance

/-! ### Instructions -/

variable {f : Frame} {err : VmError} {r : Result} {ro : Bool} {gas : ℕ} {w : World}

omit [Keccak] [Crypto] in
theorem jumpTo_error {m pos : ℕ} (h : jumpTo m pos f = .error err) : err ≠ .errInsufficientBalance := by
  unfold jumpTo at h
  split at h
  · cases h
  · cases h
    simp

theorem execute_error {op : OpCode} (h : (operation evm op).execute f = .error err) :
    err ≠ .errInsufficientBalance := by
  cases op with
  | returnDataCopy =>
    replace h : opReturnDataCopy f = .error err := h
    simp only [opReturnDataCopy] at h
    split at h
    · cases h
      simp
    · cases h
  | signExtend =>
    replace h : opSignExtend f = .error err := h
    unfold opSignExtend at h
    split at h <;> cases h
  | jump => exact jumpTo_error h
  | jumpi =>
    replace h : opJumpi f = .error err := h
    unfold opJumpi at h
    split at h
    · exact jumpTo_error h
    · cases h
  | _ => cases h

omit [Keccak] [Crypto] in
theorem fail_other (herr : err ≠ .errInsufficientBalance) (h : f.fail err = .halt r) : r.Other := by
  cases h
  simpa [Result.Other] using herr

omit [Keccak] [Crypto] in
theorem finish_halt_other {o : Operation} {ex : Executed}
    (hex : ∀ err, ex = .error err → err ≠ .errInsufficientBalance) (h : o.finish f ex = .halt r) : r.Other := by
  unfold Operation.finish at h
  split at h
  · exact fail_other (hex _ rfl) h
  · cases h
  · split_ifs at h
    · cases h
      simp [Result.Other]
    · cases h
      simp [Result.Other]

theorem step_halt_other (h : evm.step f = .halt r) : r.Other := by
  simp only [Evm.step] at h
  split at h
  · exact fail_other (by simp) h
  rename_i op _
  simp only [Evm.stepOp] at h
  split at h
  · exact fail_other (by simp) h
  split at h
  · exact fail_other (by simp) h
  split at h
  · exact fail_other (by simp) h
  split at h
  · exact fail_other (by simp) h
  split at h
  · exact fail_other (by simp) h
  split at h
  · exact finish_halt_other (fun err herr => execute_error herr) h
  · exact fail_other (by simp) h

theorem loop_other (h : evm.loop n f = some r) : r.Other := by
  induction n generalizing f r with
  | zero => cases h
  | succ _ ih =>
    simp only [Evm.loop] at h
    split at h
    · exact ih h
    · rename_i r' hstep
      cases h
      exact step_halt_other hstep
    · exact ih h
    · obtain ⟨r', -, h⟩ := Option.bind_eq_some_iff.mp h
      exact ih h

/-! ### Precompiled contracts -/

section Precompiled

variable {db : StateDB} {w : World} {c : Contract}

section

omit [Keccak] [Crypto]

theorem getOtaBalanceFromAX_ne (ax : Bytes) : getOtaBalanceFromAX db ax ≠ .error .errInsufficientBalance :=
  bind_ne_error (ensure_ne_error (by simp)) fun _ => pure_ne_error _ _

theorem validBuyReq_ne {valueSet : List ℕ} {errBuy errValue errAX : VmError} (hbuy : errBuy ≠ .errInsufficientBalance)
    (hvalue : errValue ≠ .errInsufficientBalance) (hax : errAX ≠ .errInsufficientBalance) (payload : Bytes)
    (value : ℕ) : validBuyReq valueSet errBuy errValue errAX db payload value ≠ .error .errInsufficientBalance := by
  refine bind_ne_error (ensure_ne_error (by simp)) fun _ => ?_
  refine bind_ne_error (need_ne_error hbuy) fun _ => ?_
  refine bind_ne_error (ensure_ne_error (by simp)) fun _ => ?_
  refine bind_ne_error (ensure_ne_error hvalue) fun _ => ?_
  refine bind_ne_error (relabel_ne_error (by simp)) fun _ => ?_
  refine bind_ne_error (relabel_ne_error (by simp [hax])) fun _ => ?_
  refine bind_ne_error (bind_ne_error (getOtaBalanceFromAX_ne _) fun _ => pure_ne_error _ _) fun _ => ?_
  exact bind_ne_error (ensure_ne_error (by simp)) fun _ => pure_ne_error _ _

end

omit [Crypto] in
theorem buy_ne {validReq : StateDB → Bytes → ℕ → Except VmError Bytes} {errBuy : VmError} {payload : Bytes}
    (hreq : validReq w.db payload c.value ≠ .error .errInsufficientBalance)
    (hbuy : errBuy ≠ .errInsufficientBalance) :
    (buy validReq errBuy payload c w).2 ≠ .error .errInsufficientBalance := by
  unfold buy
  split
  · rename_i err herr
    rw [herr] at hreq
    exact hreq
  split
  · simpa using hbuy
  · simp only
    split <;> simp

omit [Keccak] in
theorem fetchRingSignInfo_ne (hashInput ringSignedStr : Bytes) :
    fetchRingSignInfo db hashInput ringSignedStr ≠ .error .errInsufficientBalance := by
  have hlong (addr : Bytes) : checkOTALongAddrExist db addr ≠ .error .errInsufficientBalance := by
    refine bind_ne_error (ensure_ne_error (by simp)) fun _ => ?_
    exact bind_ne_error (getOtaBalanceFromAX_ne _) fun _ => pure_ne_error _ _
  have hmember (balance : Option ℕ) (addr : Bytes) : batCheckOTA db balance addr ≠ .error .errInsufficientBalance := by
    refine bind_ne_error (ensure_ne_error (by simp)) fun _ => ?_
    refine bind_ne_error (hlong addr) fun _ => bind_ne_error (need_ne_error (by simp)) fun _ => ?_
    refine bind_ne_error (ensure_ne_error (by simp)) fun _ => ?_
    exact bind_ne_error (ensure_ne_error (by simp)) fun _ => pure_ne_error _ _
  refine bind_ne_error (need_ne_error (by simp)) fun _ => ?_
  refine bind_ne_error (bind_ne_error (foldlM_ne_error hmember _ _) fun _ => need_ne_error (by simp)) fun _ => ?_
  exact bind_ne_error (ensure_ne_error (by simp)) fun _ => pure_ne_error _ _

theorem validRefundReq_ne (payload hashInput : Bytes) :
    validRefundReq db payload hashInput ≠ .error .errInsufficientBalance := by
  refine bind_ne_error (ensure_ne_error (by simp)) fun _ => ?_
  refine bind_ne_error (need_ne_error (by simp)) fun _ => ?_
  refine bind_ne_error (fetchRingSignInfo_ne _ _) fun _ => ?_
  refine bind_ne_error (ensure_ne_error (by simp)) fun _ => ?_
  refine bind_ne_error (bind_ne_error (ensure_ne_error (by simp)) fun _ => pure_ne_error _ _) fun _ => ?_
  exact bind_ne_error (ensure_ne_error (by simp)) fun _ => pure_ne_error _ _

theorem refund_ne (all : Bytes) : (refund all c w).2 ≠ .error .errInsufficientBalance := by
  have hreq : validRefundReq w.db all (addressBytes c.callerAddress) ≠ .error .errInsufficientBalance :=
    validRefundReq_ne _ _
  unfold refund
  split
  · rename_i err herr
    rw [herr] at hreq
    simpa using hreq
  · rename_i kix value info _
    have hadd : addOTAImage w.db kix (beBytes value) ≠ .error .errInsufficientBalance :=
      bind_ne_error (ensure_ne_error (by simp)) fun _ => pure_ne_error _ _
    split
    · rename_i err herr
      rw [herr] at hadd
      simpa using hadd
    · simp

theorem run_ne (p : PrecompiledContract) (input : Bytes) (c : Contract) (w : World) :
    (p.run input c w).2 ≠ .error .errInsufficientBalance := by
  cases p with
  | native => exact need_ne_error (by simp)
  | wanchainStampSC =>
    simp only [PrecompiledContract.run]
    split_ifs
    · simp
    · exact buy_ne (validBuyReq_ne (by simp) (by simp) (by simp) _ _) (by simp)
    · simp
  | wanCoinSC =>
    simp only [PrecompiledContract.run]
    split_ifs
    · simp
    · exact buy_ne (validBuyReq_ne (by simp) (by simp) (by simp) _ _) (by simp)
    · exact refund_ne _
    · simp

theorem runPrecompiledContract_other (p : PrecompiledContract) (input : Bytes) (gas : ℕ) :
    (runPrecompiledContract p input c gas w).Other := by
  have hrun := run_ne p input c w
  unfold runPrecompiledContract
  split
  · split
    · simp [Result.Other]
    · rename_i w' err herr
      rw [herr] at hrun
      simpa [Result.Other] using hrun
  · simp [Result.Other]

end Precompiled

/-! ### Calls -/

theorem enter_other {c : Contract} {input : Bytes} {depth : ℕ}
    {settle : Result → Result} (hsettle : ∀ r, r.Other → (settle r).Other)
    (h : evm.finish n (enter c input ro depth gas w settle) = some r) : r.Other := by
  unfold enter at h
  split at h
  · cases h
    exact hsettle _ (runPrecompiledContract_other _ _ _)
  split at h
  · cases h
    exact hsettle _ (by simp [Result.Other])
  · obtain ⟨r₀, hr₀, rfl⟩ := Option.map_eq_some_iff.mp h
    exact hsettle _ (loop_other hr₀)

omit [Keccak] [Crypto] in
theorem settleCall_other (before : World) (h : r.Other) : (settleCall before r).Other := by
  unfold settleCall
  split
  · exact h
  · exact h

omit [Crypto] in
theorem settleCreate_other (before : World) (addr : Address) (h : r.Other) :
    (Evm.settleCreate before addr r).Other := by
  unfold Evm.settleCreate Result.Other
  cases herr : r.err with
  | some err =>
    have hne : err ≠ .errInsufficientBalance := fun heq => h (by rw [herr, heq])
    simp [herr, hne]
  | none =>
    by_cases hsize : r.ret.length > maxCodeSize
    · simp [hsize, herr]
    · by_cases hgas : r.ret.length * createDataGas ≤ r.gas <;> simp [hsize, hgas]

theorem call_insufficient_iff {caller addr : Address} {input : Bytes} {value : ℕ}
    (h : evm.finish n (evm.call 0 ro caller addr input gas value w) = some r) :
    r.err = some .errInsufficientBalance ↔ canTransfer w.db caller value = false := by
  unfold Evm.call Evm.checkCall Evm.checkTransfer at h
  rw [if_neg (by simp), if_neg (by simp)] at h
  cases hcan : canTransfer w.db caller value with
  | false =>
    rw [hcan] at h
    cases h
    simp
  | true =>
    rw [hcan, if_pos rfl] at h
    refine iff_of_false ?_ (by simp)
    simp only at h
    split at h
    · cases h
      simp
    · exact enter_other (fun _ => settleCall_other w) h

theorem create_insufficient_iff {caller : Address} {code : Bytes} {value : ℕ}
    (h : evm.finish n (evm.create 0 ro caller code gas value w) = some r) :
    r.err = some .errInsufficientBalance ↔ canTransfer w.db caller value = false := by
  unfold Evm.create Evm.checkTransfer at h
  rw [if_neg (by simp)] at h
  cases hcan : canTransfer w.db caller value with
  | false =>
    rw [hcan] at h
    cases h
    simp
  | true =>
    rw [hcan, if_pos rfl] at h
    refine iff_of_false ?_ (by simp)
    simp only at h
    split at h
    · cases h
      simp
    split at h
    · cases h
      simp
    · exact enter_other (fun _ => settleCreate_other _ _) h

end GoWanchain.Vm
