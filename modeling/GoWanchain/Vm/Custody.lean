import GoWanchain.State.Archive
import GoWanchain.Vm.Ledger

/-!
# The accounts that hold the ledger

The reserved accounts are archives: they have no code, so that no frame runs for one of them, and what runs
for other contracts writes words and code to the accounts of these only. So whatever a call does to a state
with archives, the errors and the reverts included, is work that keeps them (`Custody`), and the ledger is
found again in the next block.
-/

namespace GoWanchain.Vm

open State

variable [Keccak]

/-- The work that leads from `s` to `t` keeps the archives of `s`. -/
def Custody (s t : StateDB) : Prop :=
  s.Archives Reserved → StateDB.Works (JournalEntry.Files Reserved) s t

namespace Custody

variable {s t u : StateDB}

theorem refl (s : StateDB) : Custody s s := fun _ => .refl

theorem trans (h : Custody s t) (h' : Custody t u) : Custody s u :=
  fun hs => (h hs).trans (h' (hs.works (h hs)))

theorem works (h : StateDB.Works (JournalEntry.Files Reserved) s t) : Custody s t := fun _ => h

theorem snapshot (s : StateDB) : Custody s s.snapshot := works (.snapshot .refl)

theorem revert (h : Custody s t) (revid : ℕ) : Custody s ((t.revertToSnapshot revid).getD t) := by
  cases hrevert : t.revertToSnapshot revid with
  | none => exact h
  | some => exact fun hs => (h hs).revert hrevert

theorem archives (h : Custody s t) (hs : s.Archives Reserved) : t.Archives Reserved := hs.works (h hs)

end Custody

/-! ### The operations of the machine -/

section Operations

variable (db : StateDB)

theorem custody_setNonce (a : Address) (nonce : UInt64) : Custody db (db.setNonce a nonce) :=
  .works (StateDB.works_change db a fun _ => trivial)

theorem custody_setStateByteArray (a : Address) (key : Hash) (value : Bytes) :
    Custody db (db.setStateByteArray a key value) :=
  .works (StateDB.works_change db a fun _ => trivial)

theorem custody_addBalance (a : Address) (amount : ℤ) : Custody db (db.addBalance a amount) :=
  .works (StateDB.works_addBalance db a amount)

theorem custody_subBalance (a : Address) (amount : ℤ) : Custody db (db.subBalance a amount) :=
  .works (StateDB.works_subBalance db a amount)

theorem custody_createAccount (a : Address) : Custody db (db.createAccount a) :=
  .works (StateDB.works_createAccount db a)

variable {a : Address}

theorem custody_transfer (sender recipient : Address) (amount : ℕ) : Custody db (transfer db sender recipient amount) :=
  (custody_subBalance db sender amount).trans (custody_addBalance _ recipient amount)

theorem custody_openCall (caller addr : Address) (value : ℕ) : Custody db (Evm.openCall caller addr value db) := by
  have hexist : Custody db (if db.exist addr then db else db.createAccount addr) := by
    split
    · exact .refl _
    · exact custody_createAccount db addr
  unfold Evm.openCall
  simp only
  split
  · exact hexist.trans (custody_transfer _ caller addr value)
  · exact hexist

theorem custody_openCreate (caller addr : Address) (value : ℕ) : Custody db (Evm.openCreate caller addr value db) :=
  ((custody_createAccount db addr).trans (custody_setNonce _ addr 1)).trans (custody_transfer _ caller addr value)

theorem Quiet.custody {w w' : World} (h : Quiet w w') : Custody w.db w'.db :=
  .works (StateDB.works_of_moves w.db h.moves fun _ ha => by cases ha)

theorem custody_destruct (w : World) (ha : ¬ Reserved a) (beneficiary : Address) :
    Custody w.db (w.destruct a beneficiary).db := by
  refine (custody_addBalance w.db beneficiary (w.db.getBalance a)).trans (.works ?_)
  refine StateDB.works_of_moves _ (StateDB.suicide_moves _ a) fun b hb => ?_
  cases hb
  exact ha

end Operations

variable {s : StateDB} {w : World} {r : Result} {gas : ℕ}

theorem Writes.custody {contract : Contract} {t : StateDB} (h : Writes contract s t) : Custody s t := by
  have hrecorded (key : Hash) (wanAddr value : Bytes) : Custody s
      ((s.setStateByteArray (otaBalance2ContractAddr contract.value) key wanAddr).setStateByteArray
        otaBalanceStorageAddr key value) :=
    (custody_setStateByteArray _ _ _ _).trans (custody_setStateByteArray _ _ _ _)
  cases h with
  | none => exact .refl _
  | recorded => exact hrecorded _ _ _
  | bought => exact (hrecorded _ _ _).trans (custody_subBalance _ _ _)
  | refunded => exact (custody_setStateByteArray _ _ _ _).trans (custody_addBalance _ _ _)

/-! ### Calls -/

variable [Crypto] {evm : Evm} {n : ℕ}

theorem runPrecompiledContract_custody {contract : Contract} (p : PrecompiledContract) (input : Bytes)
    (gas : ℕ) : Custody w.db (runPrecompiledContract p input contract gas w).world.db := by
  have hrun : Custody w.db (p.run input contract w).1.db := PrecompiledContract.run_writes.custody
  unfold runPrecompiledContract
  split
  · split <;> rename_i heq <;> rwa [heq] at hrun
  · exact .refl _

omit [Crypto] in
theorem settleCall_custody (before : World) (h : Custody s r.world.db) : Custody s (settleCall before r).world.db := by
  unfold settleCall
  split
  · exact h
  · exact h.revert _

omit [Crypto] in
theorem settleCreate_custody (before : World) {addr : Address} (haddr : ¬ Reserved addr)
    (h : Custody s r.world.db) : Custody s (Evm.settleCreate before addr r).world.db := by
  rcases settleCreate_cases before addr r with ⟨-, gas, hres⟩ | ⟨gas, err, hres⟩
  · rw [hres]
    exact h.trans (.works (StateDB.works_change _ _ fun hr => absurd hr haddr))
  · rw [hres]
    exact h.revert _

/-- Frames that run for other accounts keep the archives. -/
def Guards (evm : Evm) (n : ℕ) : Prop := ∀ f r, evm.loop n f = some r → ¬ Reserved f.self →
  Custody f.world.db r.world.db

theorem enter_custody (hrun : Guards evm n) {c : Contract} {input : Bytes} {ro : Bool} {depth : ℕ}
    {settle : Result → Result}
    (hsettle : ∀ r₀, Custody s r₀.world.db → Custody s (settle r₀).world.db) (hw : Custody s w.db)
    (hself : w.db.Archives Reserved → c.code ≠ [] → ¬ Reserved c.self)
    (h : evm.finish n (enter c input ro depth gas w settle) = some r) : Custody s r.world.db := by
  unfold enter at h
  split at h
  · cases h
    exact hsettle _ (hw.trans (runPrecompiledContract_custody _ _ _))
  split at h
  · cases h
    exact hsettle _ hw
  · rename_i hcode
    obtain ⟨r₀, hr₀, rfl⟩ := Option.map_eq_some_iff.mp h
    refine hsettle r₀ fun hs => ?_
    exact (hw.trans (hrun _ _ hr₀ (hself (hw.archives hs) hcode))) hs

omit [Crypto] in
theorem not_reserved_of_code {db : StateDB} {a : Address} (hdb : db.Archives Reserved) (hcode : db.getCode a ≠ []) :
    ¬ Reserved a := by
  intro ha
  rw [StateDB.getCode_eq, hdb.code_eq ha] at hcode
  exact hcode rfl

theorem checkCall_custody {depth : ℕ} {k : Entry} (h : evm.finish n (evm.checkCall depth gas w k) = some r)
    (hk : evm.finish n k = some r → Custody w.db r.world.db) : Custody w.db r.world.db := by
  unfold Evm.checkCall at h
  split_ifs at h
  · cases h
    exact .refl _
  · cases h
    exact .refl _
  · exact hk h

theorem checkTransfer_custody {caller : Address} {value : ℕ} {k : Entry}
    (h : evm.finish n (Evm.checkTransfer caller gas value w k) = some r)
    (hk : evm.finish n k = some r → Custody w.db r.world.db) : Custody w.db r.world.db := by
  unfold Evm.checkTransfer at h
  split_ifs at h
  · exact hk h
  · cases h
    exact .refl _

section Entries

variable (hrun : Guards evm n) {depth : ℕ} {ro : Bool} {caller addr : Address} {input : Bytes} {gas value : ℕ}
  {w : World} {r : Result}
include hrun

theorem call_custody (h : evm.finish n (evm.call depth ro caller addr input gas value w) = some r) :
    Custody w.db r.world.db := by
  refine checkCall_custody h fun h => checkTransfer_custody h fun h => ?_
  simp only at h
  split at h
  · cases h
    exact .snapshot _
  · exact enter_custody hrun (fun _ => settleCall_custody w)
      ((Custody.snapshot w.db).trans (custody_openCall _ caller addr value)) not_reserved_of_code h

theorem callCode_custody (hcaller : ¬ Reserved caller)
    (h : evm.finish n (evm.callCode depth ro caller addr input gas value w) = some r) : Custody w.db r.world.db := by
  refine checkCall_custody h fun h => checkTransfer_custody h fun h => ?_
  refine enter_custody hrun (fun _ => settleCall_custody w) (Custody.snapshot w.db) (fun _ _ => ?_) h
  exact hcaller

theorem delegateCall_custody {parent : Contract} (hparent : ¬ Reserved parent.self)
    (h : evm.finish n (evm.delegateCall depth ro parent addr input gas w) = some r) : Custody w.db r.world.db := by
  refine checkCall_custody h fun h => ?_
  refine enter_custody hrun (fun _ => settleCall_custody w) (Custody.snapshot w.db) (fun _ _ => ?_) h
  exact hparent

theorem staticCall_custody (h : evm.finish n (evm.staticCall depth caller addr input gas w) = some r) :
    Custody w.db r.world.db := by
  refine checkCall_custody h fun h => ?_
  exact enter_custody hrun (fun _ => settleCall_custody w) (.snapshot w.db) not_reserved_of_code h

theorem create_custody (hcreate : ∀ caller nonce, ¬ Reserved (createAddress caller nonce)) {code : Bytes}
    (h : evm.finish n (evm.create depth ro caller code gas value w) = some r) : Custody w.db r.world.db := by
  unfold Evm.create at h
  split at h
  · cases h
    exact .refl _
  refine checkTransfer_custody h fun h => ?_
  simp only at h
  have hfree := hcreate caller (w.db.getNonce caller)
  generalize createAddress caller (w.db.getNonce caller) = addr at h hfree
  have hcounted := custody_setNonce w.db caller (w.db.getNonce caller + 1)
  have hopened := (hcounted.trans (.snapshot _)).trans (custody_openCreate _ caller addr value)
  split at h
  · cases h
    exact hcounted
  split at h
  · cases h
    exact hopened
  · exact enter_custody hrun (fun _ => settleCreate_custody _ hfree) hopened (fun _ _ => hfree) h

end Entries

/-- No contract is created at a reserved address, so that no frame runs for one. -/
theorem loop_custody (evm : Evm) (hcreate : ∀ caller nonce, ¬ Reserved (createAddress caller nonce)) (n : ℕ) :
    Guards evm n := by
  induction n with
  | zero =>
    intro f r h
    cases h
  | succ n ih =>
    intro f r h hself
    -- what the round does, and then the rest of the run
    have hgoes {f' : Frame} (hscope : f'.scope = f.scope) (hround : Custody f.world.db f'.world.db)
        (h : evm.loop n f' = some r) : Custody f.world.db r.world.db := by
      have hself' : ¬ Reserved f'.self := by rwa [Frame.self, hscope]
      exact hround.trans (ih f' r h hself')
    have hround := step_round evm f
    rw [Evm.loop_succ] at h
    generalize evm.step f = outcome at hround h
    cases hround with
    | halt _ hworld =>
      cases h
      exact hworld.custody
    | destruct _ _ hworld beneficiary hr =>
      cases h
      rw [hr]
      exact hworld.custody.trans (custody_destruct _ hself beneficiary)
    | next hscope _ hworld => exact hgoes hscope hworld.custody h
    | sstore _ hscope _ hworld loc val hf =>
      refine hgoes hscope ?_ h
      rw [hf]
      exact hworld.custody.trans (.works (StateDB.works_change _ _ fun hr => absurd hr hself))
    | spawn hcall _ hscope hworld =>
      obtain ⟨r₁, hr₁, h⟩ := Option.bind_eq_some_iff.mp h
      refine hgoes (hscope r₁) ?_ h
      rw [hworld r₁]
      cases hcall with
      | call => exact call_custody ih hr₁
      | callCode => exact callCode_custody ih hself hr₁
      | delegateCall => exact delegateCall_custody ih hself hr₁
      | staticCall => exact staticCall_custody ih hr₁
      | create => exact create_custody ih hcreate hr₁

/-! ### Worlds -/

/-- What the calls do to a world, failed ones included: reverts to earlier states stay possible, the archives are kept,
and the requests that were granted account for the ledger. -/
structure Advances (w v : World) : Prop where
  leads : w.db.Leads v.db
  custody : Custody w.db v.db
  replay : w.db.WF → ∃ l, v.accepted = l ++ w.accepted ∧ Replay w.db.content l v.db.content

namespace Advances

variable {w v u : World}

theorem of_same (hleads : w.db.Leads v.db) (hcustody : Custody w.db v.db) (haccepted : v.accepted = w.accepted)
    (h : SameLedger w.db.content v.db.content) : Advances w v :=
  ⟨hleads, hcustody, fun _ => ⟨[], haccepted, .same h⟩⟩

theorem refl (w : World) : Advances w w := of_same (.refl _) (.refl _) rfl (.refl _)

theorem trans (h : Advances w v) (h' : Advances v u) : Advances w u where
  leads := h.leads.trans h'.leads
  custody := h.custody.trans h'.custody
  replay hw := by
    obtain ⟨l, hl, hreplay⟩ := h.replay hw
    obtain ⟨l', hl', hreplay'⟩ := h'.replay (h.leads hw).1
    exact ⟨l' ++ l, by rw [hl', hl, List.append_assoc], hreplay.append hreplay'⟩

theorem snapshot (w : World) : Advances w (w.onDB (·.snapshot)) :=
  of_same (.snapshot _) (.snapshot _) rfl (.refl _)

theorem revert (h : Advances (w.onDB (·.snapshot)) v) : Advances w (v.revert w) where
  leads hw := (revert_spec (r := ⟨[], 0, none, v⟩) hw h.leads).1 hw
  custody := ((Custody.snapshot w.db).trans h.custody).revert _
  replay hw := ⟨[], rfl, .same fun a _ => by rw [(revert_spec (r := ⟨[], 0, none, v⟩) hw h.leads).2]⟩

theorem of_settled {E : List Request → Accounts → Prop} {r : Result} (hcustody : Custody w.db r.world.db)
    (h : w.db.WF → Settled E w r) (hE : ∀ l τ, E l τ → Replay w.db.content l τ) : Advances w r.world where
  leads hw := (h hw).leads hw
  custody := hcustody
  replay hw := by
    obtain ⟨-, l, hl, ⟨rfl, hsame⟩ | heffect⟩ := h hw
    · exact ⟨[], hl, .same fun a _ => by rw [hsame]⟩
    · exact ⟨l, hl, hE l _ heffect⟩

end Advances

theorem advances_addBalance (w : World) (a : Address) (amount : ℕ) : Advances w (w.onDB (·.addBalance a amount)) := by
  refine .of_same (.moves (StateDB.addBalance_moves _ _ _)) (custody_addBalance _ _ _) rfl (.of_bytes fun b => ?_)
  show ((w.db.addBalance a amount).content b).bytes = _
  rw [content_addBalance, Accounts.bytes_credit]

theorem advances_subBalance (w : World) (a : Address) (amount : ℕ) : Advances w (w.onDB (·.subBalance a amount)) := by
  refine .of_same (.moves (StateDB.subBalance_moves _ _ _)) (custody_subBalance _ _ _) rfl (.of_bytes fun b => ?_)
  show ((w.db.subBalance a amount).content b).bytes = _
  rw [content_subBalance, Accounts.bytes_credit]

theorem advances_setNonce (w : World) (a : Address) (nonce : UInt64) : Advances w (w.onDB (·.setNonce a nonce)) := by
  refine .of_same (.moves (StateDB.change_moves _ _ (.nonceChange nonce))) (custody_setNonce _ _ _) rfl
    (.of_bytes fun b => ?_)
  show ((w.db.setNonce a nonce).content b).bytes = _
  rw [StateDB.content_setNonce]
  exact Accounts.bytes_setNonce w.db.content a b nonce

section Machine

variable (hcreate : ∀ caller nonce, ¬ Reserved (createAddress caller nonce)) {depth : ℕ} {ro : Bool}
  {caller addr : Address} {input : Bytes} {gas value : ℕ} {w : World} {r : Result}
include hcreate

theorem call_advances (h : evm.finish n (evm.call depth ro caller addr input gas value w) = some r) :
    Advances w r.world :=
  .of_settled (call_custody (loop_custody evm hcreate n) h) (fun hw => call_settled (loop_ran evm n) hw h)
    fun _ _ he => (he.2.replay (.inr hcreate)).same_left (.of_bytes fun a => by simp)

theorem callCode_advances (hcaller : ¬ Reserved caller)
    (h : evm.finish n (evm.callCode depth ro caller addr input gas value w) = some r) : Advances w r.world :=
  .of_settled (callCode_custody (loop_custody evm hcreate n) hcaller h)
    (fun hw => callCode_settled (loop_ran evm n) hw h) fun _ _ he => he.2.replay (.inr hcreate)

theorem delegateCall_advances {parent : Contract} (hparent : ¬ Reserved parent.self)
    (h : evm.finish n (evm.delegateCall depth ro parent addr input gas w) = some r) : Advances w r.world :=
  .of_settled (delegateCall_custody (loop_custody evm hcreate n) hparent h)
    (fun hw => delegateCall_settled (loop_ran evm n) hw h) fun _ _ he => he.replay (.inr hcreate)

theorem staticCall_advances (h : evm.finish n (evm.staticCall depth caller addr input gas w) = some r) :
    Advances w r.world :=
  .of_settled (staticCall_custody (loop_custody evm hcreate n) h)
    (fun hw => staticCall_settled (loop_ran evm n) hw h) fun _ _ he => he.replay (.inl rfl)

theorem create_advances {code : Bytes} (h : evm.finish n (evm.create depth false caller code gas value w) = some r) :
    Advances w r.world := by
  refine .of_settled (create_custody (loop_custody evm hcreate n) hcreate h)
    (fun hw => create_settled (loop_ran evm n) hw h) ?_
  rintro l υ (⟨rfl, rfl⟩ | ⟨-, addr, code, ret, τ, rfl, -, heffect, rfl⟩)
  · exact .same (.of_bytes fun a => by simp [Accounts.count])
  · refine ((heffect.replay (.inr hcreate)).same_left fun a ha => ?_).same_right (.of_bytes fun a => by simp)
    rw [Accounts.bytes_created _ _ _ _ fun heq => hcreate _ _ (heq ▸ ha)]
    simp [Accounts.count]

end Machine

end GoWanchain.Vm
