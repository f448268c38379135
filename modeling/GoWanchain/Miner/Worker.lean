import GoWanchain.Core.Admission
import GoWanchain.State.Simulation

/-!
# Transactions of a block that is mined

`commitTransaction` of `miner/worker.go` takes a snapshot of the state, applies a transaction, and reverts to the
snapshot on an error. The gas pool has no snapshot: gas that was taken from it before the error is not put back
(`commitTransaction_traceless_iff`). In the state one trace is left: the write that takes back the image of a stamp
stays pending, so that an account of the images that was there and empty does not count as empty any more.
-/

namespace GoWanchain.State

open Store

/-! ### What a revert leaves of a write -/

section

variable {a x : Address} {δ : List JournalEntry}

theorem Store.cell_undoAll {s s' : Store} (h : Journaled.undoAll Store.undo δ s = some s') (ha : Unmentioned a δ) :
    s'.cell a = s.cell a := by
  induction δ generalizing s with
  | nil =>
    cases h
    rfl
  | cons e _ ih =>
    obtain ⟨t, ht, h⟩ := Option.bind_eq_some_iff.mp h
    have hcell := cell_undo ht a
    rw [Cell.undoAt, if_neg (ha e List.mem_cons_self)] at hcell
    rw [ih h ha.of_cons, Option.some.inj hcell]

variable [Keccak] {s t r : StateDB} {o : StateObject} {ch : ObjectChange}

theorem StateObject.empty_of_hasStorage (h : o.hasStorage = true) : o.empty = false := by
  unfold hasStorage at h
  unfold empty
  cases hroot : decide (o.data.root = ∅) <;> simp_all

namespace StateDB

/-- Nothing was done to the account `x` on the way from `s` to `t`. -/
def Framed (x : Address) (s t : StateDB) : Prop :=
  ∃ δ, t.journal = δ ++ s.journal ∧ Unmentioned x δ ∧ t.state.cell x = s.state.cell x

omit [Keccak] in
theorem Framed.refl (x : Address) (s : StateDB) : Framed x s s := ⟨[], rfl, by simp [Unmentioned], rfl⟩

omit [Keccak] in
theorem Framed.trans (h : Framed x s t) (h' : Framed x t r) : Framed x s r := by
  obtain ⟨δ, hδ, hfree, hcell⟩ := h
  obtain ⟨δ', hδ', hfree', hcell'⟩ := h'
  refine ⟨δ' ++ δ, by rw [hδ', hδ, List.append_assoc], fun e he => ?_, hcell'.trans hcell⟩
  exact (List.mem_append.mp he).elim (hfree' e) (hfree e)

theorem Framed.moves {σ : Option (Hash × SlotKind)} (h : Moves (some a) σ s t) (hx : x ≠ a) : Framed x s t := by
  induction h with
  | refl => exact .refl x s
  | @tail t u _ hmove ih =>
    obtain ⟨e, ⟨he, -⟩, hmove⟩ := hmove
    have hother : e.account ≠ some x := fun h => hx (Option.some.inj (h.symm.trans he))
    obtain ⟨hj, ⟨-, hcell⟩ | ⟨heq, -⟩⟩ := hmove.cell_cases x
    · exact ih.trans ⟨[e], hj, by simpa [Unmentioned] using hother, hcell⟩
    · exact absurd heq hother

theorem getOrNewStateObject_of_get (hget : (s.state.cell x).get = some o) : s.getOrNewStateObject x = (s, o) := by
  rw [getOrNewStateObject, getStateObject_eq, hget]

theorem framed_getOrNewStateObject (hget : (s.state.cell x).get ≠ none) (a : Address) :
    Framed x s (s.getOrNewStateObject a).1 := by
  by_cases hx : x = a
  · subst hx
    obtain ⟨o, ho⟩ := Option.ne_none_iff_exists'.mp hget
    rw [getOrNewStateObject_of_get ho]
    exact .refl x s
  · exact .moves (getOrNewStateObject_moves s a none) hx

omit [Keccak] in
theorem hasStorage_undo_put {s s' : Store} {inv : ObjectChange} (hd : o.deleted = false)
    (hslot : inv.slot.isSome = true)
    (h : Store.undo (.objectChange x inv) (s.setCell x ((s.cell x).put o)) = some s') :
    (s'.cell x).hasStorage = true := by
  have hcell := cell_undo h x
  rw [Cell.undoAt, if_pos (by rfl), cell_setCell_self, Cell.undo_objectChange (Cell.get_put hd)] at hcell
  rw [← Option.some.inj hcell, Cell.hasStorage_put (by rw [inv.deleted_apply]; exact hd),
    StateObject.hasStorage_apply, hslot, Bool.true_or]

/-- A storage write to an account that is there, taken back along with what was done before. -/
theorem hasStorage_undo_change (hget : (s.state.cell x).get = some o) (hslot : ch.slot.isSome = true)
    (h : Framed x r s) (hδ : (s.change x ch).journal = δ ++ r.journal) {v : Store}
    (hundo : Journaled.undoAll Store.undo δ (s.change x ch).state = some v) : (v.cell x).hasStorage = true := by
  obtain ⟨δ₁, hδ₁, hfree, -⟩ := h
  rw [change_eq, getOrNewStateObject_of_get hget, setDirty_eq] at hδ hundo
  obtain rfl : δ = _ :: δ₁ := List.append_cancel_right (hδ.symm.trans (congrArg (List.cons _) hδ₁))
  obtain ⟨u, hu, hundo⟩ := Option.bind_eq_some_iff.mp hundo
  rw [cell_undoAll hundo hfree]
  exact hasStorage_undo_put (by rw [ch.deleted_apply, Cell.deleted_of_get hget]) (by rwa [ch.slot_inverse]) hu

theorem empty_of_hasStorage (h : (s.state.cell x).hasStorage = true) : s.empty x = false := by
  rw [Cell.hasStorage] at h
  rw [empty, getStateObject_eq]
  cases hget : (s.state.cell x).get with
  | none => simp [hget] at h
  | some =>
    rw [hget] at h
    exact StateObject.empty_of_hasStorage h

/-- What is read after a revert is what was read before, but for accounts that count as empty: those that were
missing do so again, and those that nothing was done to. -/
theorem Keeps.revert_reads (h : Keeps s.snapshot t) : ∃ r, t.revertToSnapshot s.nextRevisionId = some r ∧
    (s.empty = r.empty → SameReads s r) ∧
    (∀ x, ((s.state.cell x).get ≠ none → Framed x s.snapshot t) → s.empty x = r.empty x) ∧
    ∃ δ, t.journal = δ ++ s.journal ∧ Journaled.undoAll Store.undo δ t.state = some r.state := by
  obtain ⟨r, hr, -, hview, hsub, δ, hδ, hundo⟩ := h.revert
  refine ⟨r, hr, fun hempty => ?_, fun x hframed => ?_, δ, hδ, hundo⟩
  · exact sameReads_of_views hview.symm hempty (congrArg Substate.refund hsub).symm (congrArg Substate.logs hsub).symm
      (congrArg Substate.preimages hsub).symm
  · rw [empty, empty, getStateObject_eq, getStateObject_eq]
    cases hget : (s.state.cell x).get with
    | none =>
      have hx := congrFun hview x
      rw [view, view, Cell.view, Cell.view, hget] at hx
      rw [Option.map_eq_none_iff.mp hx]
    | some =>
      obtain ⟨δ', hδ', hfree, hcell⟩ := hframed (by simp [hget])
      obtain rfl := List.append_cancel_right (hδ.symm.trans hδ')
      rw [cell_undoAll hundo hfree, hcell]
      exact congrArg (Option.elim · true _) hget.symm

theorem Keeps.revert_framed (h : Keeps s.snapshot t)
    (hframed : ∀ x, (s.snapshot.state.cell x).get ≠ none → Framed x s.snapshot t) :
    ∃ r, t.revertToSnapshot s.nextRevisionId = some r ∧ SameReads s r := by
  obtain ⟨r, hr, hreads, hempty, -⟩ := h.revert_reads
  exact ⟨r, hr, hreads (funext fun x => hempty x (hframed x))⟩

/-- A storage write to the account `x`, as it is seen after the revert. -/
theorem revert_change (hs : s.WF) (a x : Address) (ch : ObjectChange) (hslot : ch.slot.isSome = true) :
    ∃ r, ((s.snapshot.getOrNewStateObject a).1.change x ch).revertToSnapshot s.nextRevisionId = some r ∧
      (SameReads s r ↔ ¬ (s.exist x = true ∧ s.empty x = true)) := by
  have hmoves := getOrNewStateObject_moves s.snapshot a none
  have hkeeps := (Keeps.moves hmoves hs.snapshot).trans (.moves (change_moves _ x ch) (Moves.wf hmoves hs.snapshot))
  obtain ⟨r, hr, hreads, hframed, δ, hδ, hundo⟩ := hkeeps.revert_reads
  have hother (y : Address) (hy : y ≠ x) : s.empty y = r.empty y :=
    hframed y fun hget => (framed_getOrNewStateObject (s := s.snapshot) hget a).trans (.moves (change_moves _ x ch) hy)
  have hall (h : s.empty x = r.empty x) : SameReads s r := by
    refine hreads (funext fun y => ?_)
    by_cases hy : y = x
    · rwa [hy]
    · exact hother y hy
  refine ⟨r, hr, ?_⟩
  rw [exist, getStateObject_eq]
  cases hget : (s.state.cell x).get with
  | none => exact iff_of_true (hall (hframed x fun hne => absurd hget hne)) (by simp)
  | some =>
    have hthere : (s.snapshot.state.cell x).get ≠ none := fun hnone => by cases hget.symm.trans hnone
    have hframe := framed_getOrNewStateObject hthere a
    obtain ⟨-, -, -, hcell⟩ := id hframe
    have hfull := empty_of_hasStorage (hasStorage_undo_change (by rw [hcell]; exact hget) hslot hframe hδ hundo)
    constructor
    · rintro hsame ⟨-, hempty⟩
      rw [hsame.empty, hfull] at hempty
      cases hempty
    · intro hnot
      exact hall (by simpa [hfull] using hnot)

end StateDB

end

end GoWanchain.State

namespace GoWanchain.Miner

open State Types Core
open Vm hiding Executed

/-- `Work`, as far as it is used here. -/
structure Work extends Processing where
  txs : List Transaction
  receipts : List Receipt

section

variable [Keccak] [Crypto]

def commitTransaction (env : Environment) (tx : Transaction) : EStateM CoreError Work (List Log) := fun work =>
  match applyTransaction env tx { work.toProcessing with world := work.world.onDB (·.snapshot) } with
  | .error err p => .error err { work with toProcessing := { p with world := p.world.revert work.world } }
  | .ok (receipt, _) p =>
    .ok receipt.logs { work with toProcessing := p, txs := work.txs ++ [tx], receipts := work.receipts ++ [receipt] }

/-! ### Failed transitions -/

/-- The transition takes gas from the pool, and fails after that: what it has does not cover the intrinsic gas, or its
sender does not have the value. -/
def LosesGas (msg : Message) (st : StateTransition) : Prop :=
  (isNormalTransaction msg.txType = true ∨ intrinsicOf msg st < 2 ^ 64) ∧ ∃ total t, Begins msg st total t ∧
    t.gp ≠ st.gp ∧ (t.gas < intrinsicOf msg st ∨ t.world.db.getBalance msg.sender < msg.amount)

/-- A privacy message whose stamp is valid and was not used records the image of the stamp, and fails after that: its
gas is not in the pool, or does not cover the intrinsic gas. -/
structure DropsImage (msg : Message) (st : StateTransition) (info : PrivacyTxInfo) : Prop where
  privacy : isNormalTransaction msg.txType = false
  intrinsic : intrinsicOf msg st < 2 ^ 64
  value : msg.amount = 0
  fetch : fetchPrivacyTxInfo st.world.db (addressBytes msg.sender) st.data msg.price = .ok info
  image : (st.world.db.content otaImageStorageAddr).bytes (imageKey info.toRingSignInfo) = []
  fails : st.gp < info.stampTotalGas ∨ info.gasLeftSubRingSign < intrinsicOf msg st

/-- How a transition ends: with a value, or with an error and the state, or the pool, as it was changed until then. -/
inductive Ending (msg : Message) (st : StateTransition) : EStateM.Result CoreError StateTransition Executed → Prop
  | ok {e : Executed} {t : StateTransition} (hgas : ¬ LosesGas msg st) (himage : ∀ info, ¬ DropsImage msg st info) :
    Ending msg st (.ok e t)
  | clean {err : CoreError} {t : StateTransition} (hgas : ¬ LosesGas msg st) (himage : ∀ info, ¬ DropsImage msg st info)
    (hgp : t.gp = st.gp) (hdb : t.world.db = (st.world.db.getOrNewStateObject msg.sender).1) :
    Ending msg st (.error err t)
  | image {err : CoreError} {t : StateTransition} {info : PrivacyTxInfo} (hgas : ¬ LosesGas msg st)
    (himage : DropsImage msg st info) (herr : err ≠ .panic) (hgp : t.gp = st.gp)
    (hdb : t.world.db = ((st.withAccount msg.sender).stamped msg.sender info).world.db) : Ending msg st (.error err t)
  | gas {err : CoreError} {t : StateTransition} (hgas : LosesGas msg st) (herr : err ≠ .panic) (hgp : t.gp ≠ st.gp) :
    Ending msg st (.error err t)

variable {evm : Evm} {msg : Message} {st t : StateTransition} {total : ℕ}

section

omit [Crypto]

theorem db_withAccount (st : StateTransition) (a : Address) :
    (st.withAccount a).world.db = (st.world.db.getOrNewStateObject a).1 := by
  unfold StateTransition.withAccount StateDB.getOrNewStateObject StateDB.exist
  cases hget : st.world.db.state.getStateObject a with
  | none => exact StateDB.createAccount_of_missing _ a hget
  | some => rfl

theorem getOrNewStateObject_idem (db : StateDB) (a : Address) :
    ((db.getOrNewStateObject a).1.getOrNewStateObject a).1 = (db.getOrNewStateObject a).1 := by
  rw [StateDB.getOrNewStateObject_of_get (StateDB.getOrNewStateObject_get db a)]

theorem db_paid (hlimit : msg.gasLimit = 0) :
    (st.paid msg).world.db = (st.world.db.getOrNewStateObject msg.sender).1 := by
  rw [StateTransition.paid, db_withAccount]
  show (StateDB.getOrNewStateObject (StateDB.subBalance _ _ _) _).1 = _
  rw [StateDB.subBalance_eq, if_neg (by simp [hlimit]), db_withAccount, db_withAccount]
  simp only [getOrNewStateObject_idem]

end

theorem begins_unique {total' : ℕ} {t' : StateTransition} (h : Begins msg st total t) (h' : Begins msg st total' t') :
    t = t' := by
  cases h with
  | normal hnormal =>
    cases h' with
    | normal => rfl
    | privacy hprivacy => exact absurd hprivacy (by simp [hnormal])
  | privacy hprivacy _ hfetch =>
    cases h' with
    | normal hnormal => exact absurd hprivacy (by simp [hnormal])
    | privacy _ _ hfetch' =>
      cases hfetch.symm.trans hfetch'
      rfl

theorem transitionDb_of_begins (evm : Evm) (h : Begins msg st total t) (hstart : st.gas = 0)
    (hintrinsic : isNormalTransaction msg.txType = true ∨ intrinsicOf msg st < 2 ^ 64) :
    transitionDb evm msg st = conclude evm msg (intrinsicOf msg st) total t := by
  rw [transitionDb_eq]
  cases h with
  | normal hnormal haffordable =>
    have hacquire := acquireGas_of_affordable hnormal haffordable
    split_ifs at hacquire with hlarge
    · exact Action.bind_of_ok hacquire _
    · have hlimit := haffordable.gasLimit
      have hpaid := (gas_paid st msg).1
      rw [Action.bind_of_error hacquire, conclude_of_lt 0 (by omega)]
  | privacy hprivacy hvalue hfetch himage hpool =>
    have hlt := hintrinsic.resolve_left (by simp [hprivacy])
    exact Action.bind_of_ok (acquireGas_privacy hprivacy hlt hvalue hfetch himage hpool) _

theorem losesGas_iff (h : Begins msg st total t)
    (hintrinsic : isNormalTransaction msg.txType = true ∨ intrinsicOf msg st < 2 ^ 64) : LosesGas msg st ↔
      t.gp ≠ st.gp ∧ (t.gas < intrinsicOf msg st ∨ t.world.db.getBalance msg.sender < msg.amount) := by
  constructor
  · rintro ⟨-, total', t', h', hfails⟩
    rwa [begins_unique h h']
  · exact fun hfails => ⟨hintrinsic, total, t, h, hfails⟩

theorem conclude_ends (evm : Evm) (msg : Message) (intrinsic total : ℕ) (t : StateTransition) :
    (∃ e t', conclude evm msg intrinsic total t = .ok e t' ∧ intrinsic ≤ t.gas ∧
      (msg.amount : ℤ) ≤ t.world.db.getBalance msg.sender) ∨
    ∃ err t', conclude evm msg intrinsic total t = .error err t' ∧ err ≠ .panic ∧ t'.gp = t.gp ∧
      (t.gas < intrinsic ∧ t' = t ∨ intrinsic ≤ t.gas ∧ t.world.db.getBalance msg.sender < msg.amount) := by
  have hend := conclude_run evm msg intrinsic total t
  have hrun : _ ↔ ¬ (msg.amount : ℤ) ≤ t.world.db.getBalance msg.sender :=
    run_insufficient_iff evm msg { t with gas := t.gas - intrinsic }
  generalize conclude evm msg intrinsic total t = result at hend ⊢
  cases hend with
  | outOfGas hlt => exact .inr ⟨_, _, rfl, by simp, rfl, .inl ⟨Nat.not_le.mp hlt, rfl⟩⟩
  | insufficient hle herr => exact .inr ⟨_, _, rfl, by simp, rfl, .inr ⟨hle, by simpa using hrun.mp herr⟩⟩
  | normal _ hle hr herr | privacy _ hle hr herr =>
    exact .inl ⟨_, _, rfl, hle, by rwa [hr, ne_eq, hrun, not_not] at herr⟩

theorem ending_normal (evm : Evm) (hnormal : isNormalTransaction msg.txType = true) (hstart : st.gas = 0) :
    Ending msg st (transitionDb evm msg st) := by
  have himage (info : PrivacyTxInfo) (h : DropsImage msg st info) : False := absurd h.privacy (by simp [hnormal])
  by_cases haffordable : Affordable msg st
  · have hbegins : Begins msg st 0 (st.paid msg) := .normal hnormal haffordable
    have hpool := haffordable.pool
    obtain ⟨hgas, -, hgp⟩ := gas_paid st msg
    have hloses := losesGas_iff hbegins (.inl hnormal)
    rw [transitionDb_of_begins evm hbegins hstart (.inl hnormal)]
    obtain ⟨e, t, hend, hle, hvalue⟩ | ⟨err, t, hend, herr, hgp', hfails⟩ :=
      conclude_ends evm msg (intrinsicOf msg st) 0 (st.paid msg)
    · rw [hend]
      exact .ok (by rw [hloses]; omega) himage
    · rw [hend]
      by_cases hlimit : msg.gasLimit = 0
      · -- no gas was bought, so that there is none
        have hpos : 0 < intrinsicOf msg st := intrinsicGas_pos _ _ _
        obtain ⟨-, rfl⟩ | ⟨hle, -⟩ := hfails
        · exact .clean (by rw [hloses]; omega) himage (by omega) (db_paid hlimit)
        · omega
      · exact .gas (hloses.mpr (by omega)) herr (by omega)
  · obtain ⟨err, t, hacquire, herr, ht⟩ := acquireGas_of_not_affordable hnormal haffordable
    rw [transitionDb_eq, Action.bind_of_error hacquire]
    have hgas : ¬ LosesGas msg st := by
      rintro ⟨-, total, t', ⟨-, h⟩ | ⟨hprivacy, -, -, -, -⟩, -⟩
      · exact haffordable h
      · exact absurd hprivacy (by simp [hnormal])
    refine .clean hgas himage ?_ ?_
    · rcases ht with rfl | rfl <;> simp
    · rcases ht with rfl | rfl
      · exact db_withAccount _ _
      · rw [db_withAccount, db_withAccount, getOrNewStateObject_idem]

theorem ending_privacy (evm : Evm) (hprivacy : isNormalTransaction msg.txType = false) :
    Ending msg st (transitionDb evm msg st) := by
  have hclean {err : CoreError} {t : StateTransition} (hgp : t.gp = (st.withAccount msg.sender).gp)
      (hdb : t.world.db = (st.withAccount msg.sender).world.db)
      (h : ¬ (intrinsicOf msg st < 2 ^ 64 ∧ msg.amount = 0 ∧ ∃ info,
        fetchPrivacyTxInfo st.world.db (addressBytes msg.sender) st.data msg.price = .ok info ∧
        (st.world.db.content otaImageStorageAddr).bytes (imageKey info.toRingSignInfo) = [])) :
      Ending msg st (.error err t) := by
    refine .clean ?_ (fun info hi => h ⟨hi.intrinsic, hi.value, info, hi.fetch, hi.image⟩)
      (hgp.trans (st.gp_withAccount _)) (hdb.trans (db_withAccount _ _))
    rintro ⟨hlt, total, t', ⟨hnormal, -⟩ | ⟨-, hvalue, hfetch, himage, -⟩, -⟩
    · exact absurd hprivacy (by simp [hnormal])
    · exact h ⟨hlt.resolve_left (by simp [hprivacy]), hvalue, _, hfetch, himage⟩
  rw [transitionDb_eq]
  by_cases hintrinsic : intrinsicOf msg st < 2 ^ 64
  · have hend := acquireGas_run msg st
    generalize hacquire : acquireGas msg st = result at hend
    cases hend with
    | refused hnormal => exact absurd hprivacy (by simp [hnormal])
    | large hlarge => exact absurd hintrinsic hlarge
    | valued _ hvalue =>
      rw [Action.bind_of_error hacquire]
      exact hclean rfl rfl fun h => hvalue h.2.1
    | invalid _ _ _ hfetch =>
      rw [Action.bind_of_error hacquire]
      exact hclean rfl rfl fun ⟨_, _, info, hok, _⟩ => by cases hfetch.symm.trans hok
    | used _ _ hfetch himage =>
      rw [Action.bind_of_ok hacquire, conclude_of_lt 0 (intrinsicGas_pos _ _ _)]
      refine hclean rfl rfl fun ⟨_, _, info, hok, hnew⟩ => himage ?_
      cases hfetch.symm.trans hok
      exact hnew
    | @full info _ hvalue hfetch himage hpool =>
      rw [Action.bind_of_error hacquire]
      refine .image ?_ ⟨hprivacy, hintrinsic, hvalue, hfetch, himage, .inl (by omega)⟩ (by simp)
        (st.gp_withAccount _) rfl
      rintro ⟨-, total, t', ⟨hnormal, -⟩ | ⟨-, -, hfetch', -, hpool'⟩, -⟩
      · exact absurd hprivacy (by simp [hnormal])
      · cases hfetch.symm.trans hfetch'
        exact hpool hpool'
    | begins hbegins =>
      have hloses := losesGas_iff hbegins (.inr hintrinsic)
      cases hbegins with
      | normal hnormal => exact absurd hprivacy (by simp [hnormal])
      | @privacy info _ hvalue hfetch himage hpool =>
        have hleft := (fetchPrivacyTxInfo_eq_ok hfetch).2.2.2.2
        obtain ⟨t, ht⟩ : ∃ t, t = { (st.withAccount msg.sender).stamped msg.sender info with
          gp := st.gp - info.stampTotalGas } := ⟨_, rfl⟩
        have hgp : t.gp = st.gp - info.stampTotalGas := by rw [ht]
        have hgas : t.gas = info.gasLeftSubRingSign := by rw [ht]; rfl
        rw [← ht] at hacquire hloses
        rw [Action.bind_of_ok hacquire]
        obtain ⟨e, t', hend, hle, hfunds⟩ | ⟨err, t', hend, herr, hgp', hfails⟩ :=
          conclude_ends evm msg (intrinsicOf msg st) info.stampTotalGas t
        · rw [hend]
          refine .ok (by rw [hloses]; omega) fun info' h => ?_
          cases hfetch.symm.trans h.fetch
          have hfails := h.fails
          omega
        · rw [hend]
          by_cases htotal : info.stampTotalGas = 0
          · -- the stamp pays for nothing
            have hpos : 0 < intrinsicOf msg st := intrinsicGas_pos _ _ _
            obtain ⟨hlt, rfl⟩ | ⟨hle, -⟩ := hfails
            · refine .image (by rw [hloses]; omega) ⟨hprivacy, hintrinsic, hvalue, hfetch, himage, .inr (by omega)⟩ herr
                (by omega) ?_
              rw [ht]
            · omega
          · exact .gas (hloses.mpr (by omega)) herr (by omega)
  · rw [Action.bind_of_error (acquireGas_of_large hprivacy hintrinsic)]
    exact hclean rfl rfl fun h => hintrinsic h.1

theorem ending_transitionDb (evm : Evm) (msg : Message) (hstart : st.gas = 0) :
    Ending msg st (transitionDb evm msg st) := by
  cases htype : isNormalTransaction msg.txType with
  | true => exact ending_normal evm htype hstart
  | false => exact ending_privacy evm htype

/-! ### The miner -/

variable {env : Environment} {tx : Transaction} {work : Work}

/-- The transition of a message behind the snapshot. -/
def Work.start (work : Work) (msg : Message) : StateTransition :=
  newStateTransition msg work.gp (work.world.onDB (·.snapshot))

theorem commitTransaction_error_iff {err : CoreError} {work' : Work} (hmsg : tx.asMessage env.signer = some msg) :
    commitTransaction env tx work = .error err work' ↔
      ∃ t, transitionDb (env.evm msg) msg (work.start msg) = .error err t ∧
        work' = { work with gp := t.gp, world := t.world.revert work.world } := by
  unfold commitTransaction applyTransaction
  rw [Action.lift_bind, hmsg]
  simp only [need, Option.elim_some]
  cases h : transitionDb (env.evm msg) msg (work.start msg) with
  | error _ t =>
    rw [Action.bind_of_error (applyMessage_of_error (p := ⟨work.gp, work.usedGas, work.world.onDB (·.snapshot)⟩) h)]
    simp only [EStateM.Result.error.injEq]
    constructor
    · rintro ⟨rfl, rfl⟩
      exact ⟨t, ⟨rfl, rfl⟩, rfl⟩
    · rintro ⟨_, ⟨rfl, rfl⟩, rfl⟩
      exact ⟨rfl, rfl⟩
  | ok =>
    rw [Action.bind_of_ok (applyMessage_of_ok (p := ⟨work.gp, work.usedGas, work.world.onDB (·.snapshot)⟩) h),
       Action.modify_bind, Action.get_bind]
    refine iff_of_false (fun h => by cases h) ?_
    rintro ⟨_, h, _⟩
    cases h

/-- What a failed transaction leaves behind: gas that is missing in the pool, or the account of the images, which was
there and empty and now has a write pending. -/
def LeavesTrace (env : Environment) (tx : Transaction) (work : Work) : Prop :=
  ∃ msg, tx.asMessage env.signer = some msg ∧ (LosesGas msg (work.start msg) ∨
    (∃ info, DropsImage msg (work.start msg) info) ∧ work.world.db.exist otaImageStorageAddr = true ∧
      work.world.db.empty otaImageStorageAddr = true)

omit [Keccak] [Crypto] in
theorem db_revert {w before : World} {r : StateDB} (h : w.db.revertToSnapshot before.db.nextRevisionId = some r) :
    (w.revert before).db = r := by
  rw [World.revert, h]
  rfl

/-- **Failed transactions.** A transaction that fails leaves the gas pool, and all that is read of the state, as they
were, unless it leaves one of these traces. -/
theorem commitTransaction_traceless_iff (env : Environment) (tx : Transaction) (work : Work)
    (hwork : work.world.db.WF) : (∀ err work', commitTransaction env tx work = .error err work' → err ≠ .panic →
      StateDB.SameReads work.world.db work'.world.db ∧ work'.gp = work.gp) ↔ ¬ LeavesTrace env tx work := by
  cases hmsg : tx.asMessage env.signer with
  | none =>
    refine iff_of_true ?_ fun ⟨msg, hsome, _⟩ => by cases hmsg.symm.trans hsome
    intro err work' h _
    unfold commitTransaction applyTransaction at h
    rw [Action.lift_bind, hmsg] at h
    cases h
    obtain ⟨r, hr, hsame⟩ := (StateDB.Keeps.refl work.world.db.snapshot).revert_framed fun x _ => .refl x _
    refine ⟨?_, rfl⟩
    rwa [db_revert (w := work.world.onDB (·.snapshot)) hr]
  | some msg =>
    have hend : Ending msg (work.start msg) _ := ending_transitionDb (env.evm msg) msg rfl
    have htrace : LeavesTrace env tx work ↔ LosesGas msg (work.start msg) ∨
        (∃ info, DropsImage msg (work.start msg) info) ∧ work.world.db.exist otaImageStorageAddr = true ∧
          work.world.db.empty otaImageStorageAddr = true := by
      simp only [LeavesTrace, hmsg, Option.some.injEq, exists_eq_left']
    generalize hresult : transitionDb (env.evm msg) msg (work.start msg) = result at hend
    cases hend with
    | ok hgas himage =>
      refine iff_of_true ?_ fun h => (htrace.mp h).elim hgas fun ⟨⟨info, h⟩, _⟩ => himage info h
      intro err work' h _
      obtain ⟨t, ht, -⟩ := (commitTransaction_error_iff hmsg).mp h
      cases hresult.symm.trans ht
    | @clean err t hgas himage hgp hdb =>
      obtain ⟨r, hr, hsame⟩ := (StateDB.Keeps.moves
        (StateDB.getOrNewStateObject_moves work.world.db.snapshot msg.sender none) hwork.snapshot).revert_framed
        fun x hx => StateDB.framed_getOrNewStateObject hx msg.sender
      have hrevert : (t.world.revert work.world).db = r := db_revert (by rw [hdb]; exact hr)
      refine iff_of_true ?_ fun h => (htrace.mp h).elim hgas fun ⟨⟨info, h⟩, _⟩ => himage info h
      intro err work' h _
      obtain ⟨t', ht, rfl⟩ := (commitTransaction_error_iff hmsg).mp h
      cases hresult.symm.trans ht
      refine ⟨?_, hgp⟩
      rwa [hrevert]
    | @image err t info hgas himage herr hgp hdb =>
      obtain ⟨r, hr, hsame⟩ := StateDB.revert_change hwork msg.sender otaImageStorageAddr
        (.storageByteArrayChange (imageKey info.toRingSignInfo) (beBytes info.otaBalance)) rfl
      have hrevert : (t.world.revert work.world).db = r := by
        refine db_revert ?_
        rw [hdb]
        show (StateDB.setStateByteArray (StateTransition.world _).db _ _ _).revertToSnapshot _ = _
        rw [db_withAccount]
        exact hr
      rw [htrace, or_iff_right hgas, and_iff_right ⟨info, himage⟩, ← hsame]
      constructor
      · intro hall
        have hreads := (hall _ _ ((commitTransaction_error_iff hmsg).mpr ⟨_, hresult, rfl⟩) herr).1
        rwa [hrevert] at hreads
      · intro hreads err work' h _
        obtain ⟨t', ht, rfl⟩ := (commitTransaction_error_iff hmsg).mp h
        cases hresult.symm.trans ht
        refine ⟨?_, hgp⟩
        rwa [hrevert]
    | gas hgas herr hgp =>
      refine iff_of_false (fun hall => ?_) (not_not.mpr (htrace.mpr (.inl hgas)))
      exact hgp (hall _ _ ((commitTransaction_error_iff hmsg).mpr ⟨_, hresult, rfl⟩) herr).2

end

namespace Sample

open Core.Sample

attribute [local instance] State.Sample.keccak Vm.Sample.crypto

def cheapCall : Transaction :=
  { creation 0 with txtype := normalTx, price := 0, gasLimit := 20000, recipient := some 7, payload := [] }

def work : Work where
  gp := 10 ^ 7
  usedGas := 0
  world := ⟨.new (fun _ => none) fun _ => none, []⟩
  txs := []
  receipts := []

/-- It fails, and its gas is gone from the pool. -/
theorem cheapCall_loses_gas :
    (∃ work', commitTransaction environment cheapCall work = .error (.vm .errOutOfGas) work') ∧
    (Action.final (commitTransaction environment cheapCall work)).gp = work.gp - 20000 :=
  ⟨by decide +kernel, by decide +kernel⟩

theorem commitTransaction_traceless_iff_cheapCall : work.world.db.WF ∧
    ((∀ err work', commitTransaction environment cheapCall work = .error err work' → err ≠ .panic →
      StateDB.SameReads work.world.db work'.world.db ∧ work'.gp = work.gp) ↔
        ¬ LeavesTrace environment cheapCall work) :=
  ⟨.new _ _, commitTransaction_traceless_iff environment cheapCall work (.new _ _)⟩

end Sample

end GoWanchain.Miner
