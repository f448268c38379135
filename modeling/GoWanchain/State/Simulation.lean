import GoWanchain.State.Content
import GoWanchain.State.Likeness

/-!
# Operations on states that behave alike

Two databases are in `Sim` if their cells are `Like` each other, their journals would have the same effect
and their snapshots are at the same places of the journals; the identifiers of the snapshots may differ.
`CommitTo` is not among these operations: an object that was marked has no callback and no mark afterwards,
while one that was only loaded keeps its callback.
-/

namespace GoWanchain.State

open Run List Option
open ObjectChange (inverse)

variable [Keccak]

namespace Store

namespace Cell

variable {db : Hash → Option Bytes} {c d : Cell} {o o' : StateObject}

theorem markOf_true_congr {b b' : Bool} (h : markOf b o = markOf b' o') : markOf true o = markOf true o' := by
  unfold markOf at h ⊢
  cases b <;> cases b' <;> cases ho : o.onDirty <;> cases ho' : o'.onDirty <;>
    cases he : o.empty <;> cases he' : o'.empty <;> simp_all

theorem onDirty_congr {b b' : Bool} (h : markOf b o = markOf b' o') (he : o.empty = true)
    (he' : o'.empty = true) : o.onDirty = o'.onDirty := by
  unfold markOf at h
  cases b <;> cases b' <;> cases ho : o.onDirty <;> cases ho' : o'.onDirty <;> simp_all

theorem Like.reset (h : Like db c d) (hc : c.get = some o) (hd : d.get = some o') :
    Like db ⟨some o, true, c.account⟩ ⟨some o', true, c.account⟩ := by
  obtain ⟨_, hd', hview, hmark, hstorage⟩ := h.get hc
  rw [hd] at hd'
  cases hd'
  have hget : Cell.get ⟨some o, true, c.account⟩ = some o := get_of_obj rfl (deleted_of_get hc)
  have hget' : Cell.get ⟨some o', true, c.account⟩ = some o' := get_of_obj rfl (deleted_of_get hd)
  refine like_of_get hget hget' hview rfl ?_ hstorage
  rw [Cell.mark, Cell.mark, hget, hget', map_some, map_some, markOf_true_congr hmark]

omit [Keccak] in
theorem exists_undo (hc : c.Busy) (e : JournalEntry) : ∃ c', Cell.undo e c = some c' := by
  obtain ⟨o, hget, -⟩ := hc
  cases e with
  | objectChange a ch => exact ⟨_, undo_objectChange hget a ch⟩
  | touchChange a prev prevDirty => exact ⟨_, undo_touchChange hget a prev prevDirty⟩
  | _ => exact ⟨_, rfl⟩

end Cell

/-- Entries of the same effect, given what the trie holds. -/
def EntryLike (db : Hash → Option Bytes) (trie : Address → Option Account) (e e' : JournalEntry) : Prop :=
  Cell.EntryLike db (e.account.bind trie) e e'

/-- Equal substates, and cells that behave alike. -/
structure Like (s r : Store) : Prop where
  substate : s.toSubstate = r.toSubstate
  cell : ∀ a, Cell.Like s.db (s.cell a) (r.cell a)

variable {s r : Store} {e e' : JournalEntry}

theorem Like.setCell (h : Like s r) {a : Address} {c d : Cell} (hcd : Cell.Like s.db c d) :
    Like (s.setCell a c) (r.setCell a d) := by
  refine ⟨h.substate, ?_⟩
  intro b
  rw [cell_setCell, cell_setCell]
  split
  · exact hcd
  · exact h.cell b

theorem EntryLike.account_eq {db : Hash → Option Bytes} {trie : Address → Option Account}
    (h : EntryLike db trie e e') : e'.account = e.account := by
  cases h <;> rfl

omit [Keccak] in
theorem undo_trie {s s' : Store} (h : undo e s = some s') : s'.trie = s.trie := by
  funext a
  have hcell := cell_undo h a
  rw [Cell.undoAt] at hcell
  split at hcell
  · exact Cell.undo_account hcell
  · exact (congrArg Cell.account (some.inj hcell)).symm

theorem Like.undo {j j' : List JournalEntry} (h : Like s r)
    (hs : ∀ a, (s.cell a).WF (e :: j) a) (hr : ∀ a, (r.cell a).WF (e' :: j') a)
    (he : EntryLike s.db s.trie e e') : ∃ s' r', Store.undo e s = some s' ∧ Store.undo e' r = some r' ∧ Like s' r' := by
  cases ha : e.account with
  | none =>
    obtain ⟨sub, hsub, hall⟩ := undo_substate ha s
    have hdb : sub.db = s.db := undo_db hsub
    have heq : e' = e := by
      cases he with
      | refl => rfl
      | reset | touch => cases ha
    refine ⟨_, { r with toSubstate := sub }, hsub, by rw [heq]; exact hall r h.substate.symm, rfl, ?_⟩
    intro b
    show Cell.Like sub.db (s.cell b) (r.cell b)
    rw [hdb]
    exact h.cell b
  | some a =>
    have ha' : e'.account = some a := he.account_eq.trans ha
    have hbusy : (s.cell a).Busy := (hs a).toTraced.busy ha
    have hbusy' : (r.cell a).Busy := (hr a).toTraced.busy ha'
    have hentry : Cell.EntryLike s.db (s.cell a).account e e' := by
      rw [EntryLike, ha] at he
      exact he
    obtain ⟨c, hc⟩ := Cell.exists_undo hbusy e
    obtain ⟨d, hd, hlike⟩ := (h.cell a).undo hbusy hbusy' hentry ha
      (fun prev heq => ((hs a).reset prev (heq ▸ mem_cons_self)).2.1) hc
    refine ⟨_, _, by rw [undo_eq ha, hc]; rfl, by rw [undo_eq ha', hd]; rfl, h.setCell hlike⟩

theorem Like.undoAll {l l' : List JournalEntry} (h : Like s r) (j j' : List JournalEntry)
    (hs : ∀ a, (s.cell a).WF (l ++ j) a) (hr : ∀ a, (r.cell a).WF (l' ++ j') a)
    (hl : Forall₂ (EntryLike s.db s.trie) l l') :
    ∃ s' r', Journaled.undoAll Store.undo l s = some s' ∧ Journaled.undoAll Store.undo l' r = some r' ∧
      Like s' r' ∧ s'.db = s.db ∧ s'.trie = s.trie := by
  generalize hdb : s.db = db at hl ⊢
  generalize htrie : s.trie = trie at hl ⊢
  induction hl generalizing s r with
  | nil => exact ⟨s, r, rfl, rfl, h, hdb, htrie⟩
  | @cons e e' l l' he hl ih =>
    subst hdb htrie
    obtain ⟨s₁, r₁, hs₁, hr₁, h₁⟩ := h.undo hs hr he
    -- the invariant after one undo
    have hwf : ∀ {e : JournalEntry} {l : List JournalEntry} {s s₁ : Store}, Store.undo e s = some s₁ →
        (∀ a, (s.cell a).WF (e :: l) a) → ∀ a, (s₁.cell a).WF l a := by
      intro e l s s₁ hs₁ hs
      refine (Cell.wf_invariant s.db).undoAll (l := [e]) hs ?_
      show (Store.undo e s).bind some = _
      rw [hs₁]
      rfl
    obtain ⟨s₂, r₂, hs₂, hr₂, h₂, hsame⟩ :=
      ih h₁ (hwf hs₁ hs) (hwf hr₁ hr) (undo_db hs₁) (undo_trie hs₁)
    refine ⟨s₂, r₂, ?_, ?_, h₂, hsame⟩
    · show (Store.undo e s).bind (Journaled.undoAll Store.undo l) = _
      rw [hs₁]
      exact hs₂
    · show (Store.undo e' r).bind (Journaled.undoAll Store.undo l') = _
      rw [hr₁]
      exact hr₂

end Store

theorem inverse_congr {db : Hash → Option Bytes} {o o' : StateObject} (h : o'.view db = o.view db)
    (ch : ObjectChange) : ch.inverse db o' = ch.inverse db o := by
  obtain ⟨hbalance, hnonce, hcodeHash, hcode, hword, hbytes, hsuicided, -⟩ :=
    AccountView.mk.injEq .. |>.mp h
  cases ch with
  | storageChange => simp only [inverse, hword]
  | storageByteArrayChange => simp only [inverse, hbytes]
  | suicideChange => simp only [inverse, hsuicided, hbalance]
  | balanceChange => simp only [inverse, hbalance]
  | nonceChange => simp only [inverse, hnonce]
  | codeChange => simp only [inverse, hcode, hcodeHash]

namespace StateDB

open Store

structure Sim (s r : StateDB) : Prop where
  state : Store.Like s.state r.state
  journal : Forall₂ (EntryLike s.state.db s.state.trie) s.journal r.journal
  revisions : s.validRevisions.map Revision.journalIndex = r.validRevisions.map Revision.journalIndex

/-- The same is read of both databases. -/
structure SameReads (s r : StateDB) : Prop where
  exist : s.exist = r.exist
  empty : s.empty = r.empty
  getBalance : s.getBalance = r.getBalance
  getNonce : s.getNonce = r.getNonce
  getCode : s.getCode = r.getCode
  getCodeSize : s.getCodeSize = r.getCodeSize
  getCodeHash : s.getCodeHash = r.getCodeHash
  getState : s.getState = r.getState
  getStateByteArray : s.getStateByteArray = r.getStateByteArray
  hasSuicided : s.hasSuicided = r.hasSuicided
  getRefund : s.getRefund = r.getRefund
  getLogs : s.getLogs = r.getLogs
  preimages : s.preimages = r.preimages

theorem sameReads_of_views {s r : StateDB} (hview : s.view = r.view) (hempty : s.empty = r.empty)
    (hrefund : s.state.refund = r.state.refund) (hlogs : s.state.logs = r.state.logs)
    (hpreimages : s.state.preimages = r.state.preimages) : SameReads s r := by
  have hcontent := content_eq_of_view hview
  -- a getter that is a function of the view, with a default, reads the same
  have hread {α : Type} (x : α) (f : AccountView → α) :
      (fun a => (s.state.getStateObject a).elim x fun o => f (o.view s.state.db)) =
        fun a => (r.state.getStateObject a).elim x fun o => f (o.view r.state.db) := by
    have helim (t : StateDB) (a : Address) :
        ((t.state.getStateObject a).elim x fun o => f (o.view t.state.db)) = (t.view a).elim x f :=
      (elim_map ..).symm
    funext a
    rw [helim, helim, hview]
  have hcode : s.getCode = r.getCode := by
    funext a
    rw [getCode_eq, getCode_eq, hcontent]
  exact {
    exist := by
      have hexist (t : StateDB) (a : Address) : t.exist a = (t.view a).isSome := (isSome_map ..).symm
      funext a
      rw [hexist, hexist, hview]
    empty := hempty
    getBalance := hread 0 AccountView.balance
    getNonce := hread 0 AccountView.nonce
    getCode := hcode
    getCodeSize := by
      funext a
      rw [getCodeSize, getCodeSize, hcode]
    getCodeHash := hread 0 AccountView.codeHash
    getState := by
      funext a
      rw [getState_eq, getState_eq, hcontent]
    getStateByteArray := by
      funext a
      rw [getStateByteArray_eq, getStateByteArray_eq, hcontent]
    hasSuicided := hread false AccountView.suicided
    getRefund := hrefund
    getLogs := hlogs
    preimages := hpreimages }

theorem sameReads_of_cells {s r : StateDB}
    (hcell : ∀ a, (s.state.cell a).view s.state.db = (r.state.cell a).view s.state.db ∧
      (s.state.cell a).hasStorage = (r.state.cell a).hasStorage)
    (hdb : r.state.db = s.state.db) (hrefund : s.state.refund = r.state.refund)
    (hlogs : s.state.logs = r.state.logs) (hpreimages : s.state.preimages = r.state.preimages) : SameReads s r := by
  refine sameReads_of_views ?_ ?_ hrefund hlogs hpreimages
  · funext a
    rw [view, view, (hcell a).1, hdb]
  · funext a
    obtain ⟨hview, hstorage⟩ := hcell a
    rw [Cell.view, Cell.view] at hview
    rw [Cell.hasStorage, Cell.hasStorage] at hstorage
    rw [empty, empty, getStateObject_eq, getStateObject_eq]
    cases hs : (s.state.cell a).get <;> cases hr : (r.state.cell a).get <;> rw [hs, hr] at hview hstorage
    · cases hview
    · cases hview
    · exact StateObject.empty_congr (some.inj hview) hstorage

namespace Sim

variable {s r : StateDB} {a : Address}

variable (h : Sim s r)

include h

theorem db_eq : r.state.db = s.state.db := congrArg Substate.db h.state.substate.symm

theorem sameReads : SameReads s r := by
  have hsub := h.state.substate
  refine sameReads_of_cells (fun a => ⟨(h.state.cell a).view.1, (h.state.cell a).storage⟩) h.db_eq ?_ ?_ ?_
  · exact congrArg Substate.refund hsub
  · exact congrArg Substate.logs hsub
  · exact congrArg Substate.preimages hsub

theorem setDirty {e e' : JournalEntry} (o o' : StateObject) (he : e.account = some a)
    (hentry : Cell.EntryLike s.state.db (s.state.trie a) e e')
    (hlike : Cell.Like s.state.db ((s.state.cell a).put o) ((r.state.cell a).put o')) :
    Sim (s.record e (s.state.setDirty a o)) (r.record e' (r.state.setDirty a o')) := by
  have htrie : (s.state.setCell a ((s.state.cell a).put o)).trie = s.state.trie :=
    Function.update_eq_self a s.state.trie
  rw [setDirty_eq, setDirty_eq]
  refine ⟨h.state.setCell hlike, Forall₂.cons ?_ ?_, h.revisions⟩
  · show EntryLike s.state.db (s.state.setCell a _).trie e e'
    rw [htrie, EntryLike, he]
    exact hentry
  · show Forall₂ (EntryLike s.state.db (s.state.setCell a _).trie) s.journal r.journal
    rw [htrie]
    exact h.journal

theorem setSubstate (e : JournalEntry) {sub : Substate} (hdb : sub.db = s.state.db) :
    Sim (s.record e { s.state with toSubstate := sub }) (r.record e { r.state with toSubstate := sub }) := by
  refine ⟨⟨rfl, ?_⟩, Forall₂.cons (.refl e) ?_, h.revisions⟩
  · intro b
    show Cell.Like sub.db (s.state.cell b) (r.state.cell b)
    rw [hdb]
    exact h.state.cell b
  · show Forall₂ (EntryLike sub.db s.state.trie) s.journal r.journal
    rw [hdb]
    exact h.journal

theorem createObject (hget : (s.state.cell a).get = none) : Sim (s.createObject a) (r.createObject a) := by
  rw [createObject_eq s a hget, createObject_eq r a ((h.state.cell a).view.get_none hget)]
  exact h.setDirty _ _ rfl (.refl _) (Cell.like_put_same (h.state.cell a).view.2 rfl rfl)

theorem createAccount (a : Address) : Sim (s.createAccount a) (r.createAccount a) := by
  cases hget : (s.state.cell a).get with
  | none =>
    rw [createAccount_of_missing s a hget, createAccount_of_missing r a ((h.state.cell a).view.get_none hget)]
    exact h.createObject hget
  | some prev =>
    obtain ⟨prev', hget', hview, -⟩ := (h.state.cell a).get hget
    have hbalance : prev'.data.balance = prev.data.balance := congrArg AccountView.balance hview
    rw [createAccount_eq s a hget, createAccount_eq r a hget', hbalance]
    exact h.setDirty _ _ rfl (.reset a ((h.state.cell a).reset hget hget'))
      (Cell.like_put_same (h.state.cell a).view.2 rfl rfl)

theorem get_cases (a : Address) : (s.state.getStateObject a = none ∧ r.state.getStateObject a = none) ∨
    ∃ o o', s.state.getStateObject a = some o ∧ r.state.getStateObject a = some o' := by
  cases hget : s.state.getStateObject a with
  | none => exact .inl ⟨rfl, (h.state.cell a).view.get_none hget⟩
  | some o =>
    obtain ⟨o', hget', -⟩ := (h.state.cell a).get hget
    exact .inr ⟨o, o', rfl, hget'⟩

theorem getOrNewStateObject (a : Address) : Sim (s.getOrNewStateObject a).1 (r.getOrNewStateObject a).1 := by
  rcases h.get_cases a with ⟨hs, hr⟩ | ⟨o, o', hs, hr⟩ <;> simp only [StateDB.getOrNewStateObject, hs, hr]
  · exact h.createObject hs
  · exact h

theorem getOrNewStateObject_get (a : Address) :
    (r.getOrNewStateObject a).2.view s.state.db = (s.getOrNewStateObject a).2.view s.state.db ∧
    Cell.markOf ((s.getOrNewStateObject a).1.state.cell a).dirty (s.getOrNewStateObject a).2 =
      Cell.markOf ((r.getOrNewStateObject a).1.state.cell a).dirty (r.getOrNewStateObject a).2 ∧
    (r.getOrNewStateObject a).2.hasStorage = (s.getOrNewStateObject a).2.hasStorage := by
  have hdb : (s.getOrNewStateObject a).1.state.db = s.state.db :=
    (getOrNewStateObject_moves s a none).db_eq
  have hlike := (h.getOrNewStateObject a).state.cell a
  rw [hdb] at hlike
  obtain ⟨o', ho', hsame⟩ := hlike.get (StateDB.getOrNewStateObject_get s a)
  rw [StateDB.getOrNewStateObject_get r a] at ho'
  cases ho'
  exact hsame

theorem change (a : Address) (ch : ObjectChange) : Sim (s.change a ch) (r.change a ch) := by
  have hnew := h.getOrNewStateObject a
  have hdb : (s.getOrNewStateObject a).1.state.db = s.state.db :=
    (getOrNewStateObject_moves s a none).db_eq
  obtain ⟨hview, hmark, hstorage⟩ := h.getOrNewStateObject_get a
  have hget := StateDB.getOrNewStateObject_get s a
  have hget' := StateDB.getOrNewStateObject_get r a
  rw [← hdb] at hview
  rw [change_eq, change_eq, hnew.db_eq, inverse_congr hview]
  refine hnew.setDirty _ _ rfl (.refl _) ⟨(hnew.state.cell a).put_apply hget hget' hview hmark ch, ?_⟩
  have halive := Cell.deleted_of_get hget
  have halive' := Cell.deleted_of_get hget'
  rw [Cell.hasStorage_put (by rw [ch.deleted_apply, halive]),
    Cell.hasStorage_put (by rw [ch.deleted_apply, halive']), StateObject.hasStorage_apply,
    StateObject.hasStorage_apply, hstorage]

theorem touch {o o' : StateObject} (hs : (s.state.cell a).WF s.journal a)
    (hr : (r.state.cell a).WF r.journal a) (hget : (s.state.cell a).get = some o)
    (hget' : (r.state.cell a).get = some o') (hempty : o.empty = true) (hempty' : o'.empty = true) :
    Sim (s.touch a o) (r.touch a o') := by
  obtain ⟨_, ho', hview, hmark, hstorage⟩ := (h.state.cell a).get hget
  rw [hget'] at ho'
  cases ho'
  have halive := Cell.deleted_of_get hget
  have halive' := Cell.deleted_of_get hget'
  have harmed := Cell.onDirty_congr hmark hempty hempty'
  refine h.setDirty (o.setTouched true) (o'.setTouched true) rfl ?_
    (Cell.like_of_get (Cell.get_put halive) (Cell.get_put halive') hview (h.state.cell a).view.2 ?_ hstorage)
  · cases ho : o.onDirty with
    | true =>
      -- both were loaded, and not touched before
      obtain ⟨data, -, rfl⟩ := hs.loaded o hget ho
      obtain ⟨data', -, rfl⟩ := hr.loaded o' hget' (harmed ▸ ho)
      exact .refl _
    | false =>
      rw [← harmed, ho]
      exact .touch a o.touched o'.touched
  · rw [Cell.mark_put (by exact halive), Cell.mark_put (by exact halive')]
    have := Cell.dirty_or_onDirty_congr hmark
    show some (if (s.state.cell a).dirty || o.onDirty then Cell.Mark.dirty else .forgotten) =
      some (if (r.state.cell a).dirty || o'.onDirty then .dirty else .forgotten)
    rw [this]

theorem addBalance (hs : s.WF) (hr : r.WF) (a : Address) (amount : ℤ) :
    Sim (s.addBalance a amount) (r.addBalance a amount) := by
  have hnew := h.getOrNewStateObject a
  obtain ⟨hview, -, hstorage⟩ := h.getOrNewStateObject_get a
  have hbalance := congrArg AccountView.balance hview
  have hempty := StateObject.empty_congr hview hstorage
  have hwf := (Moves.wf (getOrNewStateObject_moves s a none) hs).cell a
  have hwf' := (Moves.wf (getOrNewStateObject_moves r a none) hr).cell a
  rw [addBalance_eq, addBalance_eq, hempty]
  split_ifs with hpos hzero
  · have hsame : (r.getOrNewStateObject a).2.data.balance = (s.getOrNewStateObject a).2.data.balance :=
      hbalance
    rw [hsame]
    exact hnew.change a (.balanceChange _)
  · exact hnew.touch hwf hwf' (StateDB.getOrNewStateObject_get s a)
      (StateDB.getOrNewStateObject_get r a) hzero.2 (hempty.trans hzero.2)
  · exact hnew

theorem subBalance (a : Address) (amount : ℤ) : Sim (s.subBalance a amount) (r.subBalance a amount) := by
  have hnew := h.getOrNewStateObject a
  have hsame : (r.getOrNewStateObject a).2.data.balance = (s.getOrNewStateObject a).2.data.balance :=
    congrArg AccountView.balance (h.getOrNewStateObject_get a).1
  rw [subBalance_eq, subBalance_eq, hsame]
  split_ifs
  · exact hnew.change a (.balanceChange _)
  · exact hnew

theorem suicide (a : Address) : Sim (s.suicide a).1 (r.suicide a).1 := by
  rcases h.get_cases a with ⟨hs, hr⟩ | ⟨o, o', hs, hr⟩ <;> simp only [StateDB.suicide, hs, hr]
  · exact h
  · exact h.change a (.suicideChange true 0)

theorem addLog (log : Log) : Sim (s.addLog log) (r.addLog log) := by
  have hsub := h.state.substate
  rw [StateDB.addLog, StateDB.addLog]
  simp only [← hsub]
  exact h.setSubstate (.addLogChange s.state.thash) rfl

theorem addRefund (gas : ℕ) : Sim (s.addRefund gas) (r.addRefund gas) := by
  have hsub := h.state.substate
  rw [StateDB.addRefund, StateDB.addRefund]
  simp only [← hsub]
  exact h.setSubstate (.refundChange s.state.refund) rfl

theorem addPreimage (hash : Hash) (preimage : Bytes) :
    Sim (s.addPreimage hash preimage) (r.addPreimage hash preimage) := by
  have hsub := h.state.substate
  rw [StateDB.addPreimage, StateDB.addPreimage]
  simp only [← hsub]
  cases s.state.preimages hash with
  | some => exact h
  | none => exact h.setSubstate (.addPreimageChange hash) rfl

theorem write (hs : s.WF) (hr : r.WF) (w : Write) : Sim (s.write w) (r.write w) := by
  cases w with
  | setBalance addr amount => exact h.change addr (.balanceChange amount)
  | addBalance addr amount => exact h.addBalance hs hr addr amount
  | subBalance addr amount => exact h.subBalance addr amount
  | setNonce addr nonce => exact h.change addr (.nonceChange nonce)
  | setCode addr code => exact h.change addr (.codeChange (some code) (keccak256 code))
  | setState addr key value => exact h.change addr (.storageChange key value)
  | setStateByteArray addr key value => exact h.change addr (.storageByteArrayChange key value)
  | createAccount addr => exact h.createAccount addr
  | suicide addr => exact h.suicide addr
  | addRefund gas => exact h.addRefund gas
  | addLog log => exact h.addLog log
  | addPreimage hash preimage => exact h.addPreimage hash preimage

theorem snapshot : Sim s.snapshot r.snapshot := by
  refine ⟨h.state, h.journal, ?_⟩
  show s.journal.length :: _ = r.journal.length :: _
  rw [h.journal.length_eq]
  exact congrArg _ h.revisions

theorem revertBack (hs : s.WF) (hr : r.WF) (back : ℕ) : (s.revertBack back = none ∧ r.revertBack back = none) ∨
    ∃ s' r', s.revertBack back = some s' ∧ r.revertBack back = some r' ∧ Sim s' r' := by
  have hplace : s.validRevisions[back]?.map Revision.journalIndex =
      r.validRevisions[back]?.map Revision.journalIndex := by
    rw [← getElem?_map, ← getElem?_map, h.revisions]
  cases hrev : s.validRevisions[back]? with
  | none =>
    rw [hrev, map_none, eq_comm, map_eq_none_iff] at hplace
    left
    rw [StateDB.revertBack, StateDB.revertBack, hrev, hplace]
    exact ⟨rfl, rfl⟩
  | some rev =>
    rw [hrev, map_some, eq_comm, map_eq_some_iff] at hplace
    obtain ⟨rev', hrev', hindex⟩ := hplace
    right
    have hlength := h.journal.length_eq
    set n := s.journal.length - rev.journalIndex with hn
    obtain ⟨s', r', hs', hr', hlike, hdb, htrie⟩ := h.state.undoAll (s.journal.drop n)
      (r.journal.drop n) (by rw [take_append_drop]; exact hs.cell)
      (by rw [take_append_drop]; exact hr.cell) (forall₂_take n h.journal)
    refine ⟨⟨s', s.journal.drop n, s.validRevisions.drop (back + 1), s.nextRevisionId⟩,
      ⟨r', r.journal.drop n, r.validRevisions.drop (back + 1), r.nextRevisionId⟩, ?_, ?_, hlike, ?_, ?_⟩
    · rw [StateDB.revertBack, hrev, bind_some, StateDB.revertToSnapshot,
        Journaled.revertToSnapshot_of_getElem hs.revision_sorted hrev, Journaled.undoTo, ← hn, hs']
      rfl
    · rw [StateDB.revertBack, hrev', bind_some, StateDB.revertToSnapshot,
        Journaled.revertToSnapshot_of_getElem hr.revision_sorted hrev', Journaled.undoTo, hindex,
        ← hlength, ← hn, hr']
      rfl
    · show Forall₂ (EntryLike s'.db s'.trie) (s.journal.drop n) (r.journal.drop n)
      rw [hdb, htrie]
      exact forall₂_drop n h.journal
    · rw [map_drop, map_drop, h.revisions]

end Sim

/-! ### Whole runs -/

/-- What is used of the slots in the database and its journal fits the layout. -/
def Conforms (κ : Address → Layout) (s : StateDB) : Prop :=
  ∀ a, (s.state.cell a).Conforms κ s.journal a

omit [Keccak] in
theorem Conforms.new {κ : Address → Layout} (db : Hash → Option Bytes) {trie : Address → Option Account}
    (h : ∀ a data, trie a = some data → (newObject data).Coherent (κ a)) : (new db trie).Conforms κ :=
  fun a => .nil (fun o ho => (by cases ho)) (h a)

/-- An operation that uses the slots as the layout says and does not keep empty accounts. -/
def Fits (κ : Address → Layout) : Op → Prop
  | .write w => ∀ a, w.account = some a → (κ a).Fits w.slot
  | .snapshot | .revert _ | .prepare _ _ _ => True
  | .finalise deleteEmptyObjects => deleteEmptyObjects = true
  | .commitTo deleteEmptyObjects => deleteEmptyObjects = true
  | .deleteSuicides => False

section Run

variable {κ : Address → Layout} {s r : StateDB}

theorem Conforms.moves {x : Option Address} {σ : Option (Hash × SlotKind)} {t : StateDB}
    (h : Moves x σ s t) (hκ : s.Conforms κ) (hσ : ∀ a, x = some a → (κ a).Fits σ) : t.Conforms κ := by
  refine ((coherent_invariant κ).invariant s.state.db).moves h rfl ?_ (fun _ _ => trivial) hκ
  rintro e ⟨rfl, hslot⟩ a ch rfl
  replace hslot : ch.slot = none ∨ ch.slot = σ := hslot
  rcases hslot with hslot | hslot
  · rw [hslot]
    trivial
  · rw [hslot]
    exact hσ a rfl

theorem step_invariants {op : Op} (hs : s.WF) (hκ : s.Conforms κ) (hop : Fits κ op) :
    (s.step op).WF ∧ (s.step op).Conforms κ := by
  cases op with
  | write w =>
    have hmoves := write_moves s w
    exact ⟨Moves.wf hmoves hs, hκ.moves hmoves hop⟩
  | snapshot => exact ⟨hs.snapshot, hκ⟩
  | revert back =>
    rw [step]
    cases hback : s.revertBack back with
    | none => exact ⟨hs, hκ⟩
    | some =>
      obtain ⟨revid, hrevert⟩ := revertBack_eq hback
      exact ⟨hs.revert hrevert, ((coherent_invariant κ).invariant s.state.db).revert hrevert hκ⟩
  | prepare => exact ⟨⟨hs.cell, hs.revision_lt, hs.revision_sorted⟩, hκ⟩
  | finalise =>
    cases hop
    exact ⟨hs.finalise, fun a => (hκ a).ended (coherent_invariant κ) (Cell.ended_finalise _ true)⟩
  | commitTo =>
    cases hop
    exact ⟨hs.commitTo, fun a => (hκ a).ended (coherent_invariant κ) (Cell.ended_commit _ true)⟩
  | deleteSuicides => cases hop

theorem run_invariants {l : List Op} (hs : s.WF) (hκ : s.Conforms κ) (hl : ∀ op ∈ l, Fits κ op) :
    (run step s l).WF ∧ (run step s l).Conforms κ := by
  induction l generalizing s with
  | nil => exact ⟨hs, hκ⟩
  | cons op _ ih =>
    obtain ⟨hs', hκ'⟩ := step_invariants hs hκ (hl op mem_cons_self)
    exact ih hs' hκ' fun op' hop' => hl op' (mem_cons_of_mem _ hop')

theorem Sim.step {op : Op} (h : Sim s r) (hs : s.WF) (hr : r.WF) (hκ : s.Conforms κ)
    (hκ' : r.Conforms κ) (hop : Fits κ op) (hcommit : op ≠ .commitTo true) : Sim (s.step op) (r.step op) := by
  cases op with
  | write w => exact h.write hs hr w
  | snapshot => exact h.snapshot
  | revert back =>
    rw [StateDB.step, StateDB.step]
    rcases h.revertBack hs hr back with ⟨hs', hr'⟩ | ⟨s', r', hs', hr', hsim⟩
    · rw [hs', hr']
      exact h
    · rw [hs', hr']
      exact hsim
  | prepare =>
    have hsub := h.state.substate
    refine ⟨⟨?_, h.state.cell⟩, h.journal, h.revisions⟩
    simp only [StateDB.step, StateDB.prepare, hsub]
  | finalise =>
    cases hop
    have hsub := h.state.substate
    refine ⟨⟨?_, ?_⟩, Forall₂.nil, rfl⟩
    · simp only [StateDB.step, StateDB.finalise, clearJournalAndRefund, mapCells, hsub]
    · intro a
      exact (h.state.cell a).finalise (hs.cell a) (hr.cell a) (hκ a) (hκ' a)
  | commitTo =>
    cases hop
    exact absurd rfl hcommit
  | deleteSuicides => cases hop

theorem Sim.run_sameReads {l : List Op} (h : Sim s r) (hs : s.WF) (hr : r.WF) (hκ : s.Conforms κ)
    (hκ' : r.Conforms κ) (hl : ∀ op ∈ l, Fits κ op ∧ op ≠ .commitTo true) :
    SameReads (run StateDB.step s l) (run StateDB.step r l) ∧
      (run StateDB.step s l).intermediateRoot true = (run StateDB.step r l).intermediateRoot true := by
  induction l generalizing s r with
  | nil =>
    refine ⟨h.sameReads, ?_⟩
    funext a
    exact ((h.state.cell a).finalise (hs.cell a) (hr.cell a) (hκ a) (hκ' a)).view.2
  | cons op _ ih =>
    obtain ⟨hop, hcommit⟩ := hl op mem_cons_self
    obtain ⟨hs', hκs⟩ := step_invariants hs hκ hop
    obtain ⟨hr', hκr⟩ := step_invariants hr hκ' hop
    exact ih (h.step hs hr hκ hκ' hop hcommit) hs' hr' hκs hκr fun op' hop' => hl op' (mem_cons_of_mem _ hop')

end Run

end StateDB

end GoWanchain.State
