import GoWanchain.State.WellFormed

/-!
# What can be read of the accounts, and what a revert restores of it

The view of an account is everything that is read of it except whether it counts as empty, with the root
of its storage before the pending writes. Undoing an entry acts on views, so the states before and after a
revert have the same accounts with the same views (`StateDB.Keeps.revert`), whatever was done between.
-/

namespace GoWanchain.State

open StateObject (setState getState setStateByteArray getStateByteArray)

structure AccountView where
  balance : ℤ
  nonce : UInt64
  codeHash : Hash
  code : Option Bytes
  word : Hash → Hash
  bytes : Hash → Bytes
  suicided : Bool
  root : Trie

variable [Keccak]

def StateObject.view (db : Hash → Option Bytes) (o : StateObject) : AccountView :=
  ⟨o.data.balance, o.data.nonce, o.data.codeHash, o.getCode db, o.getState, o.getStateByteArray,
    o.suicided, o.data.root⟩

@[simp] theorem StateObject.view_setTouched (db : Hash → Option Bytes) (o : StateObject) (b : Bool) :
    (o.setTouched b).view db = o.view db := rfl

@[simp] theorem StateObject.view_disarm (db : Hash → Option Bytes) (o : StateObject) :
    o.disarm.view db = o.view db := rfl

namespace ObjectChange

/-- A change, as it is seen in the view. -/
def onView (db : Hash → Option Bytes) (v : AccountView) : ObjectChange → AccountView
  | suicideChange suicided balance => { v with suicided, balance }
  | balanceChange balance => { v with balance }
  | nonceChange nonce => { v with nonce }
  | storageChange key value => { v with word := Function.update v.word key value }
  | storageByteArrayChange key value => { v with bytes := Function.update v.bytes key value }
  | codeChange code codeHash =>
    { v with codeHash, code := code <|> if codeHash = emptyCodeHash then none else db codeHash }

theorem view_apply (db : Hash → Option Bytes) (ch : ObjectChange) (o : StateObject) :
    (ch.apply o).view db = ch.onView db (o.view db) := by
  cases ch with
  | suicideChange | balanceChange | nonceChange => rfl
  | storageChange key value =>
    have hword : (o.setState key value).getState = Function.update o.getState key value := by
      funext k
      by_cases hk : k = key
      · subst hk
        simp [setState, getState]
      · simp [setState, getState, hk]
    simp only [apply, StateObject.view, onView, hword]
    rfl
  | storageByteArrayChange key value =>
    have hbytes : (o.setStateByteArray key value).getStateByteArray =
        Function.update o.getStateByteArray key value := by
      funext k
      by_cases hk : k = key
      · subst hk
        simp [setStateByteArray, getStateByteArray]
      · simp [setStateByteArray, getStateByteArray, hk]
    simp only [apply, StateObject.view, onView, hbytes]
    rfl
  | codeChange code => cases code <;> rfl

theorem onView_inverse (db : Hash → Option Bytes) (ch : ObjectChange) (o : StateObject) :
    (ch.inverse db o).onView db (ch.onView db (o.view db)) = o.view db := by
  cases ch with
  | suicideChange | balanceChange | nonceChange => rfl
  | storageChange | storageByteArrayChange => simp [inverse, onView, StateObject.view]
  | codeChange code =>
    -- where no code is found there is none under its hash either
    have hcode : (o.getCode db <|>
        if o.data.codeHash = emptyCodeHash then none else db o.data.codeHash) = o.getCode db := by
      cases h : o.code <;> simp [StateObject.getCode, h]
    simp only [inverse, onView, StateObject.view, hcode]

end ObjectChange

namespace Store

namespace Cell

def view (db : Hash → Option Bytes) (c : Cell) : Option AccountView := c.get.map (·.view db)

variable {c d : Cell} {o : StateObject} {db : Hash → Option Bytes}

theorem view_of_obj (db : Hash → Option Bytes) (ho : c.obj = some o)
    (h : o.deleted = false) : c.view db = some (o.view db) := by
  simp [view, Cell.get, ho, h]

theorem view_put (db : Hash → Option Bytes) (h : o.deleted = false) : (c.put o).view db = some (o.view db) := by
  rw [view, get_put h]
  rfl

/-- The same view, over the same account in the trie. -/
def SameView (db : Hash → Option Bytes) (c d : Cell) : Prop :=
  c.view db = d.view db ∧ c.account = d.account

theorem SameView.get (h : SameView db c d) (hc : c.get = some o) : ∃ o', d.get = some o' ∧ o'.view db = o.view db := by
  have hview := h.1
  rw [view, hc] at hview
  exact Option.map_eq_some_iff.mp hview.symm

theorem SameView.get_none (h : SameView db c d) (hc : c.get = none) : d.get = none := by
  have hview := h.1
  rw [view, hc] at hview
  exact Option.map_eq_none_iff.mp hview.symm

theorem SameView.undo {e : JournalEntry} {c' : Cell} (h : SameView db c d) (hc : Cell.undo e c = some c') :
    ∃ d', Cell.undo e d = some d' ∧ SameView db c' d' := by
  cases e with
  | createObjectChange =>
    cases hc
    exact ⟨_, rfl, by simp [view, Cell.get, h.2], h.2⟩
  | resetObjectChange =>
    cases hc
    exact ⟨_, rfl, by simp [view, Cell.get], h.2⟩
  | objectChange account ch =>
    cases hget : c.get with
    | some =>
      obtain ⟨o', hd, hoo⟩ := h.get hget
      rw [undo_objectChange hget] at hc
      cases hc
      refine ⟨_, undo_objectChange hd account ch, ?_, h.2⟩
      rw [view_put db (by rw [ch.deleted_apply, deleted_of_get hget]),
        view_put db (by rw [ch.deleted_apply, deleted_of_get hd]), ch.view_apply, ch.view_apply, hoo]
    | none =>
      have hd := h.get_none hget
      cases ch with
      | suicideChange =>
        simp only [Cell.undo, hget, Option.some.injEq] at hc
        subst hc
        exact ⟨d, by simp only [Cell.undo, hd], h⟩
      | _ => simp [Cell.undo, hget] at hc
  | touchChange account prev prevDirty =>
    cases hget : c.get with
    | some o =>
      obtain ⟨o', hd, hoo⟩ := h.get hget
      rw [undo_touchChange hget] at hc
      cases hc
      refine ⟨_, undo_touchChange hd account prev prevDirty, ?_⟩
      split
      · have hold : o.deleted = false := deleted_of_get hget
        have hnew : o'.deleted = false := deleted_of_get hd
        refine ⟨?_, h.2⟩
        rw [view_of_obj db (o := o.setTouched prev) rfl hold, view_of_obj db (o := o'.setTouched prev) rfl hnew]
        exact congrArg some hoo.symm
      · exact h
    | none =>
      have hd := h.get_none hget
      simp only [Cell.undo, hget, hd] at hc ⊢
      split at hc
      · cases hc
      · rename_i hcond
        cases hc
        exact ⟨d, if_neg hcond, h⟩
  | refundChange | addLogChange | addPreimageChange =>
    cases hc
    exact ⟨d, rfl, h⟩

theorem respects_sameView (db : Hash → Option Bytes) : CellRespects (fun _ _ => SameView db) where
  refl _ _ _ := ⟨rfl, rfl⟩
  trans h h' := ⟨h.1.trans h'.1, h.2.trans h'.2⟩
  frame _ h := h
  undo _ h hc := h.undo hc

theorem Move.undo {a : Address} {c' : Cell} {e : JournalEntry}
    (h : Move db a c e c') (hc : c.get = none → c.account = none) : ∃ u, Cell.undo e c' = some u ∧ SameView db c u := by
  cases h with
  | create h =>
    refine ⟨_, rfl, ?_, rfl⟩
    rw [view, h]
    simp [view, Cell.get, Cell.put, hc h]
  | reset h =>
    refine ⟨_, rfl, ?_, rfl⟩
    rw [view, h]
    simp [view, Cell.get, deleted_of_get h]
  | @change o h ch =>
    have hd : (ch.apply o).deleted = false := by rw [ch.deleted_apply, deleted_of_get h]
    refine ⟨_, undo_objectChange (get_put hd) a _, ?_, rfl⟩
    rw [view_put db (by rw [ObjectChange.deleted_apply]; exact hd), ObjectChange.view_apply, view, h]
    rw [StateObject.view_disarm, ch.view_apply, ch.onView_inverse]
    rfl
  | @touch o h hempty =>
    have hd := deleted_of_get h
    refine ⟨_, undo_touchChange (get_put (o := o.setTouched true) hd) a _ _, ?_⟩
    have hview : c.view db = some (o.view db) := by rw [view, h]; rfl
    split
    · exact ⟨hview.trans (view_of_obj db (o := (o.setTouched true).disarm.setTouched o.touched) rfl hd).symm, rfl⟩
    · exact ⟨hview.trans (view_put db (o := o.setTouched true) hd).symm, rfl⟩

end Cell

end Store

namespace StateDB

/-- What is read of an account. -/
def view (s : StateDB) (a : Address) : Option AccountView := (s.state.cell a).view s.state.db

/-- `t` was reached from `s`, and a revert to a snapshot taken at `s` would restore what is read
there. -/
structure Keeps (s t : StateDB) : Prop where
  db : t.state.db = s.state.db
  since : ∃ δ, Journaled.Since Store.undo (Store.Lift fun _ _ => Store.Cell.SameView s.state.db) s t δ

theorem respects (db : Hash → Option Bytes) :
    Journaled.Respects Store.undo (Store.Lift fun _ _ => Store.Cell.SameView db) :=
  Store.respects_lift (Store.Cell.respects_sameView db)

namespace Keeps

theorem refl (s : StateDB) : Keeps s s := ⟨rfl, [], Journaled.Since.refl (respects _) s⟩

variable {s t : StateDB}

theorem trans {u : StateDB} (h : Keeps s t) (h' : Keeps t u) : Keeps s u := by
  obtain ⟨δ, hδ⟩ := h.since
  obtain ⟨δ', hδ'⟩ := h'.since
  rw [h.db] at hδ'
  exact ⟨h'.db.trans h.db, _, hδ.trans (respects _) (fun hr => hr) hδ'⟩

theorem move {e : JournalEntry} (h : Move s e t) (hs : s.WF) : Keeps s t := by
  have hrefl := Journaled.Since.refl (respects s.state.db) s
  cases h with
  | @cell account _ c h =>
    obtain ⟨u, hu, hview⟩ := h.undo (hs.cell account).swept.account_eq_none
    refine ⟨rfl, [e], hrefl.record (respects _) rfl rfl rfl (u := s.state.setCell account u) ?_ ⟨rfl, ?_⟩⟩
    · show Store.undo e (s.state.setCell account c) = _
      rw [Store.undo_setCell h.account_eq, hu]
      rfl
    · intro a
      rw [Store.cell_setCell]
      split
      · rename_i ha
        subst ha
        exact hview
      · exact ⟨rfl, rfl⟩
  | @substate _ sub he hdb h =>
    exact ⟨hdb, [e], hrefl.record (respects _) rfl rfl rfl h ⟨rfl, fun a => ⟨rfl, rfl⟩⟩⟩

theorem moves {x : Option Address} {σ : Option (Hash × SlotKind)} (h : Moves x σ s t) (hs : s.WF) : Keeps s t := by
  induction h with
  | refl => exact .refl s
  | tail hmoves hmove ih =>
    obtain ⟨e, -, hmove⟩ := hmove
    exact ih.trans (.move hmove (Moves.wf hmoves hs))

theorem snapshot (h : Keeps s t) : Keeps s t.snapshot := by
  obtain ⟨δ, hδ⟩ := h.since
  exact ⟨h.db, δ, hδ.snapshot⟩

theorem revert (h : Keeps s.snapshot t) :
    ∃ r, t.revertToSnapshot s.nextRevisionId = some r ∧ Keeps s r ∧ r.view = s.view ∧
      r.state.toSubstate = s.state.toSubstate ∧
      ∃ δ, t.journal = δ ++ s.journal ∧ Journaled.undoAll Store.undo δ t.state = some r.state := by
  obtain ⟨δ, hδ⟩ := h.since
  obtain ⟨u, hundo, hu, hrevert⟩ := hδ.revert_snapshot
  refine ⟨_, hrevert, ?_, ?_, hu.1.symm, δ, hδ.journal, hundo⟩
  · refine ⟨congrArg Substate.db hu.1.symm, [], rfl, ⟨u, rfl, hu⟩, ⟨[], rfl, by simp⟩, ?_⟩
    exact Nat.le_of_succ_le hδ.nextRevisionId
  · funext a
    show (u.cell a).view u.db = (s.state.cell a).view s.state.db
    rw [show u.db = s.state.db from congrArg Substate.db hu.1.symm]
    exact (hu.2 a).1.symm

end Keeps

/-- `t` is reached from `s` by changes that a revert to a snapshot at `s` takes back. -/
def Leads (s t : StateDB) : Prop := s.WF → t.WF ∧ Keeps s t

namespace Leads

theorem refl (s : StateDB) : Leads s s := fun hs => ⟨hs, .refl s⟩

variable {s t : StateDB}

theorem trans {u : StateDB} (h : Leads s t) (h' : Leads t u) : Leads s u := fun hs =>
  ⟨(h' (h hs).1).1, (h hs).2.trans (h' (h hs).1).2⟩

theorem moves {x : Option Address} {σ : Option (Hash × SlotKind)} (h : Moves x σ s t) :
    Leads s t := fun hs => ⟨Moves.wf h hs, .moves h hs⟩

theorem snapshot (s : StateDB) : Leads s s.snapshot := fun hs => ⟨hs.snapshot, (Keeps.refl s).snapshot⟩

theorem revert (h : Leads s.snapshot t) (hs : s.WF) :
    ∃ r, t.revertToSnapshot s.nextRevisionId = some r ∧ Leads s r ∧ r.view = s.view := by
  obtain ⟨ht, hkeeps⟩ := h hs.snapshot
  obtain ⟨r, hr, hkeep, hview, -⟩ := hkeeps.revert
  exact ⟨r, hr, fun _ => ⟨ht.revert hr, hkeep⟩, hview⟩

end Leads

end StateDB

end GoWanchain.State
