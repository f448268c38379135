import GoWanchain.State.StateDB

/-!
# What an operation of the state database does

Every operation on an account changes the three maps at one address and journals how to take that back.
There are four such moves (`Cell.Move`): an object is created, is replaced, is changed by one of its
setters, or is touched. A `Move` of the database is one of these or a change of the substate, and every
operation is a sequence of moves about one account or about the substate (`Moves`), so that an invariant
needs to be shown for moves only.
-/

namespace GoWanchain.State

def JournalEntry.account : JournalEntry → Option Address
  | .createObjectChange account => some account
  | .resetObjectChange account _ => some account
  | .objectChange account _ => some account
  | .touchChange account _ _ => some account
  | .refundChange _ | .addLogChange _ | .addPreimageChange _ => none

def JournalEntry.slot : JournalEntry → Option (Hash × SlotKind)
  | .objectChange _ change => change.slot
  | _ => none

namespace ObjectChange

theorem slot_inverse [Keccak] (db : Hash → Option Bytes) (o : StateObject) (ch : ObjectChange) :
    (ch.inverse db o).slot = ch.slot := by
  cases ch <;> rfl

theorem deleted_apply (ch : ObjectChange) (o : StateObject) : (ch.apply o).deleted = o.deleted := by
  cases ch <;> rfl

theorem onDirty_apply (ch : ObjectChange) (o : StateObject) : (ch.apply o).onDirty = o.onDirty := by
  cases ch <;> rfl

end ObjectChange

namespace Store

namespace Cell

/-- `getStateObject`, at its address. -/
def get (c : Cell) : Option StateObject :=
  match c.obj with
  | some obj => if obj.deleted then none else some obj
  | none => c.account.map newObject

/-- `setDirty`, at its address. -/
def put (c : Cell) (obj : StateObject) : Cell :=
  { c with obj := some obj.disarm, dirty := c.dirty || obj.onDirty }

/-- `undo` of an entry about the account of the cell. -/
def undo : JournalEntry → Cell → Option Cell
  | .createObjectChange _, c => some { c with obj := none, dirty := false }
  | .resetObjectChange _ prev, c => some { c with obj := some prev }
  | .objectChange _ change, c =>
    match c.get, change with
    | some obj, change => some (c.put (change.apply obj))
    | none, .suicideChange _ _ => some c
    | none, _ => none
  | .touchChange account prev prevDirty, c =>
    if !prev && account != ripemd then
      c.get.map fun obj =>
        { c with obj := some (obj.setTouched prev), dirty := c.dirty && prevDirty }
    else some c
  | _, c => some c

variable {c c' : Cell} {o : StateObject} {e : JournalEntry}

theorem deleted_of_get (h : c.get = some o) : o.deleted = false := by
  unfold get at h
  split at h
  · split at h
    · cases h
    · rename_i hd
      cases h
      simpa using hd
  · obtain ⟨data, -, rfl⟩ := Option.map_eq_some_iff.mp h
    rfl

theorem get_put (h : o.deleted = false) : (c.put o).get = some o.disarm := by
  simp [get, put, StateObject.disarm, h]

theorem undo_objectChange (h : c.get = some o) (a : Address)
    (ch : ObjectChange) : undo (.objectChange a ch) c = some (c.put (ch.apply o)) := by
  simp only [undo, h]

theorem undo_touchChange (h : c.get = some o) (a : Address)
    (prev prevDirty : Bool) : undo (.touchChange a prev prevDirty) c = some (if !prev && a != ripemd then
        { c with obj := some (o.setTouched prev), dirty := c.dirty && prevDirty }
      else c) := by
  simp only [undo, h, Option.map_some]
  split <;> rfl

/-- What undoing an entry makes of a cell. -/
inductive Undo (c : Cell) : JournalEntry → Cell → Prop
  | create (a : Address) : Undo c (.createObjectChange a) { c with obj := none, dirty := false }
  | reset (a : Address) (prev : StateObject) : Undo c (.resetObjectChange a prev) { c with obj := some prev }
  | change {o : StateObject} (h : c.get = some o) (a : Address) (ch : ObjectChange) :
    Undo c (.objectChange a ch) (c.put (ch.apply o))
  | touch {o : StateObject} (h : c.get = some o) (a : Address) (prevDirty : Bool) :
    Undo c (.touchChange a false prevDirty) { c with obj := some (o.setTouched false), dirty := c.dirty && prevDirty }
  | nothing (e : JournalEntry) : Undo c e c

theorem undo_inv (h : undo e c = some c') : Undo c e c' := by
  cases e with
  | createObjectChange =>
    cases h
    exact .create _
  | resetObjectChange =>
    cases h
    exact .reset _ _
  | objectChange _ ch =>
    cases hget : c.get with
    | some =>
      rw [undo_objectChange hget] at h
      cases h
      exact .change hget _ ch
    | none =>
      cases ch with
      | suicideChange =>
        simp only [undo, hget] at h
        cases h
        exact .nothing _
      | _ => simp [undo, hget] at h
  | touchChange _ prev =>
    simp only [undo] at h
    split at h
    · rename_i hcond
      obtain ⟨o, hget, rfl⟩ := Option.map_eq_some_iff.mp h
      cases prev with
      | false => exact .touch hget _ _
      | true => cases hcond
    · cases h
      exact .nothing _
  | refundChange | addLogChange | addPreimageChange =>
    cases h
    exact .nothing _

theorem undo_account (h : undo e c = some c') : c'.account = c.account := by
  cases undo_inv h <;> rfl

theorem get_of_obj (h : c.obj = some o) (hd : o.deleted = false) : c.get = some o := by
  simp [get, h, hd]

/-- `undo` of an entry about any account, at the cell of `a`. -/
def undoAt (a : Address) (e : JournalEntry) (c : Cell) : Option Cell :=
  if e.account = some a then undo e c else some c

variable [Keccak]

/-- The change of one cell that a move of an account makes, with the entry for it. -/
inductive Move (db : Hash → Option Bytes) (account : Address) (c : Cell) : JournalEntry → Cell → Prop
  | create (h : c.get = none) : Move db account c (.createObjectChange account) (c.put (newObject Account.zero))
  | reset {prev : StateObject} (h : c.get = some prev) (balance : ℤ) :
    Move db account c (.resetObjectChange account prev) (c.put ((newObject Account.zero).setBalance balance))
  | change {obj : StateObject} (h : c.get = some obj) (change : ObjectChange) :
    Move db account c (.objectChange account (change.inverse db obj)) (c.put (change.apply obj))
  | touch {obj : StateObject} (h : c.get = some obj) (hempty : obj.empty) :
    Move db account c (.touchChange account obj.touched (!obj.onDirty)) (c.put (obj.setTouched true))

variable {db : Hash → Option Bytes} {account : Address}

theorem Move.put_eq (h : Move db account c e c') : ∃ o, c' = c.put o ∧ o.deleted = false ∧
    (o.onDirty = true ∨ ∃ prev, c.get = some prev ∧ prev.onDirty = o.onDirty) := by
  cases h with
  | create | reset => exact ⟨_, rfl, rfl, .inl rfl⟩
  | @change o h ch =>
    exact ⟨_, rfl, by rw [ch.deleted_apply, deleted_of_get h], Or.inr ⟨o, h, (ch.onDirty_apply o).symm⟩⟩
  | @touch o h hempty =>
    exact ⟨o.setTouched true, rfl, deleted_of_get (o := o) h, .inr ⟨o, h, rfl⟩⟩

theorem Move.account_eq (h : Move db account c e c') : e.account = some account := by
  cases h <;> rfl

/-- What the end of a transaction or a block makes of a cell: it is left alone, or its object is deleted or
written. -/
inductive Ended (b : Bool) (c : Cell) : Cell → Prop
  | keep (h : ∀ o, c.obj = some o → c.dirty = false) : Ended b c c
  | delete {o : StateObject} (ho : c.obj = some o) (h : o.suicided = true ∨ b = true ∧ o.empty = true) (dirty : Bool) :
    Ended b c { c.deleteStateObject o with dirty }
  | update {o : StateObject} (ho : c.obj = some o) (h : ¬ (o.suicided = true ∨ b = true ∧ o.empty = true))
    (uncoded dirty : Bool) : Ended b c { c.updateStateObject { o with dirtyCode := uncoded && o.dirtyCode } with dirty }

theorem ended_finalise (c : Cell) (b : Bool) : Ended b c (c.finalise b) := by
  unfold finalise
  split
  · rename_i o ho hdirty
    split_ifs with h
    · exact .delete ho (by simpa using h) c.dirty
    · exact .update ho (by simpa using h) true c.dirty
  · rename_i h
    exact .keep fun o ho => by simpa using h o ho

theorem ended_commit (c : Cell) (b : Bool) : Ended b c (c.commit b) := by
  unfold commit
  split
  · rename_i o ho
    split_ifs with h hdirty
    · refine .delete ho ?_ false
      have hswept : o.suicided = true ∨ (c.dirty = true ∧ b = true) ∧ o.empty = true := by simpa using h
      exact hswept.imp id fun h => ⟨h.1.2, h.2⟩
    · rw [Bool.and_comm o.dirtyCode]
      exact .update ho (by simpa [hdirty] using h) _ false
    · exact .keep fun _ _ => by simpa using hdirty
  · rename_i hnone
    exact .keep fun o ho => by rw [hnone] at ho; cases ho

end Cell

def setCell (s : Store) (account : Address) (c : Cell) : Store :=
  { s with
    stateObjects := Function.update s.stateObjects account c.obj
    stateObjectsDirty := Function.update s.stateObjectsDirty account c.dirty
    trie := Function.update s.trie account c.account }

section

variable (s : Store)

theorem cell_setCell (a b : Address) (c : Cell) : (s.setCell a c).cell b = if b = a then c else s.cell b := by
  by_cases hb : b = a
  · subst hb
    simp [cell, setCell]
  · simp [cell, setCell, hb]

variable (a : Address)

@[simp] theorem cell_setCell_self (c : Cell) : (s.setCell a c).cell a = c := by
  rw [cell_setCell, if_pos rfl]

@[simp] theorem setCell_cell : s.setCell a (s.cell a) = s := by
  simp [setCell, cell]

@[simp] theorem setCell_setCell (c d : Cell) : (s.setCell a c).setCell a d = s.setCell a d := by
  simp [setCell]

theorem getStateObject_eq : s.getStateObject a = (s.cell a).get := rfl

theorem setStateObject_eq (obj : StateObject) :
    s.setStateObject a obj = s.setCell a { s.cell a with obj := some obj } := by
  simp [setStateObject, setCell, cell]

theorem setDirty_eq (obj : StateObject) : s.setDirty a obj = s.setCell a ((s.cell a).put obj) := by
  cases hd : obj.onDirty <;>
    simp [setDirty, setStateObject, markStateObjectDirty, setCell, cell, Cell.put, hd]

end

variable {e : JournalEntry} {s s' : Store}

theorem undo_eq {a : Address} (he : e.account = some a) (s : Store) :
    undo e s = (Cell.undo e (s.cell a)).map (s.setCell a) := by
  cases e with
  | createObjectChange =>
    cases he
    simp [undo, Cell.undo, setCell, cell]
  | resetObjectChange =>
    cases he
    rw [undo, setStateObject_eq]
    rfl
  | objectChange _ change =>
    cases he
    cases h : (s.cell a).get with
    | some => simp only [undo, Cell.undo, getStateObject_eq, h, setDirty_eq, Option.map_some]
    | none => cases change <;> simp [undo, Cell.undo, getStateObject_eq, h]
  | touchChange _ _ prevDirty =>
    cases he
    rw [undo, Cell.undo, getStateObject_eq]
    split
    · cases (s.cell a).get with
      | none => rfl
      | some =>
        cases prevDirty <;> simp [setStateObject, setCell, cell]
    · simp
  | refundChange | addLogChange | addPreimageChange => cases he

theorem undo_setCell {a : Address} (he : e.account = some a) (s : Store) (c : Cell) :
    undo e (s.setCell a c) = (Cell.undo e c).map (s.setCell a) := by
  rw [undo_eq he, cell_setCell_self]
  congr 1
  funext d
  exact setCell_setCell s a c d

theorem undo_db (h : undo e s = some s') : s'.db = s.db := by
  cases he : e.account with
  | none =>
    cases e <;> simp only [undo, Option.some.injEq, JournalEntry.account] at h he <;>
      first | (subst h; rfl) | cases he
  | some =>
    rw [undo_eq he, Option.map_eq_some_iff] at h
    obtain ⟨c, -, rfl⟩ := h
    rfl

theorem undo_substate (he : e.account = none) (s : Store) : ∃ sub, undo e s = some { s with toSubstate := sub } ∧
      ∀ t : Store, t.toSubstate = s.toSubstate → undo e t = some { t with toSubstate := sub } := by
  cases e with
  | createObjectChange | resetObjectChange | objectChange | touchChange => cases he
  | refundChange | addLogChange | addPreimageChange =>
    refine ⟨_, rfl, ?_⟩
    intro t ht
    rw [undo, ht]

theorem cell_undo (h : undo e s = some s') (a : Address) : Cell.undoAt a e (s.cell a) = some (s'.cell a) := by
  rw [Cell.undoAt]
  cases he : e.account with
  | none =>
    obtain ⟨sub, hsub, -⟩ := undo_substate he s
    rw [hsub] at h
    cases h
    rfl
  | some b =>
    rw [undo_eq he, Option.map_eq_some_iff] at h
    obtain ⟨c, hc, rfl⟩ := h
    rw [cell_setCell]
    by_cases hb : a = b
    · rw [if_pos (by rw [hb]), if_pos hb, hb, hc]
    · rw [if_neg (by simpa [eq_comm] using hb), if_neg hb]

/-! ### Relations between stores, cell by cell -/

/-- Equal substates, and cells that are related at every address. -/
def Lift (R : List JournalEntry → Address → Cell → Cell → Prop) (δ : List JournalEntry) (s t : Store) : Prop :=
  s.toSubstate = t.toSubstate ∧ ∀ a, R δ a (s.cell a) (t.cell a)

/-- A relation between cells that undoing an entry respects. -/
structure CellRespects (R : List JournalEntry → Address → Cell → Cell → Prop) : Prop where
  refl : ∀ δ a c, R δ a c c
  trans : ∀ {δ a c d e}, R δ a c d → R δ a d e → R δ a c e
  frame : ∀ {e δ a c d}, e.account ≠ some a → R (e :: δ) a c d → R δ a c d
  undo : ∀ {e δ a c c' d}, e.account = some a → R (e :: δ) a c d → Cell.undo e c = some c' →
    ∃ d', Cell.undo e d = some d' ∧ R δ a c' d'

theorem respects_lift {R : List JournalEntry → Address → Cell → Cell → Prop} (hR : CellRespects R) :
    Journaled.Respects undo (Lift R) where
  refl δ s := ⟨rfl, fun a => hR.refl δ a (s.cell a)⟩
  trans := fun h h' => ⟨h.1.trans h'.1, fun a => hR.trans (h.2 a) (h'.2 a)⟩
  undo := by
    intro e δ s s' t h hs
    cases he : e.account with
    | none =>
      obtain ⟨sub, hsub, hall⟩ := undo_substate he s
      rw [hsub] at hs
      cases hs
      refine ⟨_, hall t h.1.symm, rfl, ?_⟩
      intro a
      exact hR.frame (by simp [he]) (h.2 a)
    | some a =>
      rw [undo_eq he, Option.map_eq_some_iff] at hs
      obtain ⟨c, hc, rfl⟩ := hs
      obtain ⟨d, hd, hcd⟩ := hR.undo he (h.2 a) hc
      refine ⟨t.setCell a d, by rw [undo_eq he, hd]; rfl, h.1, ?_⟩
      intro b
      rw [cell_setCell, cell_setCell]
      split
      · rename_i hb
        subst hb
        exact hcd
      · rename_i hb
        exact hR.frame (by rw [he]; simpa [eq_comm] using hb) (h.2 b)

end Store

open Store

namespace StateDB

variable [Keccak]

/-- One journaled change of the database, about an account or about the substate. -/
inductive Move (s : StateDB) : JournalEntry → StateDB → Prop
  | cell {account : Address} {e : JournalEntry} {c : Cell}
    (h : Cell.Move s.state.db account (s.state.cell account) e c) : Move s e (s.record e (s.state.setCell account c))
  | substate {e : JournalEntry} {sub : Substate} (he : e.account = none) (hdb : sub.db = s.state.db)
    (h : Store.undo e { s.state with toSubstate := sub } = some s.state) :
    Move s e (s.record e { s.state with toSubstate := sub })

/-- The entry is about the account `x`, and about no storage slot but `σ`. -/
def About (x : Option Address) (σ : Option (Hash × SlotKind)) (e : JournalEntry) : Prop :=
  e.account = x ∧ (e.slot = none ∨ e.slot = σ)

/-- Moves that are all about the account `x` and the slot `σ`. -/
abbrev Moves (x : Option Address) (σ : Option (Hash × SlotKind)) : StateDB → StateDB → Prop :=
  Relation.ReflTransGen fun s t => ∃ e, About x σ e ∧ Move s e t

variable {s t : StateDB}

theorem Move.db_eq {e : JournalEntry} (h : Move s e t) : t.state.db = s.state.db := by
  cases h with
  | cell => rfl
  | substate _ hdb => exact hdb

section Moves

variable {x : Option Address} {σ : Option (Hash × SlotKind)} {s t : StateDB}

theorem Moves.db_eq (h : Moves x σ s t) : t.state.db = s.state.db := by
  induction h with
  | refl => rfl
  | tail _ hmove ih =>
    obtain ⟨e, -, hmove⟩ := hmove
    exact hmove.db_eq.trans ih

end Moves

omit [Keccak] in
theorem revertToSnapshot_db {revid : ℕ} (h : s.revertToSnapshot revid = some t) : t.state.db = s.state.db := by
  obtain ⟨newer, r, older, -, -, st, hst, rfl⟩ := Journaled.revertToSnapshot_eq h
  exact Journaled.undoAll_congr undo_db hst

theorem Move.cell_cases {e : JournalEntry} (h : Move s e t) (a : Address) :
    t.journal = e :: s.journal ∧ (e.account ≠ some a ∧ t.state.cell a = s.state.cell a ∨
      e.account = some a ∧ Cell.Move s.state.db a (s.state.cell a) e (t.state.cell a)) := by
  cases h with
  | @cell account _ c h =>
    refine ⟨rfl, ?_⟩
    show _ ∧ (s.state.setCell account c).cell a = _ ∨ _ ∧ Cell.Move _ _ _ _ ((s.state.setCell account c).cell a)
    rw [cell_setCell]
    by_cases ha : a = account
    · right
      subst ha
      rw [if_pos rfl]
      exact ⟨h.account_eq, h⟩
    · left
      rw [if_neg ha, h.account_eq]
      exact ⟨by simpa [eq_comm] using ha, rfl⟩
  | @substate _ sub he hdb h =>
    exact ⟨rfl, .inl ⟨by simp [he], rfl⟩⟩

/-! ### Invariants of the cells -/

/-- An invariant of each cell together with the journal. It is kept by the moves that record an entry
which meets `F` and are made where the cell meets `Q`. -/
structure Invariant (db : Hash → Option Bytes) (F : JournalEntry → Prop) (Q : Cell → Prop)
    (P : List JournalEntry → Address → Cell → Prop) : Prop where
  push : ∀ {e j a c}, e.account ≠ some a → P j a c → P (e :: j) a c
  pop : ∀ {e j a c}, e.account ≠ some a → P (e :: j) a c → P j a c
  keeps : ∀ {e a c c'}, Q c → Cell.Move db a c e c' → Q c'
  move : ∀ {e j a c c'}, P j a c → F e → Q c → Cell.Move db a c e c' → P (e :: j) a c'
  undo : ∀ {e j a c c'}, P (e :: j) a c → e.account = some a → Cell.undo e c = some c' → P j a c'

namespace Invariant

variable {db : Hash → Option Bytes} {F : JournalEntry → Prop} {Q : Cell → Prop}
  {P : List JournalEntry → Address → Cell → Prop}

theorem moves (hP : Invariant db F Q P) {x : Option Address} {σ : Option (Hash × SlotKind)}
    {s t : StateDB} (h : Moves x σ s t) (hdb : s.state.db = db) (hF : ∀ e, About x σ e → F e)
    (hQ : ∀ a, x = some a → Q (s.state.cell a)) (hs : ∀ a, P s.journal a (s.state.cell a)) :
    ∀ a, P t.journal a (t.state.cell a) := by
  have : t.state.db = db ∧ (∀ a, x = some a → Q (t.state.cell a)) ∧ ∀ a, P t.journal a (t.state.cell a) := by
    induction h with
    | refl => exact ⟨hdb, hQ, hs⟩
    | @tail t u _ hmove ih =>
      obtain ⟨hdb, hQ, hs⟩ := ih
      obtain ⟨e, habout, hmove⟩ := hmove
      refine ⟨hmove.db_eq.trans hdb, ?_, ?_⟩
      · intro a hx
        obtain ⟨-, ⟨-, heq⟩ | ⟨-, hcell⟩⟩ := hmove.cell_cases a
        · rw [heq]
          exact hQ a hx
        · rw [hdb] at hcell
          exact hP.keeps (hQ a hx) hcell
      · intro a
        obtain ⟨hj, ⟨he, heq⟩ | ⟨he, hcell⟩⟩ := hmove.cell_cases a
        · rw [hj, heq]
          exact hP.push he (hs a)
        · rw [hdb] at hcell
          rw [hj]
          exact hP.move (hs a) (hF e habout) (hQ a (habout.1.symm.trans he)) hcell
  exact this.2.2

theorem undoAll (hP : Invariant db F Q P) {l j : List JournalEntry} {s s' : Store}
    (hs : ∀ a, P (l ++ j) a (s.cell a)) (h : Journaled.undoAll Store.undo l s = some s') : ∀ a, P j a (s'.cell a) := by
  induction l generalizing s with
  | nil =>
    cases h
    exact hs
  | cons _ _ ih =>
    obtain ⟨t, ht, h⟩ := Option.bind_eq_some_iff.mp h
    refine ih ?_ h
    intro a
    have hcell := cell_undo ht a
    rw [Cell.undoAt] at hcell
    split at hcell
    · rename_i he
      exact hP.undo (hs a) he hcell
    · rename_i he
      rw [← Option.some.inj hcell]
      exact hP.pop he (hs a)

theorem revert (hP : Invariant db F Q P) {s t : StateDB} {revid : ℕ}
    (h : s.revertToSnapshot revid = some t) (hs : ∀ a, P s.journal a (s.state.cell a)) :
    ∀ a, P t.journal a (t.state.cell a) := by
  obtain ⟨newer, r, older, -, -, st, hst, rfl⟩ := Journaled.revertToSnapshot_eq h
  exact hP.undoAll (by rwa [List.take_append_drop]) hst

end Invariant

@[simp] theorem setNonce_zero : (newObject Account.zero).setNonce 0 = newObject Account.zero := rfl

section Moves

variable (s : StateDB) (a : Address)

theorem createObject_eq (h : (s.state.cell a).get = none) : s.createObject a =
    s.record (.createObjectChange a) (s.state.setDirty a (newObject Account.zero)) := by
  have hget : s.state.getStateObject a = none := h
  simp only [createObject, setNonce_zero, hget]

theorem createAccount_eq {prev : StateObject} (h : (s.state.cell a).get = some prev) :
    s.createAccount a = s.record (.resetObjectChange a prev)
      (s.state.setDirty a ((newObject Account.zero).setBalance prev.data.balance)) := by
  have hget : s.state.getStateObject a = some prev := h
  -- the balance is put in the object that was already made
  have hput : ((s.state.cell a).put (newObject Account.zero)).put (freshObject.setBalance prev.data.balance) =
      (s.state.cell a).put ((newObject Account.zero).setBalance prev.data.balance) := by
    simp [Cell.put, freshObject, newObject, StateObject.setBalance, StateObject.setNonce,
      StateObject.disarm, Account.zero]
  simp [createAccount, createObject, hget, record, setDirty_eq, hput]

theorem createAccount_of_missing (h : (s.state.cell a).get = none) : s.createAccount a = s.createObject a := by
  have hget : s.state.getStateObject a = none := h
  simp only [createAccount, hget]

theorem createObject_moves (h : (s.state.cell a).get = none) (σ : Option (Hash × SlotKind)) :
    Moves (some a) σ s (s.createObject a) := by
  rw [createObject_eq s a h, setDirty_eq]
  exact .single ⟨_, ⟨rfl, .inl rfl⟩, Move.cell (.create h)⟩

theorem createAccount_moves : Moves (some a) none s (s.createAccount a) := by
  cases h : (s.state.cell a).get with
  | none =>
    rw [createAccount_of_missing s a h]
    exact createObject_moves s a h none
  | some prev =>
    rw [createAccount_eq s a h, setDirty_eq]
    exact .single ⟨_, ⟨rfl, .inl rfl⟩, Move.cell (.reset h prev.data.balance)⟩

theorem getOrNewStateObject_get :
    ((s.getOrNewStateObject a).1.state.cell a).get = some (s.getOrNewStateObject a).2 := by
  rw [getOrNewStateObject]
  cases h : s.state.getStateObject a with
  | some => exact h
  | none =>
    simp only [createObject, record, setNonce_zero, setDirty_eq, cell_setCell_self]
    rfl

theorem getOrNewStateObject_moves (σ : Option (Hash × SlotKind)) : Moves (some a) σ s (s.getOrNewStateObject a).1 := by
  rw [getOrNewStateObject]
  split
  · exact .refl
  · rename_i hget
    exact createObject_moves s a hget σ

theorem change_eq (ch : ObjectChange) : s.change a ch = (s.getOrNewStateObject a).1.record
    (.objectChange a (ch.inverse (s.getOrNewStateObject a).1.state.db (s.getOrNewStateObject a).2))
    ((s.getOrNewStateObject a).1.state.setDirty a (ch.apply (s.getOrNewStateObject a).2)) := rfl

theorem addBalance_eq (amount : ℤ) : s.addBalance a amount = if 0 < amount then (s.getOrNewStateObject a).1.setBalance a
      ((s.getOrNewStateObject a).2.data.balance + amount)
    else if amount = 0 ∧ (s.getOrNewStateObject a).2.empty then
      (s.getOrNewStateObject a).1.touch a (s.getOrNewStateObject a).2
    else (s.getOrNewStateObject a).1 := rfl

theorem subBalance_eq (amount : ℤ) : s.subBalance a amount = if 0 < amount then (s.getOrNewStateObject a).1.setBalance a
      ((s.getOrNewStateObject a).2.data.balance - amount)
    else (s.getOrNewStateObject a).1 := rfl

theorem change_moves (ch : ObjectChange) : Moves (some a) ch.slot s (s.change a ch) := by
  refine (getOrNewStateObject_moves s a ch.slot).tail ?_
  rw [change_eq, setDirty_eq]
  refine ⟨_, ⟨rfl, .inr ?_⟩, Move.cell (.change (getOrNewStateObject_get s a) ch)⟩
  exact ch.slot_inverse _ _

theorem addBalance_moves (amount : ℤ) : Moves (some a) none s (s.addBalance a amount) := by
  have hnew := getOrNewStateObject_moves s a none
  rw [addBalance_eq]
  split_ifs with hpos hzero
  · exact hnew.trans (change_moves _ a (.balanceChange _))
  · refine hnew.tail ?_
    rw [touch, setDirty_eq]
    exact ⟨_, ⟨rfl, .inl rfl⟩, Move.cell (.touch (getOrNewStateObject_get s a) hzero.2)⟩
  · exact hnew

theorem subBalance_moves (amount : ℤ) : Moves (some a) none s (s.subBalance a amount) := by
  have hnew := getOrNewStateObject_moves s a none
  rw [subBalance_eq]
  split_ifs
  · exact hnew.trans (change_moves _ a (.balanceChange _))
  · exact hnew

theorem suicide_moves : Moves (some a) none s (s.suicide a).1 := by
  rw [suicide]
  split
  · exact .refl
  · exact change_moves s a (.suicideChange true 0)

theorem addRefund_moves (gas : ℕ) : Moves none none s (s.addRefund gas) := by
  refine .single ⟨_, ⟨rfl, .inl rfl⟩, Move.substate (e := .refundChange s.state.refund) rfl ?_ ?_⟩
  · rfl
  · rfl

theorem addLog_moves (log : Log) : Moves none none s (s.addLog log) := by
  refine .single ⟨_, ⟨rfl, .inl rfl⟩, Move.substate (e := .addLogChange s.state.thash) rfl ?_ ?_⟩
  · rfl
  · simp [undo]

theorem addPreimage_moves (hash : Hash) (preimage : Bytes) : Moves none none s (s.addPreimage hash preimage) := by
  rw [addPreimage]
  cases h : s.state.preimages hash with
  | some => exact .refl
  | none =>
    refine .single ⟨_, ⟨rfl, .inl rfl⟩, Move.substate (e := .addPreimageChange hash) rfl ?_ ?_⟩
    · rfl
    · simp [undo, ← h]

end Moves

end StateDB

end GoWanchain.State
