import GoWanchain.State.View

/-!
# The contents of the accounts

The part of a view that contracts and transactions work on, with the default values where there is no
account. What each operation does to it is said here once: a setter changes one account in one place,
and creating an account changes nothing that is read, since a new account has the values that a
missing one is read with.
-/

namespace GoWanchain.State

open Function

@[ext] structure Content where
  balance : ℤ
  nonce : UInt64
  code : Bytes
  word : Hash → Hash
  bytes : Hash → Bytes

/-- What is read where there is no account. -/
def Content.zero : Content := ⟨0, 0, [], fun _ => 0, fun _ => []⟩

def AccountView.content (v : AccountView) : Content :=
  ⟨v.balance, v.nonce, v.code.getD [], v.word, v.bytes⟩

variable [Keccak]

/-- A change, as it is seen in the content. -/
def ObjectChange.onContent (db : Hash → Option Bytes) (x : Content) : ObjectChange → Content
  | suicideChange _ balance => { x with balance }
  | balanceChange balance => { x with balance }
  | nonceChange nonce => { x with nonce }
  | storageChange key value => { x with word := update x.word key value }
  | storageByteArrayChange key value => { x with bytes := update x.bytes key value }
  | codeChange code codeHash =>
    { x with code := (code <|> if codeHash = emptyCodeHash then none else db codeHash).getD [] }

theorem ObjectChange.content_onView (db : Hash → Option Bytes) (ch : ObjectChange) (v : AccountView) :
    (ch.onView db v).content = ch.onContent db v.content := by
  cases ch <;> rfl

theorem content_newObject (db : Hash → Option Bytes) : ((newObject Account.zero).view db).content = Content.zero := by
  simp [AccountView.content, StateObject.view, newObject, Account.zero, Content.zero,
    StateObject.getCode, StateObject.getState, StateObject.getStateByteArray, funext_iff]

namespace StateDB

def content (s : StateDB) (a : Address) : Content := (s.view a).elim .zero AccountView.content

theorem getBalance_eq (s : StateDB) (a : Address) : s.getBalance a = (s.content a).balance := by
  rw [content, view, Store.Cell.view, ← Store.getStateObject_eq, getBalance]
  cases s.state.getStateObject a <;> rfl

theorem getNonce_eq (s : StateDB) (a : Address) : s.getNonce a = (s.content a).nonce := by
  rw [content, view, Store.Cell.view, ← Store.getStateObject_eq, getNonce]
  cases s.state.getStateObject a <;> rfl

theorem getCode_eq (s : StateDB) (a : Address) : s.getCode a = (s.content a).code := by
  rw [content, view, Store.Cell.view, ← Store.getStateObject_eq, getCode]
  cases s.state.getStateObject a <;> rfl

theorem getState_eq (s : StateDB) (a : Address) : s.getState a = (s.content a).word := by
  funext k
  rw [content, view, Store.Cell.view, ← Store.getStateObject_eq, getState]
  cases s.state.getStateObject a <;> rfl

theorem getStateByteArray_eq (s : StateDB) (a : Address) : s.getStateByteArray a = (s.content a).bytes := by
  funext k
  rw [content, view, Store.Cell.view, ← Store.getStateObject_eq, getStateByteArray]
  cases s.state.getStateObject a <;> rfl

variable {s t : StateDB} {a : Address} {o : StateObject}

theorem content_eq_of_view (h : s.view = t.view) : s.content = t.content := by
  funext a
  rw [content, content, h]

theorem content_of_get (h : (s.state.cell a).get = some o) : s.content a = (o.view s.state.db).content := by
  rw [content, view, Store.Cell.view, h]
  rfl

theorem content_of_get_none (h : (s.state.cell a).get = none) : s.content a = .zero := by
  rw [content, view, Store.Cell.view, h]
  rfl

theorem content_setDirty (ht : t.state = s.state.setDirty a o) (ho : o.deleted = false) :
    t.content = update s.content a ((o.view s.state.db).content) := by
  funext b
  have hcell : t.state.cell b = if b = a then (s.state.cell a).put o else s.state.cell b := by
    rw [ht, Store.setDirty_eq, Store.cell_setCell]
  have hdb : t.state.db = s.state.db := by
    rw [ht, Store.setDirty_eq]
    rfl
  by_cases hb : b = a
  · subst hb
    rw [if_pos rfl] at hcell
    have hget : (t.state.cell b).get = some o.disarm := by rw [hcell, Store.Cell.get_put ho]
    rw [content_of_get hget, update_self, hdb]
    rfl
  · rw [update_of_ne hb, content, content, view, view, hcell, if_neg hb, hdb]

section

variable (s) (a : Address)

theorem content_createObject : (s.createObject a).content = update s.content a .zero := by
  rw [content_setDirty (s := s) (a := a) (o := newObject Account.zero) rfl rfl, content_newObject]

theorem content_getOrNewStateObject : (s.getOrNewStateObject a).1.content = s.content := by
  rw [getOrNewStateObject]
  cases h : s.state.getStateObject a with
  | some => rfl
  | none =>
    show (s.createObject a).content = s.content
    rw [content_createObject, update_eq_self_iff]
    exact (content_of_get_none h).symm

theorem content_createAccount : (s.createAccount a).content =
    update s.content a { Content.zero with balance := (s.content a).balance } := by
  rw [createAccount]
  cases h : s.state.getStateObject a with
  | none =>
    show (s.createObject a).content = _
    rw [content_createObject, content_of_get_none h]
  | some prev =>
    rw [content_setDirty (s := s.createObject a) (a := a)
      (o := freshObject.setBalance prev.data.balance) rfl rfl, content_createObject,
      update_idem, content_of_get h]
    congr 1
    show ObjectChange.onContent s.state.db ((newObject Account.zero).view s.state.db).content
      (.balanceChange prev.data.balance) = _
    rw [content_newObject]
    rfl

theorem content_change (ch : ObjectChange) :
    (s.change a ch).content = update s.content a (ch.onContent s.state.db (s.content a)) := by
  have hget := getOrNewStateObject_get s a
  have hd : (ch.apply (s.getOrNewStateObject a).2).deleted = false := by
    rw [ch.deleted_apply, Store.Cell.deleted_of_get hget]
  have hdb : (s.getOrNewStateObject a).1.state.db = s.state.db := by
    rw [getOrNewStateObject]
    split <;> rfl
  rw [content_setDirty (s := (s.getOrNewStateObject a).1) rfl hd, content_getOrNewStateObject, ch.view_apply,
    ch.content_onView, ← content_of_get hget, content_getOrNewStateObject, hdb]

theorem content_setBalance (amount : ℤ) : (s.setBalance a amount).content =
    update s.content a { s.content a with balance := amount } := content_change s a _

theorem content_setNonce (nonce : UInt64) : (s.setNonce a nonce).content =
    update s.content a { s.content a with nonce } := content_change s a _

theorem content_setCode (code : Bytes) : (s.setCode a code).content =
    update s.content a { s.content a with code } := content_change s a _

theorem content_setState (key value : Hash) : (s.setState a key value).content = update s.content a
      { s.content a with word := update (s.content a).word key value } :=
  content_change s a _

theorem content_setStateByteArray (key : Hash) (value : Bytes) :
    (s.setStateByteArray a key value).content = update s.content a
      { s.content a with bytes := update (s.content a).bytes key value } :=
  content_change s a _

theorem balance_getOrNewStateObject : (s.getOrNewStateObject a).2.data.balance = (s.content a).balance := by
  rw [← content_getOrNewStateObject s a, content_of_get (getOrNewStateObject_get s a)]
  rfl

theorem content_touch (h : (s.state.cell a).get = some o) : (s.touch a o).content = s.content := by
  have hd : (o.setTouched true).deleted = false := Store.Cell.deleted_of_get (o := o) h
  rw [content_setDirty (s := s) rfl hd, update_eq_self_iff, content_of_get h]
  rfl

theorem content_addBalance {amount : ℤ} (h : 0 ≤ amount) : (s.addBalance a amount).content = update s.content a
      { s.content a with balance := (s.content a).balance + amount } := by
  have hself : amount = 0 → update s.content a
      { s.content a with balance := (s.content a).balance + amount } = s.content := by
    intro h0
    rw [h0, add_zero, update_eq_self]
  rw [addBalance_eq]
  split_ifs with hpos hzero
  · rw [content_setBalance, content_getOrNewStateObject, balance_getOrNewStateObject]
  · rw [content_touch _ a (getOrNewStateObject_get s a), content_getOrNewStateObject, hself hzero.1]
  · rw [content_getOrNewStateObject, hself (by omega)]

theorem content_subBalance {amount : ℤ} (h : 0 ≤ amount) : (s.subBalance a amount).content = update s.content a
      { s.content a with balance := (s.content a).balance - amount } := by
  rw [subBalance_eq]
  split_ifs with hpos
  · rw [content_setBalance, content_getOrNewStateObject, balance_getOrNewStateObject]
  · have h0 : amount = 0 := by omega
    rw [content_getOrNewStateObject, h0, sub_zero, update_eq_self]

theorem content_addBalance_toNat (amount : ℤ) : (s.addBalance a amount).content = update s.content a
      { s.content a with balance := (s.content a).balance + amount.toNat } := by
  by_cases h : 0 ≤ amount
  · rw [content_addBalance s a h, Int.toNat_of_nonneg h]
  · have hzero : amount.toNat = 0 := by omega
    rw [addBalance_eq, if_neg (by omega), if_neg (by omega), content_getOrNewStateObject, hzero,
      Nat.cast_zero, add_zero, update_eq_self]

end

theorem content_of_moves {σ : Option (Hash × SlotKind)} (h : Moves none σ s t) : t.content = s.content := by
  induction h with
  | refl => rfl
  | tail _ hmove ih =>
    obtain ⟨e, ⟨he, -⟩, hmove⟩ := hmove
    rw [← ih]
    refine content_eq_of_view (funext fun a => ?_)
    obtain ⟨-, ⟨-, hcell⟩ | ⟨ha, -⟩⟩ := hmove.cell_cases a
    · rw [view, view, hcell, hmove.db_eq]
    · rw [he] at ha
      cases ha

theorem content_suicide (s : StateDB) (a : Address) : (s.suicide a).1.content =
    update s.content a { s.content a with balance := 0 } := by
  rw [suicide]
  cases h : s.state.getStateObject a with
  | none =>
    show s.content = _
    rw [eq_comm, update_eq_self_iff, content_of_get_none h]
    rfl
  | some => exact content_change s a _

end StateDB

end GoWanchain.State
