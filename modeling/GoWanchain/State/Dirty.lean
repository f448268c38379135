import GoWanchain.State.Operations
import GoWanchain.State.View

/-!
# The marks of the dirty objects

An object reports itself dirty once, through a callback that it then drops. So an object is safe as long as
it is marked or still has its callback. Reverting the touch that marked an object takes the mark away and
does not give the callback back, and `CommitTo` takes all marks away: such an object is *forgotten*, and the
next write to it is lost.
-/

namespace GoWanchain.State

open Run

theorem StateObject.updateRoot_data_of_view [Keccak] {db : Hash → Option Bytes} {o : StateObject}
    {data : Account} (h : o.view db = (newObject data).view db) (hroot : data.root = ∅) : o.updateRoot.data = data := by
  have hfields := AccountView.mk.injEq .. |>.mp h
  obtain ⟨hbalance, hnonce, hcodeHash, -, hword, hbytes, -, horoot⟩ := hfields
  have htrie : o.updateTrie = ∅ := by
    apply Finmap.ext_lookup
    intro k
    have hw : o.getState k = 0 := by
      rw [hword]
      simp [newObject, getState, hroot]
    have hb : o.getStateByteArray k = [] := by
      rw [hbytes]
      simp [newObject, getStateByteArray, hroot]
    -- what waits to be flushed is cached, hence zero
    rw [lookup_updateTrie, horoot, show (newObject data).data.root = ∅ from hroot, Finmap.lookup_empty]
    cases hdb : o.dirtyStorageByteArray.lookup k with
    | some b =>
      have : b = [] := by simpa [getStateByteArray, o.bytes_cached k b hdb] using hb
      simp [slotOfBytes, this]
    | none =>
      cases hdw : o.dirtyStorage.lookup k with
      | some v =>
        have : v = 0 := by simpa [getState, o.word_cached k v hdw] using hw
        simp [slotOfWord, this]
      | none => rfl
  obtain ⟨nonce, balance, root, codeHash⟩ := data
  simp only [newObject] at hbalance hnonce hcodeHash hroot
  simp [updateRoot, htrie, hbalance, hnonce, hcodeHash, hroot]

namespace Store.Cell

/-- A live object that is not marked has nothing to write. -/
def Tracked (c : Cell) : Prop :=
  ∀ o, c.obj = some o → o.deleted = false → c.dirty = false → c.account = some o.updateRoot.data

/-- A live object that is neither marked nor has its callback. -/
def forgotten (c : Cell) : Bool := c.get.any fun o => !o.onDirty && !c.dirty

variable {c c' : Cell} {db : Hash → Option Bytes} {e : JournalEntry} {j : List JournalEntry} {a : Address}

theorem tracked_of_dirty (h : c.dirty = true) : c.Tracked := by
  intro o _ _ hclean
  rw [h] at hclean
  cases hclean

variable [Keccak]

theorem Tracked.ended {b : Bool} (h : c.Tracked) (hend : Ended b c c') : c'.Tracked := by
  cases hend with
  | keep => exact h
  | delete =>
    rintro _ ⟨⟩ hd
    cases hd
  | update =>
    rintro _ ⟨⟩ _ _
    rfl

/-- Undoing the entries above the first touch of the account leads back to what was loaded, an account
without storage. -/
def TouchBacked (db : Hash → Option Bytes) (j : List JournalEntry) (a : Address) (c : Cell) : Prop :=
  ∀ δ rest, j = δ ++ .touchChange a false false :: rest → ∃ u data,
    Journaled.undoAll (undoAt a) δ c = some u ∧ c.account = some data ∧ data.root = ∅ ∧
      u.view db = some ((newObject data).view db)

/-- The invariant behind the marks. -/
structure Marked (db : Hash → Option Bytes) (j : List JournalEntry) (a : Address) (c : Cell) :
    Prop extends Traced j a c where
  tracked : c.Tracked
  mentioned : c.dirty = true ∨ Unmentioned a j
  touch : TouchBacked db j a c

theorem respects_undoAt (db : Hash → Option Bytes) (a : Address) :
    Journaled.Respects (undoAt a) fun _ => SameView db where
  refl _ _ := ⟨rfl, rfl⟩
  trans h h' := ⟨h.1.trans h'.1, h.2.trans h'.2⟩
  undo := by
    intro e δ c c' d h hc
    rw [undoAt] at hc ⊢
    split at hc
    · rename_i he
      rw [if_pos he]
      exact h.undo hc
    · rename_i he
      cases hc
      exact ⟨d, if_neg he, h⟩

theorem TouchBacked.push (hc : TouchBacked db j a c) (haccount : c'.account = c.account)
    (hnew : e = .touchChange a false false → ∃ data, c.account = some data ∧ data.root = ∅ ∧
      c'.view db = some ((newObject data).view db))
    (hback : ¬ Unmentioned a j → ∃ u, undoAt a e c' = some u ∧ SameView db c u) : TouchBacked db (e :: j) a c' := by
  intro δ rest hj
  rw [haccount]
  cases δ with
  | nil =>
    obtain ⟨data, hdata⟩ := hnew (List.cons.inj hj).1
    exact ⟨c', data, rfl, hdata⟩
  | cons _ δ =>
    obtain ⟨rfl, htail⟩ := List.cons.inj hj
    have hmentioned : ¬ Unmentioned a j := fun hu =>
      hu (.touchChange a false false) (by rw [htail]; simp) rfl
    obtain ⟨u, data, hu, hdata, hroot, hview⟩ := hc δ rest htail
    obtain ⟨v, hv, hcv⟩ := hback hmentioned
    obtain ⟨w, hw, huw⟩ := (respects_undoAt db a).undoAll (l := δ) (δ := []) hcv hu
    exact ⟨w, data, by rw [Journaled.undoAll, hv]; exact hw, hdata, hroot, by rw [← huw.1, hview]⟩

theorem TouchBacked.pop (hc : TouchBacked db (e :: j) a c)
    (h : undoAt a e c = some c') (haccount : c'.account = c.account) : TouchBacked db j a c' := by
  intro δ rest hj
  obtain ⟨u, data, hu, hdata⟩ := hc (e :: δ) rest (by rw [hj]; rfl)
  rw [Journaled.undoAll, h, Option.bind_some] at hu
  rw [haccount]
  exact ⟨u, data, hu, hdata⟩

theorem Move.touchBacked (hc : c.Marked db j a) (h : Move db a c e c') : TouchBacked db (e :: j) a c' := by
  refine hc.touch.push ?_ ?_ ?_
  · obtain ⟨o, rfl, -⟩ := h.put_eq
    rfl
  · -- the touched object had its callback
    intro he
    cases h with
    | create | reset | change => cases he
    | @touch o h hempty =>
      have harmed : o.onDirty = true := by
        have := (JournalEntry.touchChange.inj he).2.2
        simpa using this
      obtain ⟨data, hdata, rfl⟩ := hc.loaded o h harmed
      refine ⟨data, hdata, ?_, view_put db rfl⟩
      simp only [StateObject.empty, Bool.and_eq_true, decide_eq_true_eq] at hempty
      exact hempty.1.2
  · -- a created account has no older entries, any other change leads back to the same view
    intro hmentioned
    rw [undoAt, if_pos h.account_eq]
    exact h.undo fun hget => absurd (hc.idle (idle_of_get_none hget)) hmentioned

theorem Marked.undo (hc : c.Marked db (e :: j) a) (he : e.account = some a)
    (h : Cell.undo e c = some c') : c'.Marked db j a := by
  have htraced := hc.toTraced.undo he h
  have htouch := hc.touch.pop (by rw [undoAt, if_pos he, h]) (undo_account h)
  have hdirty : c.dirty = true := hc.mentioned.resolve_right fun hu => hu e List.mem_cons_self he
  have hopens := hc.chronicle.1 he
  cases undo_inv h with
  | create => exact ⟨htraced, fun o ho => (by cases ho), .inr (hopens rfl), htouch⟩
  | reset | nothing => exact ⟨htraced, tracked_of_dirty hdirty, .inl hdirty, htouch⟩
  | @change o _ _ ch =>
    have hput : (c.put (ch.apply o)).dirty = true := by simp [put, hdirty]
    exact ⟨htraced, tracked_of_dirty hput, .inl hput, htouch⟩
  | @touch o hget _ prevDirty =>
    cases he
    cases prevDirty with
    | true =>
      have hkept : (c.dirty && true) = true := by simp [hdirty]
      exact ⟨htraced, tracked_of_dirty hkept, .inl hkept, htouch⟩
    | false =>
      -- the mark goes, and the object is read as it was loaded
      obtain ⟨u, data, hu, hdata, hroot, hview⟩ := hc.touch [] j rfl
      cases hu
      rw [Cell.view, hget, Option.map_some, Option.some.injEq] at hview
      refine ⟨htraced, ?_, .inr (hopens rfl), htouch⟩
      intro o' ho' _ _
      cases ho'
      show c.account = some o.updateRoot.data
      rw [hdata, StateObject.updateRoot_data_of_view hview hroot]

theorem Move.dirty (h : Move db a c e c') (hc : c.forgotten = false) : c'.dirty = true := by
  obtain ⟨o, rfl, -, ho⟩ := h.put_eq
  show (c.dirty || o.onDirty) = true
  rcases ho with ho | ⟨prev, hprev, heq⟩
  · simp [ho]
  · rw [forgotten, hprev] at hc
    rw [← heq]
    cases hdirty : c.dirty <;> simp_all

theorem marked_invariant (db : Hash → Option Bytes) :
    StateDB.Invariant db (fun _ => True) (fun c => c.forgotten = false) (Marked db) where
  push := by
    intro e j a c he h
    refine ⟨h.toTraced.push he, h.tracked, h.mentioned.imp id fun hu => hu.cons he, ?_⟩
    refine h.touch.push rfl (fun heq => absurd (by rw [heq]; rfl) he) fun _ => ?_
    exact ⟨c, if_neg he, rfl, rfl⟩
  pop := by
    intro e j a c he h
    exact ⟨h.toTraced.pop, h.tracked, h.mentioned.imp id Unmentioned.of_cons, h.touch.pop (if_neg he) rfl⟩
  keeps := by
    intro e a c c' hc h
    rw [forgotten, h.dirty hc]
    simp
  move := by
    intro e j a c c' hc _ hQ h
    have hdirty := h.dirty hQ
    exact ⟨hc.toTraced.move h, tracked_of_dirty hdirty, .inl hdirty, h.touchBacked hc⟩
  undo hc he h := hc.undo he h

end Store.Cell

namespace StateDB

variable [Keccak]

/-- The account is live and its next change would not be noticed. -/
def forgotten (s : StateDB) (a : Address) : Bool := (s.state.cell a).forgotten

/-- The marks are right in every cell. -/
def Marked (s : StateDB) : Prop := ∀ a, (s.state.cell a).Marked s.state.db s.journal a

variable {c : Store.Cell}

theorem marked_nil {db : Hash → Option Bytes} {a : Address} (htraced : c.Traced [] a) (htracked : c.Tracked) :
    c.Marked db [] a where
  toTraced := htraced
  tracked := htracked
  mentioned := Or.inr fun _ he => (by cases he)
  touch := by
    intro δ rest hj
    cases δ <;> cases hj

theorem marked_new (db : Hash → Option Bytes) (trie : Address → Option Account) : (new db trie).Marked := by
  intro a
  exact marked_nil ((WF.new db trie).cell a).toTraced fun _ ho => (by cases ho)

theorem Marked.ended {db : Hash → Option Bytes} {j : List JournalEntry} {a : Address} {b : Bool} {c' : Store.Cell}
    (h : c.Marked db j a) (hend : Store.Cell.Ended b c c') : c'.Marked db [] a :=
  marked_nil (h.toTraced.ended hend) (h.tracked.ended hend)

/-- No write to a forgotten account, and no `DeleteSuicides`, which drops the marks unwritten. -/
def Noticed (s : StateDB) : Op → Prop
  | .write w => (w.account.any s.forgotten) = false
  | .deleteSuicides => False
  | _ => True

instance (s : StateDB) (op : Op) : Decidable (s.Noticed op) :=
  match op with
  | .write w => inferInstanceAs (Decidable ((w.account.any s.forgotten) = false))
  | .deleteSuicides => inferInstanceAs (Decidable False)
  | .snapshot | .revert _ | .prepare _ _ _ | .finalise _ | .commitTo _ =>
    inferInstanceAs (Decidable True)

theorem step_marked (s : StateDB) (op : Op) (hs : s.Marked) (hop : s.Noticed op) : (s.step op).Marked := by
  have hinv := Store.Cell.marked_invariant s.state.db
  cases op with
  | write w =>
    have hmoves := write_moves s w
    rw [Marked, step, hmoves.db_eq]
    refine hinv.moves hmoves rfl (fun _ _ => trivial) ?_ hs
    intro a ha
    rw [Noticed, ha] at hop
    exact hop
  | snapshot | prepare => exact hs
  | revert back =>
    rw [step]
    cases h : s.revertBack back with
    | none => exact hs
    | some =>
      obtain ⟨revid, hrevert⟩ := revertBack_eq h
      rw [Option.getD_some, Marked, revertToSnapshot_db hrevert]
      exact hinv.revert hrevert hs
  | finalise b => exact fun a => Marked.ended (hs a) (Store.Cell.ended_finalise _ b)
  | commitTo b => exact fun a => Marked.ended (hs a) (Store.Cell.ended_commit _ b)
  | deleteSuicides => cases hop

/-- What the account trie holds of an object afterwards: its values, or nothing where it is deleted. -/
def Written (o : StateObject) (deleteEmptyObjects : Bool) (account : Option Account) : Prop :=
  account = some o.updateRoot.data ∨ account = none ∧ (o.suicided = true ∨ deleteEmptyObjects = true ∧ o.empty = true)

theorem written_ended {b : Bool} {c' : Store.Cell} {o : StateObject} (h : c.Tracked) (ho : c.obj = some o)
    (hd : o.deleted = false) (hend : c.Ended b c') : Written o b c'.account := by
  cases hend with
  | keep hclean => exact .inl (h o ho hd (hclean o ho))
  | delete ho' hswept =>
    cases (ho.symm.trans ho')
    exact .inr ⟨rfl, hswept⟩
  | update ho' =>
    cases (ho.symm.trans ho')
    exact .inl rfl

end StateDB

namespace StateDB.Sample

attribute [local instance] Sample.keccak

def emptyGenesis : Address → Option Account := fun a => if a = 0x11 then some Account.zero else none

/-- The touch of an account is reverted, and another account gets money. -/
def touchedRun : List Op :=
  [.snapshot, .write (.addBalance 0x11 0), .revert 0, .write (.addBalance 0x22 5)]

/-- The touch of an account is reverted, and the same account gets money. -/
def lostRun : List Op :=
  [.snapshot, .write (.addBalance 0x11 0), .revert 0, .write (.addBalance 0x11 5)]

end StateDB.Sample

end GoWanchain.State
