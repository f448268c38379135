import GoWanchain.State.Content
import GoWanchain.State.Dirty
import GoWanchain.State.Layout

/-!
# Accounts that hold byte arrays

An archive is an account without code and word slots that is not destructed; its balance, its nonce and its
byte arrays may change. What it holds is kept at the end of a transaction, where it is written to the trie
or deleted for being empty, and it is found again in the state that is opened with what a block has
committed (`content_finalise_bytes`, `content_reopen_bytes`).
-/

namespace GoWanchain.State

variable [Keccak]

/-! ### Objects -/

/-- A change that an archive may have. -/
def ObjectChange.Files : ObjectChange → Prop
  | .balanceChange _ => True
  | .nonceChange _ => True
  | .storageByteArrayChange _ _ => True
  | _ => False

structure StateObject.Archive (o : StateObject) : Prop where
  coherent : o.Coherent fun _ => .bytes
  code : o.code = none
  codeHash : o.data.codeHash = emptyCodeHash
  alive : o.suicided = false

namespace StateObject.Archive

variable {o : StateObject}

theorem getCode_eq (h : o.Archive) (db : Hash → Option Bytes) : o.getCode db = none := by
  simp [getCode, h.code, h.codeHash]

theorem apply (h : o.Archive) {ch : ObjectChange} (hch : ch.Files) : (ch.apply o).Archive := by
  cases ch with
  | balanceChange balance => exact ⟨h.coherent.apply (.balanceChange balance) trivial, h.code, h.codeHash, h.alive⟩
  | nonceChange nonce => exact ⟨h.coherent.apply (.nonceChange nonce) trivial, h.code, h.codeHash, h.alive⟩
  | storageByteArrayChange key value =>
    exact ⟨h.coherent.apply (.storageByteArrayChange key value) rfl, h.code, h.codeHash, h.alive⟩
  | _ => exact hch.elim

theorem bytes_of_empty (h : o.Archive) (hempty : o.empty = true) (k : Hash) : o.getStateByteArray k = [] := by
  simp only [empty, clean, GoMap.size, Bool.and_eq_true, decide_eq_true_eq, beq_iff_eq] at hempty
  obtain ⟨⟨-, hroot⟩, -, hdirty⟩ := hempty
  have hnone : o.dirtyStorageByteArray.lookup k = none := by
    by_contra hne
    obtain ⟨v, hv⟩ := Option.ne_none_iff_exists'.mp hne
    have hmem := GoMap.mem_entries_iff.mpr hv
    rw [List.length_eq_zero_iff.mp hdirty] at hmem
    cases hmem
  have hslot := h.coherent.bytes k rfl hnone
  rw [hroot] at hslot
  by_contra hne
  simp [slotOfBytes, hne] at hslot

theorem updateRoot (h : o.Archive) : o.updateRoot.Archive :=
  ⟨h.coherent.updateRoot, h.code, h.codeHash, h.alive⟩

end StateObject.Archive

theorem archive_invariant (A : Address → Prop) :
    ObjectInvariant (fun a o => A a → o.Archive) fun a ch => A a → ch.Files where
  zero a _ := ⟨StateObject.Coherent.newObject_zero _, rfl, rfl, rfl⟩
  apply h hch ha := (h ha).apply (hch ha)
  balance _ _ _ := trivial
  inverse {_ _ ch _} h ha := by
    have hfiles := h ha
    cases ch with
    | _ => exact hfiles
  flags h _ _ _ _ ha :=
    have hcoherent := (h ha).coherent
    ⟨⟨hcoherent.bytes_of_word, hcoherent.word_of_bytes, hcoherent.word, hcoherent.bytes⟩, (h ha).code, (h ha).codeHash,
      (h ha).alive⟩
  updateRoot h ha := (h ha).updateRoot
  reload h ha := ⟨(h ha).coherent.newObject_updateRoot, rfl, (h ha).codeHash, rfl⟩

/-! ### Marks -/

namespace Store.Cell

/-- What the journal says of the account: it was missing where it was created, and no object that is touched or
replaced was loaded and empty. -/
structure Listed (j : List JournalEntry) (a : Address) (account : Option Account) : Prop where
  touch : ∀ prev, .touchChange a prev false ∉ j
  created : .createObjectChange a ∈ j → account = none
  replaced : ∀ prev, .resetObjectChange a prev ∈ j → prev.onDirty = true → prev.empty = false

/-- Every change of the account is marked, and an object that was loaded is not empty. -/
structure Noted (j : List JournalEntry) (a : Address) (c : Cell) : Prop extends WF j a c where
  dirty : c.obj.isSome = true → c.dirty = true
  solid : ∀ o, c.get = some o → o.onDirty = true → o.empty = false
  listed : Listed j a c.account

variable {j : List JournalEntry} {a : Address} {c c' : Cell} {e : JournalEntry}

theorem Listed.pop {account : Option Account} (h : Listed (e :: j) a account) : Listed j a account where
  touch prev hmem := h.touch prev (List.mem_cons_of_mem _ hmem)
  created hmem := h.created (List.mem_cons_of_mem _ hmem)
  replaced prev hmem := h.replaced prev (List.mem_cons_of_mem _ hmem)

theorem Listed.push {account : Option Account} (h : Listed j a account)
    (htouch : ∀ prev, e ≠ .touchChange a prev false) (hcreate : e = .createObjectChange a → account = none)
    (hreset : ∀ prev, e = .resetObjectChange a prev → prev.onDirty = true → prev.empty = false) :
    Listed (e :: j) a account := by
  refine ⟨fun prev hmem => ?_, fun hmem => ?_, fun prev hmem => ?_⟩
  · rcases List.mem_cons.mp hmem with heq | hmem
    · exact htouch prev heq.symm
    · exact h.touch prev hmem
  · rcases List.mem_cons.mp hmem with heq | hmem
    · exact hcreate heq.symm
    · exact h.created hmem
  · rcases List.mem_cons.mp hmem with heq | hmem
    · exact hreset prev heq.symm
    · exact h.replaced prev hmem

theorem listed_nil (account : Option Account) : Listed [] a account :=
  ⟨fun _ hmem => (by cases hmem), fun hmem => (by cases hmem), fun _ hmem => (by cases hmem)⟩

theorem solid_put {o : StateObject} (hd : o.deleted = false) :
    ∀ o', (c.put o).get = some o' → o'.onDirty = true → o'.empty = false := by
  intro o' ho' harmed
  rw [get_put hd] at ho'
  cases ho'
  cases harmed

namespace Noted

theorem dirty_put (h : c.Noted j a) {o prev : StateObject} (hprev : c.get = some prev) (ho : o.onDirty = prev.onDirty) :
    (c.put o).dirty = true := by
  show (c.dirty || o.onDirty) = true
  cases hobj : c.obj with
  | some => simp [h.dirty (by simp [hobj])]
  | none =>
    simp only [Cell.get, hobj] at hprev
    obtain ⟨data, -, rfl⟩ := Option.map_eq_some_iff.mp hprev
    simp [ho, newObject]

theorem listed_move {db : Hash → Option Bytes} (h : c.Noted j a) (hmove : Cell.Move db a c e c') :
    Listed (e :: j) a c.account := by
  cases hmove with
  | create hget => exact h.listed.push (by simp) (fun _ => h.swept.account_eq_none hget) (by simp)
  | reset hget =>
    refine h.listed.push (by simp) (by simp) fun prev heq ho => ?_
    cases heq
    exact h.solid _ hget ho
  | change => exact h.listed.push (by simp) (by simp) (by simp)
  | @touch o hget hempty =>
    refine h.listed.push (fun prev heq => ?_) (by simp) (by simp)
    have harmed : o.onDirty = true := by simpa using (JournalEntry.touchChange.inj heq).2.2
    rw [h.solid o hget harmed] at hempty
    cases hempty

theorem move {db : Hash → Option Bytes} (h : c.Noted j a) (hmove : Cell.Move db a c e c') : c'.Noted (e :: j) a := by
  have hwf : c'.WF (e :: j) a := (wf_invariant db).move h.toWF trivial trivial hmove
  have hlisted := h.listed_move hmove
  obtain ⟨o, rfl, hd, harmed⟩ := hmove.put_eq
  refine ⟨hwf, fun _ => ?_, solid_put hd, hlisted⟩
  rcases harmed with ho | ⟨prev, hprev, ho⟩
  · simp [Cell.put, ho]
  · exact h.dirty_put hprev ho.symm

theorem undo (db : Hash → Option Bytes) (h : c.Noted (e :: j) a) (he : e.account = some a)
    (hundo : Cell.undo e c = some c') : c'.Noted j a := by
  have hwf : c'.WF j a := (wf_invariant db).undo h.toWF he hundo
  have hlisted : Listed j a c'.account := undo_account hundo ▸ h.listed.pop
  obtain ⟨o, hget, ho⟩ := h.busy he
  have hdirty : c.dirty = true := by
    refine h.dirty ?_
    cases hobj : c.obj with
    | some => rfl
    | none =>
      simp only [Cell.get, hobj] at hget
      obtain ⟨data, -, rfl⟩ := Option.map_eq_some_iff.mp hget
      cases ho
  cases undo_inv hundo with
  | create =>
    cases he
    refine ⟨hwf, fun hobj => (by cases hobj), fun o' ho' => ?_, hlisted⟩
    simp [Cell.get, h.listed.created List.mem_cons_self] at ho'
  | reset _ prev =>
    cases he
    refine ⟨hwf, fun _ => hdirty, fun o' ho' harmed => ?_, hlisted⟩
    rw [get_of_obj rfl (h.reset prev List.mem_cons_self).1] at ho'
    cases ho'
    exact h.listed.replaced _ List.mem_cons_self harmed
  | change hget _ ch =>
    exact ⟨hwf, fun _ => h.dirty_put hget (ch.onDirty_apply _),
      solid_put (by rw [ch.deleted_apply, deleted_of_get hget]), hlisted⟩
  | nothing => exact ⟨hwf, h.dirty, h.solid, hlisted⟩
  | touch hsame _ prevDirty =>
    cases he
    cases (hget.symm.trans hsame)
    have hmark : prevDirty = true := by
      by_contra hfalse
      rw [Bool.not_eq_true] at hfalse
      exact h.listed.touch false (hfalse ▸ List.mem_cons_self)
    refine ⟨hwf, fun _ => by simp [hdirty, hmark], fun o' ho' harmed => ?_, hlisted⟩
    have halive : (o.setTouched false).deleted = false := deleted_of_get (o := o) hget
    rw [get_of_obj rfl halive] at ho'
    cases ho'
    exact absurd (show o.onDirty = true from harmed) (by simp [ho])

end Noted

theorem noted_invariant (A : Address → Prop) (db : Hash → Option Bytes) :
    StateDB.Invariant db (fun _ => True) (fun _ => True) fun j a c => A a → c.Noted j a where
  push {e j a c} he h ha := by
    have hwf := (wf_invariant db).push he (h ha).toWF
    refine ⟨hwf, (h ha).dirty, (h ha).solid, (h ha).listed.push ?_ ?_ ?_⟩
    · rintro prev rfl
      exact he rfl
    · rintro rfl
      exact absurd rfl he
    · rintro prev rfl
      exact absurd rfl he
  pop {e j a c} he h ha := ⟨(wf_invariant db).pop he (h ha).toWF, (h ha).dirty, (h ha).solid, (h ha).listed.pop⟩
  keeps _ _ := trivial
  move h _ _ hmove ha := (h ha).move hmove
  undo h he hundo ha := (h ha).undo db he hundo

end Store.Cell

/-! ### The end of a transaction or a block -/

namespace Store.Cell

variable {j : List JournalEntry} {a : Address} {c : Cell}

/-- The byte array that is read under a key. -/
def bytes (c : Cell) (k : Hash) : Bytes := c.get.elim [] (·.getStateByteArray k)

/-- How an archive is finalised: a missing one is left alone, an empty one is deleted, another one is written. -/
theorem finalise_archive (h : c.Noted j a) (harchive : ∀ o, c.obj = some o → o.Archive) :
    (c.obj = none ∧ c.finalise true = c) ∨
    (∃ o, c.obj = some o ∧ o.empty = true ∧ c.finalise true = c.deleteStateObject o) ∨
    ∃ o, c.obj = some o ∧ o.empty = false ∧ o.deleted = false ∧ c.finalise true = c.updateStateObject o := by
  unfold Cell.finalise
  cases hobj : c.obj with
  | none => exact .inl ⟨rfl, rfl⟩
  | some o =>
    have halive := (harchive o hobj).alive
    rw [h.dirty (by simp [hobj])]
    cases hempty : o.empty with
    | true => exact .inr (.inl ⟨o, rfl, hempty, by simp [halive, hempty]⟩)
    | false =>
      refine .inr (.inr ⟨o, rfl, hempty, ?_, by simp [halive, hempty]⟩)
      by_contra hd
      have hswept := (h.swept o hobj (by simpa using hd)).2
      simp [halive, hempty] at hswept

theorem bytes_of_empty {o : StateObject} (hobj : c.obj = some o) (ho : o.Archive) (hempty : o.empty = true) (k : Hash) :
    c.bytes k = [] := by
  rw [bytes, Cell.get, hobj]
  simp only
  split
  · rfl
  · exact ho.bytes_of_empty hempty k

omit [Keccak] in
theorem get_deleteStateObject (o : StateObject) : (c.deleteStateObject o).get = none := by
  simp [Cell.get, Cell.deleteStateObject]

theorem bytes_finalise (h : c.Noted j a) (harchive : ∀ o, c.obj = some o → o.Archive) (k : Hash) :
    (c.finalise true).bytes k = c.bytes k := by
  rcases finalise_archive h harchive with ⟨-, heq⟩ | ⟨o, hobj, hempty, heq⟩ | ⟨o, hobj, -, hd, heq⟩
  · rw [heq]
  · rw [heq, bytes_of_empty hobj (harchive o hobj) hempty, bytes, get_deleteStateObject]
    rfl
  · rw [heq, bytes, get_of_obj (o := o.updateRoot) rfl hd, bytes, get_of_obj hobj hd]
    exact (harchive o hobj).coherent.getStateByteArray_updateRoot rfl

theorem Noted.finalise (h : c.Noted j a) (harchive : ∀ o, c.obj = some o → o.Archive) :
    (c.finalise true).Noted [] a := by
  have hwf : (c.finalise true).WF [] a :=
    h.toWF.ended (ended_finalise c true)
  rcases finalise_archive h harchive with ⟨-, heq⟩ | ⟨o, hobj, hempty, heq⟩ | ⟨o, hobj, hempty, hd, heq⟩
  · rw [heq] at hwf ⊢
    exact ⟨hwf, h.dirty, h.solid, listed_nil _⟩
  · rw [heq] at hwf ⊢
    refine ⟨hwf, fun _ => h.dirty (by simp [hobj]), fun o' ho' => ?_, listed_nil _⟩
    rw [get_deleteStateObject] at ho'
    cases ho'
  · rw [heq] at hwf ⊢
    refine ⟨hwf, fun _ => h.dirty (by simp [hobj]), fun o' ho' harmed => ?_, listed_nil _⟩
    -- an object that was loaded is written as it is
    rw [get_of_obj (o := o.updateRoot) rfl hd] at ho'
    cases ho'
    obtain ⟨data, -, rfl⟩ := h.loaded o (get_of_obj hobj hd) harmed
    exact hempty

/-- What a block leaves of an archive in the trie: nothing of an empty one, else an account that is not empty. -/
theorem account_commit (h : c.Noted j a) (harchive : ∀ o, c.obj = some o → o.Archive) :
    (∀ data, ((c.finalise true).commit true).account = some data → (newObject data).empty = false) ∧
    ∀ k, (((c.finalise true).commit true).account.map newObject).elim [] (·.getStateByteArray k) = c.bytes k := by
  rcases finalise_archive h harchive with ⟨hobj, heq⟩ | ⟨o, hobj, hempty, heq⟩ | ⟨o, hobj, hempty, hd, heq⟩
  · have hcommit : c.commit true = c := by simp [Cell.commit, hobj]
    rw [heq, hcommit]
    refine ⟨fun data hdata => h.solid _ ?_ rfl, fun k => ?_⟩
    · simp [Cell.get, hobj, hdata]
    · simp [bytes, Cell.get, hobj]
  · have hempty' : ({ o with deleted := true } : StateObject).empty = true := hempty
    have hdirty : c.dirty = true := h.dirty (by simp [hobj])
    have hcommit : ((c.deleteStateObject o).commit true).account = none := by
      simp [Cell.commit, Cell.deleteStateObject, hdirty, hempty']
    rw [heq, hcommit]
    exact ⟨fun data hdata => (by cases hdata), fun k => (bytes_of_empty hobj (harchive o hobj) hempty k).symm⟩
  · have hwritten := (harchive o hobj).updateRoot
    have hdirty : c.dirty = true := h.dirty (by simp [hobj])
    have hbytes (k : Hash) : c.bytes k = o.updateRoot.getStateByteArray k := by
      rw [bytes, get_of_obj hobj hd]
      exact ((harchive o hobj).coherent.getStateByteArray_updateRoot rfl).symm
    cases hleft : o.updateRoot.empty with
    | true =>
      have hcommit : ((c.updateStateObject o).commit true).account = none := by
        simp [Cell.commit, Cell.updateStateObject, Cell.deleteStateObject, hdirty, hleft]
      rw [heq, hcommit]
      refine ⟨fun data hdata => (by cases hdata), fun k => ?_⟩
      rw [hbytes, hwritten.bytes_of_empty hleft]
      rfl
    | false =>
      have hcommit : ((c.updateStateObject o).commit true).account = some o.updateRoot.data := by
        have halive : o.updateRoot.suicided = false := hwritten.alive
        simp only [Cell.commit, Cell.updateStateObject, hdirty, hleft, halive, Bool.and_false, Bool.or_false,
          Bool.false_eq_true, if_false, if_true]
        rfl
      rw [heq, hcommit]
      refine ⟨fun data hdata => ?_, fun k => ?_⟩
      · cases hdata
        exact hleft
      · -- all that is read is in the trie
        have hslot : o.updateRoot.data.root.lookup k = slotOfBytes (o.updateRoot.getStateByteArray k) :=
          hwritten.coherent.bytes k rfl rfl
        rw [hbytes]
        show (o.updateRoot.data.root.lookup k).getD [] = _
        rw [hslot, slotOfBytes]
        split_ifs with hnil
        · exact hnil.symm
        · rfl

end Store.Cell

/-! ### States -/

/-- An entry that is about no archive, or a change that an archive may have. -/
def JournalEntry.Files (A : Address → Prop) (e : JournalEntry) : Prop :=
  ∀ a ch, e = .objectChange a ch → A a → ch.Files

/-- The accounts in `A` are archives, and their changes are marked. -/
structure StateDB.Archives (A : Address → Prop) (s : StateDB) : Prop where
  kept : ∀ a, (s.state.cell a).Upholds (fun a o => A a → o.Archive) (fun a ch => A a → ch.Files) s.journal a
  noted : ∀ a, A a → (s.state.cell a).Noted s.journal a

namespace StateDB.Archives

variable {A : Address → Prop} {s t : StateDB}

theorem new (db : Hash → Option Bytes) {trie : Address → Option Account}
    (h : ∀ a data, A a → trie a = some data → (newObject data).Archive ∧ (newObject data).empty = false) :
    (StateDB.new db trie).Archives A where
  kept a := .nil (fun o ho => (by cases ho)) fun data hdata ha => (h a data ha hdata).1
  noted a ha := by
    refine ⟨(WF.new db trie).cell a, fun hobj => (by cases hobj), fun o ho _ => ?_, Store.Cell.listed_nil _⟩
    obtain ⟨data, hdata, rfl⟩ := Option.map_eq_some_iff.mp (show Option.map newObject (trie a) = some o from ho)
    exact (h a data ha hdata).2

theorem works (hs : s.Archives A) (h : Works (JournalEntry.Files A) s t) : t.Archives A where
  kept := h.invariant ((archive_invariant A).invariant s.state.db) rfl hs.kept
  noted := by
    have hmoves : Works (fun _ => True) s t := h.mono fun _ _ => trivial
    exact hmoves.invariant (Store.Cell.noted_invariant A s.state.db) rfl hs.noted

theorem archive (hs : s.Archives A) {a : Address} (ha : A a) {o : StateObject}
    (ho : s.state.getStateObject a = some o) : o.Archive := (hs.kept a).get ho ha

theorem code_eq (hs : s.Archives A) {a : Address} (ha : A a) : (s.content a).code = [] := by
  rw [← getCode_eq, getCode]
  cases ho : s.state.getStateObject a with
  | none => rfl
  | some => simp [(hs.archive ha ho).getCode_eq]

theorem bytes_eq (s : StateDB) (a : Address) : (s.content a).bytes = (s.state.cell a).bytes := by
  funext k
  rw [← getStateByteArray_eq, getStateByteArray, Store.getStateObject_eq]
  rfl

theorem obj (hs : s.Archives A) {a : Address} (ha : A a) : ∀ o, (s.state.cell a).obj = some o → o.Archive :=
  fun o ho => (hs.kept a).obj o ho ha

theorem finalise (hs : s.Archives A) : (s.finalise true).Archives A where
  kept a := (hs.kept a).ended (archive_invariant A) (Store.Cell.ended_finalise _ true)
  noted a ha := (hs.noted a ha).finalise (hs.obj ha)

theorem content_finalise_bytes (hs : s.Archives A) {a : Address} (ha : A a) :
    ((s.finalise true).content a).bytes = (s.content a).bytes := by
  rw [bytes_eq, bytes_eq]
  funext k
  exact Store.Cell.bytes_finalise (hs.noted a ha) (hs.obj ha) k

end StateDB.Archives

/-- The state of the next block: it is opened with what the block has committed. -/
def StateDB.reopen (s : StateDB) (db : Hash → Option Bytes) : StateDB :=
  .new db ((s.finalise true).commitTo true).state.trie

namespace StateDB.Archives

variable {A : Address → Prop} {s : StateDB}

theorem reopen (hs : s.Archives A) (db : Hash → Option Bytes) : (s.reopen db).Archives A :=
  .new db fun a data ha hdata => ⟨((hs.finalise.kept a).ended (archive_invariant A)
    (Store.Cell.ended_commit _ true)).account data hdata ha,
    (Store.Cell.account_commit (hs.noted a ha) (hs.obj ha)).1 data hdata⟩

theorem content_reopen_bytes (hs : s.Archives A) (db : Hash → Option Bytes) {a : Address} (ha : A a) :
    ((s.reopen db).content a).bytes = (s.content a).bytes := by
  rw [bytes_eq, bytes_eq]
  funext k
  exact (Store.Cell.account_commit (hs.noted a ha) (hs.obj ha)).2 k

end StateDB.Archives

/-! ### The operations of a state -/

namespace StateDB

variable {A : Address → Prop} (s : StateDB) (a : Address)

omit [Keccak] in
theorem files_of_ne {e : JournalEntry} (h : ∀ a ch, e ≠ .objectChange a ch) : e.Files A :=
  fun a ch heq => absurd heq (h a ch)

theorem works_of_moves {x : Option Address} {σ : Option (Hash × SlotKind)} {t : StateDB} (h : Moves x σ s t)
    (hx : ∀ a, x = some a → ¬ A a) : Works (JournalEntry.Files A) s t := by
  refine .moves h fun e habout b ch heq hb => absurd hb (hx b ?_)
  rw [← habout.1, heq]
  rfl

theorem works_createObject (h : (s.state.cell a).get = none) : Works (JournalEntry.Files A) s (s.createObject a) := by
  rw [createObject_eq s a h, Store.setDirty_eq]
  exact .move (e := .createObjectChange a) .refl (files_of_ne (by simp)) (.cell (.create h))

theorem works_getOrNewStateObject : Works (JournalEntry.Files A) s (s.getOrNewStateObject a).1 := by
  rw [getOrNewStateObject]
  split
  · exact .refl
  · rename_i hget
    exact works_createObject s a hget

theorem works_change {ch : ObjectChange} (hch : A a → ch.Files) : Works (JournalEntry.Files A) s (s.change a ch) := by
  rw [change_eq, Store.setDirty_eq]
  refine (works_getOrNewStateObject s a).move ?_ (.cell (.change (getOrNewStateObject_get s a) ch))
  intro b ch' heq hb
  obtain ⟨rfl, rfl⟩ := JournalEntry.objectChange.inj heq
  have hfiles := hch hb
  cases ch with
  | _ => exact hfiles

theorem works_addBalance (amount : ℤ) : Works (JournalEntry.Files A) s (s.addBalance a amount) := by
  rw [addBalance_eq]
  split_ifs with hpos hzero
  · exact (works_getOrNewStateObject s a).trans (works_change _ a fun _ => trivial)
  · rw [touch, Store.setDirty_eq]
    exact (works_getOrNewStateObject s a).move (files_of_ne (by simp))
      (.cell (.touch (getOrNewStateObject_get s a) hzero.2))
  · exact works_getOrNewStateObject s a

theorem works_subBalance (amount : ℤ) : Works (JournalEntry.Files A) s (s.subBalance a amount) := by
  rw [subBalance_eq]
  split_ifs
  · exact (works_getOrNewStateObject s a).trans (works_change _ a fun _ => trivial)
  · exact works_getOrNewStateObject s a

theorem works_createAccount : Works (JournalEntry.Files A) s (s.createAccount a) := by
  cases hget : (s.state.cell a).get with
  | none =>
    rw [createAccount_of_missing s a hget]
    exact works_createObject s a hget
  | some prev =>
    rw [createAccount_eq s a hget, Store.setDirty_eq]
    exact .move (e := .resetObjectChange a prev) .refl (files_of_ne (by simp)) (.cell (.reset hget _))

end StateDB

end GoWanchain.State
