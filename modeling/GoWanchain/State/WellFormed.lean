import GoWanchain.State.Moves

/-!
# The invariant of the state database

`StateDB.WF` holds of a new database and is kept by every operation that deletes empty accounts where it
ends a transaction, as all callers but the genesis block do.
-/

namespace GoWanchain.State

open List

namespace Store

def Unmentioned (a : Address) (l : List JournalEntry) : Prop := ∀ e ∈ l, e.account ≠ some a

theorem Unmentioned.of_cons {a : Address} {e : JournalEntry} {l : List JournalEntry}
    (h : Unmentioned a (e :: l)) : Unmentioned a l :=
  fun e' he' => h e' (mem_cons_of_mem _ he')

theorem Unmentioned.cons {a : Address} {e : JournalEntry} {l : List JournalEntry}
    (he : e.account ≠ some a) (h : Unmentioned a l) : Unmentioned a (e :: l) :=
  forall_mem_cons.mpr ⟨he, h⟩

/-- The entry can only be the oldest one about its account: the account was created, or its object
had its callback. -/
def opens : JournalEntry → Bool
  | .createObjectChange _ => true
  | .resetObjectChange _ prev => prev.onDirty
  | .touchChange _ _ prevDirty => !prevDirty
  | _ => false

/-- No entry about `a` is older than one that opens. -/
def Chronicle (a : Address) : List JournalEntry → Prop
  | [] => True
  | e :: l => (e.account = some a → opens e = true → Unmentioned a l) ∧ Chronicle a l

namespace Cell

/-- No setter has been called on a live object: it is missing, deleted, or has its callback. -/
def Idle (c : Cell) : Prop := ∀ o, c.get = some o → o.onDirty = true

/-- An object with its callback is as it was loaded. -/
def Loaded (c : Cell) : Prop :=
  ∀ o, c.get = some o → o.onDirty = true → ∃ data, c.account = some data ∧ o = newObject data

/-- The objects and the journal fit together. -/
structure Traced (j : List JournalEntry) (a : Address) (c : Cell) : Prop where
  idle : c.Idle → Unmentioned a j
  chronicle : Chronicle a j
  loaded : c.Loaded
  stored : c.dirty = true → c.obj.isSome = true
  reset : ∀ prev, .resetObjectChange a prev ∈ j → prev.deleted = false ∧ c.dirty = true ∧
    (prev.onDirty = true → ∃ data, c.account = some data ∧ prev = newObject data)

variable {c c' : Cell} {o : StateObject} {e : JournalEntry} {j : List JournalEntry} {a : Address}

theorem idle_of_get_none (h : c.get = none) : c.Idle := by
  intro o ho
  rw [h] at ho
  cases ho

theorem idle_of_get (h : c.get = some o) (ho : o.onDirty = true) : c.Idle := by
  intro o' ho'
  rw [h] at ho'
  cases ho'
  exact ho

theorem not_idle_put (ho : o.deleted = false) : ¬ (c.put o).Idle :=
  fun h => Bool.noConfusion (h _ (get_put ho))

theorem loaded_put (hd : o.deleted = false) : (c.put o).Loaded := by
  intro o' ho' harmed
  rw [get_put hd] at ho'
  cases ho'
  cases harmed

theorem Traced.busy (hc : Traced (e :: j) a c) (he : e.account = some a) : ∃ o, c.get = some o ∧ o.onDirty = false := by
  have hbusy : ¬ c.Idle := fun ha => hc.idle ha e mem_cons_self he
  cases hget : c.get with
  | none => exact absurd (idle_of_get_none hget) hbusy
  | some o =>
    refine ⟨o, rfl, ?_⟩
    by_contra ho
    exact hbusy (idle_of_get hget (by simpa using ho))

theorem Traced.pop (hc : Traced (e :: j) a c) : Traced j a c where
  idle h := (hc.idle h).of_cons
  chronicle := hc.chronicle.2
  loaded := hc.loaded
  stored := hc.stored
  reset prev h := hc.reset prev (mem_cons_of_mem _ h)

theorem Traced.push (he : e.account ≠ some a) (hc : Traced j a c) : Traced (e :: j) a c where
  idle h := (hc.idle h).cons he
  chronicle := ⟨fun ha => absurd ha he, hc.chronicle⟩
  loaded := hc.loaded
  stored := hc.stored
  reset prev h := by
    rcases mem_cons.mp h with rfl | h
    · exact absurd rfl he
    · exact hc.reset prev h

theorem Traced.undo (hc : Traced (e :: j) a c) (he : e.account = some a) (h : Cell.undo e c = some c') :
    Traced j a c' := by
  obtain ⟨o, hget, ho⟩ := hc.busy he
  have hopens := hc.chronicle.1 he
  have hreset := hc.pop.reset
  -- an entry that opens leaves nothing to be said about older ones
  have hfree : Unmentioned a j → ∀ prev, JournalEntry.resetObjectChange a prev ∉ j :=
    fun hu prev hmem => hu _ hmem rfl
  cases undo_inv h with
  | create =>
    cases he
    refine ⟨fun _ => hopens rfl, hc.chronicle.2, ?_, fun hd => (by cases hd),
      fun prev hmem => absurd hmem (hfree (hopens rfl) prev)⟩
    intro o' ho' _
    obtain ⟨data, hdata, rfl⟩ := Option.map_eq_some_iff.mp ho'
    exact ⟨data, hdata, rfl⟩
  | reset _ prev =>
    cases he
    obtain ⟨halive, hdirty, hloaded⟩ := hc.reset prev mem_cons_self
    have hget' : ({ c with obj := some prev } : Cell).get = some prev := get_of_obj rfl halive
    refine ⟨fun hidle => hopens (hidle prev hget'), hc.chronicle.2, ?_, fun _ => rfl, hreset⟩
    intro o' ho' harmed
    rw [hget'] at ho'
    cases ho'
    exact hloaded harmed
  | change hget _ ch =>
    have hd' := ch.deleted_apply _ ▸ deleted_of_get hget
    refine ⟨fun hidle => absurd hidle (not_idle_put hd'), hc.chronicle.2, loaded_put hd', fun _ => rfl, ?_⟩
    intro prev hmem
    obtain ⟨halive, hdirty, hloaded⟩ := hreset prev hmem
    exact ⟨halive, by simp [put, hdirty], hloaded⟩
  | nothing => exact hc.pop
  | touch hsame _ prevDirty =>
    cases (hget.symm.trans hsame)
    have hget' : ({ c with obj := some (o.setTouched false), dirty := c.dirty && prevDirty } :
        Cell).get = some (o.setTouched false) := get_of_obj rfl (deleted_of_get (o := o) hget)
    have harmed : (o.setTouched false).onDirty = false := ho
    refine ⟨fun hidle => ?_, hc.chronicle.2, ?_, fun _ => rfl, ?_⟩
    · rw [hidle _ hget'] at harmed
      cases harmed
    · intro o' ho' ho''
      rw [hget'] at ho'
      cases ho'
      rw [harmed] at ho''
      cases ho''
    · intro prev hmem
      cases prevDirty with
      | true =>
        obtain ⟨halive, hdirty, hloaded⟩ := hreset prev hmem
        exact ⟨halive, by simp [hdirty], hloaded⟩
      | false => exact absurd hmem (hfree (hopens rfl) prev)

theorem traced_nil (hloaded : c.Loaded) (hstored : c.dirty = true → c.obj.isSome = true) : Traced [] a c where
  idle _ _ h := by cases h
  chronicle := trivial
  loaded := hloaded
  stored := hstored
  reset _ h := by cases h

variable [Keccak]

theorem Traced.move {db : Hash → Option Bytes} (hc : Traced j a c) (h : Move db a c e c') : Traced (e :: j) a c' := by
  have hopens : opens e = true → Unmentioned a j := by
    intro hopens
    cases h with
    | create h => exact hc.idle (idle_of_get_none h)
    | reset h => exact hc.idle (idle_of_get h hopens)
    | change => cases hopens
    | touch h => exact hc.idle (idle_of_get h (by simpa [opens] using hopens))
  have hreset : ∀ prev, .resetObjectChange a prev = e → prev.deleted = false ∧ c'.dirty = true ∧
      (prev.onDirty = true → ∃ data, c'.account = some data ∧ prev = newObject data) := by
    rintro prev rfl
    cases h with
    | reset hget => exact ⟨deleted_of_get hget, by simp [put, newObject, StateObject.setBalance], hc.loaded prev hget⟩
  obtain ⟨o, rfl, hd, -⟩ := h.put_eq
  refine ⟨fun hidle => absurd hidle (not_idle_put hd), ⟨fun _ => hopens, hc.chronicle⟩, loaded_put hd, fun _ => rfl, ?_⟩
  intro prev hmem
  rcases mem_cons.mp hmem with heq | hmem
  · exact hreset prev heq
  · obtain ⟨halive, hdirty, hloaded⟩ := hc.reset prev hmem
    exact ⟨halive, by simp [put, hdirty], hloaded⟩

/-! ### The end of a transaction or a block -/

theorem Traced.ended {b : Bool} (hc : Traced j a c) (hend : Ended b c c') : Traced [] a c' := by
  cases hend with
  | keep => exact traced_nil hc.loaded hc.stored
  | delete =>
    refine traced_nil ?_ fun _ => rfl
    intro o ho
    simp [get, deleteStateObject] at ho
  | @update obj hobj _ uncoded =>
    refine traced_nil ?_ fun _ => rfl
    intro o ho harmed
    have hd := deleted_of_get ho
    simp only [get, updateStateObject] at ho
    split at ho
    · cases ho
    · cases ho
      obtain ⟨data, -, rfl⟩ := hc.loaded obj (get_of_obj hobj hd) harmed
      exact ⟨data, rfl, by cases uncoded <;> rfl⟩

/-- An object marked as deleted has no account in the trie, and is one that would be deleted again. -/
def Swept (c : Cell) : Prop :=
  ∀ o, c.obj = some o → o.deleted = true → c.account = none ∧ (o.suicided = true ∨ o.empty = true)

theorem Swept.account_eq_none (hc : c.Swept) (h : c.get = none) : c.account = none := by
  unfold Cell.get at h
  split at h
  · rename_i o ho
    split at h
    · rename_i hd
      exact (hc o ho hd).1
    · cases h
  · exact Option.map_eq_none_iff.mp h

theorem swept_of_alive (hc : c.obj = some o) (ho : o.deleted = false) : c.Swept := by
  intro o' ho' hd
  rw [hc] at ho'
  cases ho'
  rw [ho] at hd
  cases hd

theorem Swept.undo (hc : c.Swept) (htraced : Traced (e :: j) a c) (he : e.account = some a)
    (h : Cell.undo e c = some c') : c'.Swept := by
  cases undo_inv h with
  | create =>
    intro o ho
    cases ho
  | reset _ prev =>
    cases he
    exact swept_of_alive rfl (htraced.reset prev mem_cons_self).1
  | @change o hget _ ch =>
    exact swept_of_alive (o := (ch.apply o).disarm) rfl (ch.deleted_apply o ▸ deleted_of_get hget)
  | nothing => exact hc
  | @touch o hget => exact swept_of_alive rfl (deleted_of_get (o := o) hget)

theorem Swept.ended (hc : c.Swept) (hend : Ended true c c') : c'.Swept := by
  cases hend with
  | keep => exact hc
  | delete _ h =>
    rintro _ ⟨⟩ _
    exact ⟨rfl, h.imp id And.right⟩
  | update ho h =>
    rintro _ ⟨⟩ hd
    exact absurd ((hc _ ho hd).2.imp id fun he => ⟨rfl, he⟩) h

/-- The invariant of a cell. -/
structure WF (j : List JournalEntry) (a : Address) (c : Cell) : Prop extends Traced j a c where
  swept : c.Swept

theorem WF.ended (hc : c.WF j a) (hend : Ended true c c') : c'.WF [] a :=
  ⟨hc.toTraced.ended hend, hc.swept.ended hend⟩

theorem wf_invariant (db : Hash → Option Bytes) : StateDB.Invariant db (fun _ => True) (fun _ => True) WF where
  push he h := ⟨h.toTraced.push he, h.swept⟩
  pop _ h := ⟨h.toTraced.pop, h.swept⟩
  keeps _ _ := trivial
  move h _ _ hmove := by
    refine ⟨h.toTraced.move hmove, ?_⟩
    obtain ⟨o, rfl, hd, -⟩ := hmove.put_eq
    exact swept_of_alive (o := o.disarm) rfl hd
  undo h he hundo := ⟨h.toTraced.undo he hundo, h.swept.undo h.toTraced he hundo⟩

end Cell

end Store

namespace StateDB

variable [Keccak]

/-- The invariant of a database. The identifiers of its snapshots are ones that were given out, and
newer snapshots have greater ones. -/
structure WF (s : StateDB) : Prop where
  cell : ∀ a, (s.state.cell a).WF s.journal a
  revision_lt : ∀ r ∈ s.validRevisions, r.id < s.nextRevisionId
  revision_sorted : s.validRevisions.Pairwise fun r r' => r'.id < r.id

theorem WF.new (db : Hash → Option Bytes) (trie : Address → Option Account) : (new db trie).WF where
  cell a := by
    refine ⟨Store.Cell.traced_nil ?_ fun h => Bool.noConfusion h, fun o ho => (by cases ho)⟩
    intro o ho _
    obtain ⟨data, hdata, rfl⟩ := Option.map_eq_some_iff.mp ho
    exact ⟨data, hdata, rfl⟩
  revision_lt r hr := by cases hr
  revision_sorted := Pairwise.nil

variable {s : StateDB}

theorem Move.revisions {e : JournalEntry} {t : StateDB} (h : Move s e t) :
    t.validRevisions = s.validRevisions ∧ t.nextRevisionId = s.nextRevisionId := by
  cases h with
  | cell | substate => exact ⟨rfl, rfl⟩

section Moves

variable {x : Option Address} {σ : Option (Hash × SlotKind)} {s t : StateDB}

theorem Moves.revisions (h : Moves x σ s t) :
    t.validRevisions = s.validRevisions ∧ t.nextRevisionId = s.nextRevisionId := by
  induction h with
  | refl => exact ⟨rfl, rfl⟩
  | tail _ hmove ih =>
    obtain ⟨e, -, hmove⟩ := hmove
    exact ⟨hmove.revisions.1.trans ih.1, hmove.revisions.2.trans ih.2⟩

theorem Moves.wf (h : Moves x σ s t) (hs : s.WF) : t.WF where
  cell := (Store.Cell.wf_invariant s.state.db).moves h rfl (fun _ _ => trivial) (fun _ _ => trivial) hs.cell
  revision_lt := by
    rw [h.revisions.1, h.revisions.2]
    exact hs.revision_lt
  revision_sorted := by
    rw [h.revisions.1]
    exact hs.revision_sorted

end Moves

theorem WF.snapshot (hs : s.WF) : s.snapshot.WF where
  cell := hs.cell
  revision_lt r hr := by
    rcases mem_cons.mp hr with rfl | hr
    · exact Nat.lt_succ_self _
    · exact Nat.lt_succ_of_lt (hs.revision_lt r hr)
  revision_sorted := pairwise_cons.mpr ⟨hs.revision_lt, hs.revision_sorted⟩

theorem WF.revert {t : StateDB} (hs : s.WF) {revid : ℕ} (h : s.revertToSnapshot revid = some t) : t.WF := by
  have hcell := (Store.Cell.wf_invariant s.state.db).revert h hs.cell
  obtain ⟨newer, r, older, hrev, -, st, -, rfl⟩ := Journaled.revertToSnapshot_eq h
  have hsorted := hs.revision_sorted
  rw [hrev, pairwise_append] at hsorted
  exact ⟨hcell, fun r' hr' => hs.revision_lt r' (by rw [hrev]; simp [hr']), (pairwise_cons.mp hsorted.2.1).2⟩

theorem WF.finalise (hs : s.WF) : (s.finalise true).WF where
  cell a := (hs.cell a).ended (Store.Cell.ended_finalise _ true)
  revision_lt r hr := by cases hr
  revision_sorted := Pairwise.nil

theorem WF.commitTo (hs : s.WF) : (s.commitTo true).WF where
  cell a := (hs.cell a).ended (Store.Cell.ended_commit _ true)
  revision_lt r hr := by cases hr
  revision_sorted := Pairwise.nil

end StateDB

end GoWanchain.State
