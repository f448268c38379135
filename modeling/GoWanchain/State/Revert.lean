import GoWanchain.State.Simulation

/-!
# The revert law

What `RevertToSnapshot` gives back behaves like the state at the snapshot (`revert_law`), if the operations
between were such that undoing them leaves no trace. Three kinds of operations leave one:

* a write to an account that is present, empty and not yet marked: the mark that stays makes the end of the
  transaction delete the account;
* a storage write to an account that was there without storage: the write that restores the slot stays
  pending, so that the account no longer counts as empty;
* a write to a slot that holds the other kind: the value that is restored is not the one the trie had.
-/

namespace GoWanchain.State

open Run

namespace Store.Cell

variable [Keccak]

/-- One of the entries puts back the object of `a` as a whole. -/
def dropped (a : Address) (δ : List JournalEntry) : Bool :=
  δ.any fun e => decide (e.account = some a) && drops e

/-- `d` is `c` again, up to what the entries `δ` will still take away. -/
def Restored (db : Hash → Option Bytes) (δ : List JournalEntry) (a : Address) (c d : Cell) : Prop :=
  c = d ∨ Alike db c d ∧ (dropped a δ = true ∨ c.hasStorage = d.hasStorage) ∧ (Unmentioned a δ ∨ c.Busy ∧ d.Busy)

variable {db : Hash → Option Bytes} {a : Address} {c d c' : Cell}

omit [Keccak] in
theorem dropped_cons (e : JournalEntry) (δ : List JournalEntry) :
    dropped a (e :: δ) = (decide (e.account = some a) && drops e || dropped a δ) := rfl

theorem respects_restored (db : Hash → Option Bytes) : CellRespects (Restored db) where
  refl _ _ _ := Or.inl rfl
  trans := by
    intro δ a c d e h h'
    rcases h with rfl | ⟨halike, hstorage, hbusy⟩
    · exact h'
    rcases h' with rfl | ⟨halike', hstorage', hbusy'⟩
    · exact .inr ⟨halike, hstorage, hbusy⟩
    refine .inr ⟨⟨⟨halike.view.1.trans halike'.view.1, halike.view.2.trans halike'.view.2⟩,
      halike.mark.trans halike'.mark⟩, ?_, ?_⟩
    · rcases hstorage with hdrop | hstorage
      · exact .inl hdrop
      · exact hstorage'.imp id hstorage.trans
    · rcases hbusy with hfree | hbusy
      · exact .inl hfree
      · exact hbusy'.imp id fun h => ⟨hbusy.1, h.2⟩
  frame := by
    intro e δ a c d he h
    refine h.imp id fun ⟨halike, hstorage, hbusy⟩ => ⟨halike, ?_, hbusy.imp Unmentioned.of_cons id⟩
    simpa [dropped_cons, he] using hstorage
  undo := by
    intro e δ a c c' d he h hundo
    rcases h with rfl | ⟨halike, hstorage, hbusy⟩
    · exact ⟨c', hundo, .inl rfl⟩
    obtain ⟨hc, hd⟩ := hbusy.resolve_left fun hfree => hfree e List.mem_cons_self he
    obtain ⟨d', hd', halike', hstorage', hbusy'⟩ := halike.undo_same hc hd he hundo
    refine ⟨d', hd', ?_⟩
    rcases hbusy' with heq | ⟨hc', hd', -⟩
    · exact .inl heq
    · refine .inr ⟨halike', ?_, .inr ⟨hc', hd'⟩⟩
      rw [dropped_cons] at hstorage
      rcases hstorage with hdrop | hstorage
      · rcases Bool.or_eq_true_iff.mp hdrop with hthis | hlater
        · exact .inr (hstorage' (.inl (Bool.and_eq_true_iff.mp hthis).2))
        · exact .inl hlater
      · exact .inr (hstorage' (.inr hstorage))

/-- A write leaves no trace on the marks: the account is missing, or marked, or has its callback and
is not empty. -/
def settled (c : Cell) : Bool := c.get.all fun o => if o.onDirty then !o.empty else c.dirty

theorem mark_of_settled {o : StateObject} (hget : c.get = some o) (hc : c.settled = true) : c.mark = some .dirty := by
  rw [settled, hget] at hc
  rw [Cell.mark, hget]
  cases ho : o.onDirty <;> simp_all [markOf]

theorem mark_of_dirty {o : StateObject} (hget : c.get = some o) (hc : c.dirty = true)
    (ho : o.onDirty = true → o.empty = false) : c.mark = some .dirty := by
  rw [Cell.mark, hget]
  cases hd : o.onDirty <;> simp_all [markOf]

/-- What a move needs, in terms of the slot that is written: it stays true while the account is
written. -/
def Ready (σ : Option (Hash × SlotKind)) (δ : List JournalEntry) (a : Address) (c : Cell) : Prop :=
  c.settled = true ∧ (σ.isSome = true → c.get = none ∨ c.hasStorage = true ∨ dropped a δ = true)

theorem Ready.move {e : JournalEntry} {δ : List JournalEntry} {σ : Option (Hash × SlotKind)}
    (hc : c.Ready σ δ a) (h : Move db a c e c') : c'.Ready σ (e :: δ) a := by
  have ha := h.account_eq
  have hdirty : c'.dirty = true := by
    obtain ⟨o, rfl, -, ho | ⟨prev, hprev, heq⟩⟩ := h.put_eq
    · simp [put, ho]
    · have hsettled := hc.1
      rw [settled, hprev] at hsettled
      show (c.dirty || o.onDirty) = true
      rw [← heq]
      cases hp : prev.onDirty <;> simp_all
  refine ⟨?_, fun hσ => .inr ?_⟩
  · obtain ⟨o, rfl, hd, -⟩ := h.put_eq
    rw [settled, get_put hd]
    simpa [StateObject.disarm] using hdirty
  · rw [dropped_cons, ha]
    rcases hc.2 hσ with hnone | hstorage | hdropped
    · cases h with
      | create => exact .inr (by simp [drops])
      | reset h | change h | touch h => cases hnone.symm.trans h
    · cases h with
      | create | reset => exact .inr (by simp [drops])
      | @change o hget ch =>
        have halive : (ch.apply o).deleted = false := by rw [ch.deleted_apply, deleted_of_get hget]
        rw [Cell.hasStorage, hget, Option.any_some] at hstorage
        exact .inl (by rw [hasStorage_put halive, StateObject.hasStorage_apply, hstorage, Bool.or_true])
      | @touch o hget hempty =>
        have halive : (o.setTouched true).deleted = false := deleted_of_get (o := o) hget
        rw [Cell.hasStorage, hget] at hstorage
        exact .inl ((hasStorage_put halive).trans hstorage)
    · exact .inr (by simp [hdropped])

theorem Move.restored {e : JournalEntry} {j δ : List JournalEntry} (h : Move db a c e c')
    (hc : c.WF j a) (hδ : ∀ e ∈ δ, e ∈ j) (hsettled : c.settled = true)
    (hstorage : e.slot.isSome = true → c.hasStorage = true ∨ dropped a δ = true) :
    ∃ u, Cell.undo e c' = some u ∧ Restored db δ a c u := by
  obtain ⟨u, hu, hview⟩ := h.undo hc.swept.account_eq_none
  have hidle : c.Idle → Unmentioned a δ := fun hidle e he => hc.idle hidle e (hδ e he)
  have hnonempty : ∀ {o}, c.get = some o → o.onDirty = true → o.empty = false := by
    intro o hget ho
    rw [settled, hget] at hsettled
    simpa [ho] using hsettled
  have hmarked : ∀ {o}, c.get = some o → (c.dirty || o.onDirty) = true := by
    intro o hget
    rw [settled, hget] at hsettled
    cases ho : o.onDirty <;> simp_all
  -- without its callback the object has older entries, and both cells have it without
  have hflags : ∀ {o u o'}, c.get = some o → u.get = some o' → (o.onDirty = false → o'.onDirty = false) →
      Unmentioned a δ ∨ c.Busy ∧ Busy u := by
    intro o u o' hget hget' ho'
    cases ho : o.onDirty with
    | true => exact .inl (hidle (idle_of_get hget ho))
    | false => exact .inr ⟨⟨o, hget, ho⟩, ⟨o', hget', ho' ho⟩⟩
  refine ⟨u, hu, .inr ?_⟩
  cases h with
  | create hget =>
    cases hu
    have hnone : ({ c.put (newObject Account.zero) with obj := none, dirty := false } : Cell).get =
        none := hview.get_none hget
    refine ⟨⟨hview, ?_⟩, .inr ?_, .inl (hidle (idle_of_get_none hget))⟩
    · rw [Cell.mark, Cell.mark, hget, hnone]
      rfl
    · rw [Cell.hasStorage, Cell.hasStorage, hget, hnone]
  | @reset prev hget balance =>
    cases hu
    have hdirty : (c.put ((newObject Account.zero).setBalance balance)).dirty = true := by
      simp [put, newObject, StateObject.setBalance]
    have hget' : ({ c.put ((newObject Account.zero).setBalance balance) with obj := some prev } :
        Cell).get = some prev := get_of_obj rfl (deleted_of_get hget)
    refine ⟨⟨hview, ?_⟩, .inr ?_, hflags hget hget' id⟩
    · rw [mark_of_settled hget hsettled, mark_of_dirty hget' hdirty]
      exact fun ho => hnonempty hget ho
    · rw [Cell.hasStorage, Cell.hasStorage, hget, hget']
  | @change o hget ch =>
    have halive : (ch.apply o).deleted = false := by rw [ch.deleted_apply, deleted_of_get hget]
    rw [undo_objectChange (get_put halive)] at hu
    cases hu
    set o' := (ch.inverse db o).apply (ch.apply o).disarm with ho'
    have halive' : o'.deleted = false := by rw [ho', ObjectChange.deleted_apply]; exact halive
    have hget' := get_put (c := c.put (ch.apply o)) halive'
    have hdirty : ((c.put (ch.apply o)).put o').dirty = true := by
      have : (c.dirty || o.onDirty) = true := hmarked hget
      simp [put, ch.onDirty_apply, this]
    refine ⟨⟨hview, ?_⟩, ?_, hflags hget hget' fun _ => rfl⟩
    · rw [mark_of_settled hget hsettled, mark_of_dirty hget' hdirty]
      exact fun h => Bool.noConfusion h
    · have hsame : ((c.put (ch.apply o)).put o').hasStorage = (ch.slot.isSome || c.hasStorage) := by
        have hdisarm : (ch.apply o).disarm.hasStorage = (ch.apply o).hasStorage := rfl
        have hc : c.hasStorage = o.hasStorage := by rw [Cell.hasStorage, hget]; rfl
        rw [hasStorage_put halive', ho', StateObject.hasStorage_apply, hdisarm,
          StateObject.hasStorage_apply, ch.slot_inverse, hc]
        cases ch.slot.isSome <;> simp
      rw [hsame]
      cases hslot : ch.slot.isSome with
      | false => exact .inr rfl
      | true =>
        have hentry : (JournalEntry.objectChange a (ch.inverse db o)).slot.isSome = true := by
          show (ch.inverse db o).slot.isSome = true
          rw [ch.slot_inverse, hslot]
        rcases hstorage hentry with h | h
        · exact .inr (by rw [h]; rfl)
        · exact .inl h
  | @touch o hget hempty =>
    have ho : o.onDirty = false := by
      by_contra ho
      exact absurd hempty (by simp [hnonempty hget (by simpa using ho)])
    have halive : (o.setTouched true).deleted = false := deleted_of_get (o := o) hget
    have hdirty : c.dirty = true := by simpa [ho] using hmarked hget
    have hput : (c.put (o.setTouched true)).dirty = true := by simp [put, hdirty]
    have hstored : (c.put (o.setTouched true)).hasStorage = c.hasStorage := by
      rw [hasStorage_put halive, Cell.hasStorage, hget]
      rfl
    -- the mark is kept, for the object had been changed before
    have hafter : u.Busy ∧ u.mark = some .dirty ∧ u.hasStorage = c.hasStorage := by
      obtain ⟨u', hu', hbusy, -, -, hsame, hkept, hmark⟩ :=
        (busy_put (c := c) halive).undo_touch db a o.touched (!o.onDirty)
      cases hu'.symm.trans hu
      exact ⟨hbusy, by rw [hmark, hkept, hput, ho]; rfl, hsame.trans hstored⟩
    exact ⟨⟨hview, by rw [mark_of_settled hget hsettled, hafter.2.1]⟩, .inr hafter.2.2.symm,
      Or.inr ⟨⟨o, hget, ho⟩, hafter.1⟩⟩

end Store.Cell

namespace StateDB

variable [Keccak]

open Store

/-! ### From the snapshot to the revert -/

/-- The entries made since the journal had `base` entries. -/
def madeSince (s : StateDB) (base : ℕ) : List JournalEntry := s.journal.take (s.journal.length - base)

/-- A write to the account `a`, after a snapshot taken in `s₀`, leaves no trace when it is undone. -/
def TracelessAt (κ : Address → Layout) (s₀ s : StateDB) (σ : Option (Hash × SlotKind)) (a : Address) : Prop :=
  (s.state.cell a).settled = true ∧ (κ a).Fits σ ∧
    (σ.isSome = true → (s.state.cell a).get.isNone = true ∨ (s.state.cell a).hasStorage = true ∨
      Cell.dropped a (s.madeSince s₀.journal.length) = true)

instance (κ : Address → Layout) (s₀ s : StateDB) (σ : Option (Hash × SlotKind)) (a : Address) :
    Decidable (TracelessAt κ s₀ s σ a) :=
  inferInstanceAs (Decidable (_ ∧ _ ∧ (_ → _)))

/-- The operation, after a snapshot taken in `s₀`, leaves no trace when it is undone. Of the reverts
only those to a snapshot taken since are meant. -/
def Traceless (κ : Address → Layout) (s₀ s : StateDB) : Op → Prop
  | .write w => w.account.elim True (TracelessAt κ s₀ s w.slot)
  | .snapshot => True
  | .revert back => s.validRevisions[back]?.any (s₀.nextRevisionId < ·.id) = true
  | .prepare _ _ _ | .finalise _ | .commitTo _ | .deleteSuicides => False

instance (κ : Address → Layout) (s₀ s : StateDB) : (op : Op) → Decidable (Traceless κ s₀ s op)
  | .write w =>
    match h : w.account with
    | none => .isTrue (by simp [Traceless, h])
    | some a => decidable_of_iff (TracelessAt κ s₀ s w.slot a) (by simp [Traceless, h])
  | .snapshot => inferInstanceAs (Decidable True)
  | .revert _ => inferInstanceAs (Decidable (_ = true))
  | .prepare _ _ _ | .finalise _ | .commitTo _ | .deleteSuicides => inferInstanceAs (Decidable False)

/-- `Since` for the relation `Restored`. -/
abbrev RestoredSince (s₀ s : StateDB) (δ : List JournalEntry) : Prop :=
  Journaled.Since Store.undo (Store.Lift (Cell.Restored s₀.state.db)) s₀.snapshot s δ

variable {s₀ s : StateDB} {δ : List JournalEntry} {κ : Address → Layout}

theorem RestoredSince.madeSince (h : RestoredSince s₀ s δ) : s.madeSince s₀.journal.length = δ := by
  have hj : s.journal = δ ++ s₀.journal := h.journal
  rw [StateDB.madeSince, hj]
  simp

theorem Move.restoredSince {t : StateDB} {e : JournalEntry}
    {x : Option Address} {σ : Option (Hash × SlotKind)} (h : RestoredSince s₀ s δ)
    (hdb : s.state.db = s₀.state.db) (hs : s.WF) (hmove : Move s e t) (habout : About x σ e)
    (hready : ∀ a, x = some a → (s.state.cell a).Ready σ δ a) : RestoredSince s₀ t (e :: δ) := by
  have hR := Store.respects_lift (Cell.respects_restored s₀.state.db)
  have hδ : ∀ e ∈ δ, e ∈ s.journal := by
    intro e he
    rw [h.journal]
    exact List.mem_append_left _ he
  cases hmove with
  | @cell account _ c hcell =>
    rw [hdb] at hcell
    have ha := hcell.account_eq
    have hready := hready account (habout.1.symm.trans ha)
    have hstorage : e.slot.isSome = true →
        (s.state.cell account).hasStorage = true ∨ Cell.dropped account δ = true := by
      intro hslot
      have hσ : σ.isSome = true := by
        rcases habout.2 with h | h
        · rw [h] at hslot
          cases hslot
        · rwa [← h]
      -- only an object that is there is written
      refine (hready.2 hσ).resolve_left fun hget => ?_
      cases hcell with
      | create | reset | touch => cases hslot
      | change h => rw [hget] at h; cases h
    obtain ⟨u, hu, hrestored⟩ := hcell.restored (hs.cell account) hδ hready.1 hstorage
    refine h.record hR rfl rfl rfl (u := s.state.setCell account u) ?_ ⟨rfl, ?_⟩
    · show Store.undo e (s.state.setCell account c) = _
      rw [Store.undo_setCell ha, hu]
      rfl
    · intro b
      rw [cell_setCell]
      split
      · rename_i hb
        rw [hb]
        exact hrestored
      · exact .inl rfl
  | @substate _ sub he hdb' hundo =>
    exact h.record hR rfl rfl rfl hundo ⟨rfl, fun b => .inl rfl⟩

theorem Moves.restoredSince {t : StateDB} {x : Option Address}
    {σ : Option (Hash × SlotKind)} (hmoves : Moves x σ s t) (h : RestoredSince s₀ s δ)
    (hdb : s.state.db = s₀.state.db) (hs : s.WF)
    (hready : ∀ a, x = some a → (s.state.cell a).Ready σ δ a) : ∃ δ', RestoredSince s₀ t δ' := by
  have : ∃ δ', RestoredSince s₀ t δ' ∧ ∀ a, x = some a → (t.state.cell a).Ready σ δ' a := by
    induction hmoves with
    | refl => exact ⟨δ, h, hready⟩
    | @tail t u hmoves hmove ih =>
      obtain ⟨δ', hsince, hready⟩ := ih
      obtain ⟨e, habout, hmove⟩ := hmove
      have hwf : t.WF := Moves.wf hmoves hs
      have hdb : t.state.db = s₀.state.db := (Moves.db_eq hmoves).trans hdb
      refine ⟨e :: δ', hmove.restoredSince hsince hdb hwf habout hready, ?_⟩
      intro a hx
      obtain ⟨-, ⟨hne, -⟩ | ⟨-, hcell⟩⟩ := hmove.cell_cases a
      · exact absurd (habout.1.trans hx) hne
      · exact (hready a hx).move hcell
  obtain ⟨δ', hsince, -⟩ := this
  exact ⟨δ', hsince⟩

theorem step_restoredSince {op : Op}
    (h : RestoredSince s₀ s δ) (hdb : s.state.db = s₀.state.db) (hs : s.WF) (hs₀ : s₀.WF)
    (hop : Traceless κ s₀ s op) :
    (∃ δ', RestoredSince s₀ (s.step op) δ') ∧ (s.step op).state.db = s₀.state.db ∧ (s.step op).WF := by
  cases op with
  | write w =>
    have hmoves := write_moves s w
    refine ⟨hmoves.restoredSince h hdb hs ?_, (Moves.db_eq hmoves).trans hdb, Moves.wf hmoves hs⟩
    intro a ha
    rw [Traceless, ha, Option.elim_some, TracelessAt, h.madeSince, Option.isNone_iff_eq_none] at hop
    exact ⟨hop.1, hop.2.2⟩
  | snapshot => exact ⟨⟨δ, Journaled.Since.snapshot h⟩, hdb, hs.snapshot⟩
  | revert back =>
    obtain ⟨r, hr, hid⟩ : ∃ r, s.validRevisions[back]? = some r ∧ s₀.nextRevisionId < r.id := by
      simpa [Traceless, Option.any_eq_true] using hop
    rw [step]
    cases hback : s.revertBack back with
    | none => exact ⟨⟨δ, h⟩, hdb, hs⟩
    | some t =>
      have hrevert : s.revertToSnapshot r.id = some t := by
        rw [revertBack, hr] at hback
        exact hback
      rw [Option.getD_some]
      obtain ⟨δ₁, δ₂, -, hsince⟩ := Journaled.Since.revert h hs₀.snapshot.revision_lt hid hrevert
      exact ⟨⟨δ₂, hsince⟩, (revertToSnapshot_db hrevert).trans hdb, hs.revert hrevert⟩
  | prepare | finalise | commitTo | deleteSuicides => cases hop

theorem Traceless.fits {op : Op} (h : Traceless κ s₀ s op) : Fits κ op := by
  cases op with
  | write =>
    intro a ha
    rw [Traceless, ha] at h
    exact h.2.1
  | snapshot | revert => trivial
  | prepare | finalise | commitTo | deleteSuicides => cases h

theorem revert_sim {l : List Op} (hs₀ : s₀.WF) (hκ : s₀.Conforms κ) (hl : Along step (Traceless κ s₀) s₀.snapshot l) :
    ∃ r, (run step s₀.snapshot l).revertToSnapshot s₀.nextRevisionId = some r ∧ Sim s₀ r ∧ r.WF ∧ r.Conforms κ := by
  have hR := Store.respects_lift (Cell.respects_restored s₀.state.db)
  obtain ⟨⟨δ, hsince⟩, -, hwf, hconforms⟩ := hl.invariant
    (I := fun s => (∃ δ, RestoredSince s₀ s δ) ∧ s.state.db = s₀.state.db ∧ s.WF ∧ s.Conforms κ)
    (fun s op ⟨⟨δ, hsince⟩, hdb, hs, hκ⟩ hop => by
      obtain ⟨hsince, hdb, hs'⟩ := step_restoredSince hsince hdb hs hs₀ hop
      exact ⟨hsince, hdb, hs', (step_invariants hs hκ hop.fits).2⟩)
    ⟨⟨[], Journaled.Since.refl hR _⟩, rfl, hs₀.snapshot, hκ⟩
  obtain ⟨u, -, ⟨hsub, hcells⟩, hrevert⟩ := Journaled.Since.revert_snapshot hsince
  refine ⟨_, hrevert, ⟨⟨hsub, ?_⟩, ?_, rfl⟩, hwf.revert hrevert,
    ((coherent_invariant κ).invariant s₀.state.db).revert hrevert hconforms⟩
  · intro a
    rcases hcells a with heq | ⟨halike, hstorage, -⟩
    · rw [← heq]
      exact .refl _
    · -- no entry is left that would take the object away
      exact ⟨halike, hstorage.resolve_left (by simp [Cell.dropped])⟩
  · exact List.forall₂_same.mpr fun e _ => .refl e

/-- In every state that operations lead to, if those between a snapshot and the revert to it leave no
trace, then the reverted database cannot be told from the one at the snapshot: whatever is done to both
afterwards, every getter returns the same (at once, too) and the same root is computed. -/
theorem revert_law (κ : Address → Layout) (db : Hash → Option Bytes) (trie : Address → Option Account)
    (htrie : ∀ a data, trie a = some data → (newObject data).Coherent (κ a)) (prior l : List Op)
    (hprior : ∀ op ∈ prior, Fits κ op)
    (hl : Along step (Traceless κ (run step (new db trie) prior)) (run step (new db trie) prior).snapshot l) :
    let s := run step (new db trie) prior
    ∃ r, (run step s.snapshot l).revertToSnapshot s.nextRevisionId = some r ∧
      ∀ later, (∀ op ∈ later, Fits κ op ∧ op ≠ .commitTo true) → SameReads (run step s later) (run step r later) ∧
          (run step s later).intermediateRoot true = (run step r later).intermediateRoot true := by
  intro s
  obtain ⟨hs, hκ⟩ := run_invariants (WF.new db trie) (Conforms.new db htrie) hprior
  obtain ⟨r, hrevert, hsim, hr, hκ'⟩ := revert_sim hs hκ hl
  exact ⟨r, hrevert, fun later hlater => hsim.run_sameReads hs hr hκ hκ' hlater⟩

/-! ### What every revert restores -/

/-- Any write, any snapshot, and the reverts to snapshots taken since `s₀`. -/
def Inner (s₀ s : StateDB) : Op → Prop
  | .write _ | .snapshot => True
  | .revert back => ∀ r ∈ s.validRevisions[back]?, s₀.nextRevisionId < r.id
  | .prepare _ _ _ | .finalise _ | .commitTo _ | .deleteSuicides => False

theorem Keeps.step {op : Op} (h : Keeps s₀.snapshot s) (hs₀ : s₀.WF) (hs : s.WF) (hop : Inner s₀ s op) :
    (s.step op).WF ∧ Keeps s₀.snapshot (s.step op) := by
  cases op with
  | write w =>
    have hmoves := write_moves s w
    exact ⟨Moves.wf hmoves hs, h.trans (.moves hmoves hs)⟩
  | snapshot => exact ⟨hs.snapshot, h.snapshot⟩
  | revert back =>
    rw [StateDB.step]
    cases hback : s.revertBack back with
    | none => exact ⟨hs, h⟩
    | some t =>
      obtain ⟨r, hr, hrevert⟩ := Option.bind_eq_some_iff.mp hback
      obtain ⟨δ, hδ⟩ := h.since
      obtain ⟨-, δ', -, hsince⟩ := hδ.revert hs₀.snapshot.revision_lt (hop r hr) hrevert
      exact ⟨hs.revert hrevert, (revertToSnapshot_db hrevert).trans h.db, δ', hsince⟩
  | prepare | finalise | commitTo | deleteSuicides => cases hop

/-- **A revert restores what is read.** Whatever was written since the snapshot, the revert does not panic, and every
account, the refund and the logs are read as they were. -/
theorem revert_restores (hs : s.WF) {l : List Op} (hl : Along step (Inner s) s.snapshot l) :
    ∃ r, (run step s.snapshot l).revertToSnapshot s.nextRevisionId = some r ∧ r.view = s.view ∧
      r.state.toSubstate = s.state.toSubstate := by
  obtain ⟨-, hkeeps⟩ := hl.invariant (I := fun t => t.WF ∧ Keeps s.snapshot t)
    (fun t op ht hop => ht.2.step hs ht.1 hop) ⟨hs.snapshot, .refl _⟩
  obtain ⟨r, hr, -, hview, hsub, -⟩ := hkeeps.revert
  exact ⟨r, hr, hview, hsub⟩

end StateDB

namespace StateDB.Sample

attribute [local instance] Sample.keccak

/-- Every slot holds a word. -/
def words : Address → Layout := fun _ _ => .word

/-- An account gets money and storage. -/
def writes : List Op :=
  [.write (.addBalance 0x22 5), .snapshot, .write (.setState 0x22 1 7), .revert 0,
    .write (.setState 0x22 1 9), .write (.setNonce 0x22 1)]

theorem revert_law_writes : ∃ r, (run step (new (fun _ => none) fun _ => none).snapshot writes).revertToSnapshot 0 =
      some r ∧ SameReads (new (fun _ => none) fun _ => none) r := by
  obtain ⟨r, hr, hlater⟩ := revert_law words (fun _ => none) (fun _ => none)
    (fun a data h => (by cases h)) [] writes (fun op h => (by cases h)) (by decide +kernel)
  exact ⟨r, hr, (hlater [] fun op h => (by cases h)).1⟩

theorem revert_restores_created : let s := new (fun _ => none) fun _ => none
    (s.snapshot.step (.write (.addBalance 0x22 5))).getBalance 0x22 = 5 ∧
      ∃ r, (run step s.snapshot [.write (.addBalance 0x22 5)]).revertToSnapshot 0 = some r ∧ r.view = s.view ∧
        r.state.toSubstate = s.state.toSubstate :=
  ⟨by decide +kernel, revert_restores (WF.new _ _) ⟨trivial, trivial⟩⟩

/-- The storage write of an empty account is undone, but the account no longer counts as empty. -/
theorem reverted_storage_write_leaves_trace : let s := (new (fun _ => none) fun _ => none).addBalance 0x11 0
    s.empty 0x11 = true ∧ s.intermediateRoot true 0x11 = none ∧
      ((s.snapshot.setState 0x11 1 7).revertToSnapshot s.nextRevisionId).map
        (fun r => (r.empty 0x11, (r.intermediateRoot true 0x11).isSome)) = some (false, true) := by
  decide +kernel

end StateDB.Sample

end GoWanchain.State
