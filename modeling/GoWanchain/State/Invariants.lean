import GoWanchain.State.Moves

/-!
# Invariants of the objects

What holds of an object and is kept by its setters holds of all objects of a run, those that the journal
would put back included, for the journal has only changes of the same kind. `ObjectInvariant` asks for what
has to be shown of single objects; `Upholds` is what follows for a cell, along moves, reverts and the end of
a transaction or a block.
-/

namespace GoWanchain.State

variable [Keccak]

/-- A property of the objects of an account that the changes in `G` keep. -/
structure ObjectInvariant (O : Address → StateObject → Prop) (G : Address → ObjectChange → Prop) : Prop where
  zero : ∀ a, O a (newObject Account.zero)
  apply : ∀ {a o ch}, O a o → G a ch → O a (ch.apply o)
  balance : ∀ a amount, G a (.balanceChange amount)
  inverse : ∀ {a o ch db}, G a (ch.inverse db o) → G a ch
  /-- It is not about the flags. -/
  flags : ∀ {a o}, O a o → ∀ deleted touched onDirty dirtyCode, O a { o with deleted, touched, onDirty, dirtyCode }
  updateRoot : ∀ {a o}, O a o → O a o.updateRoot
  reload : ∀ {a o}, O a o → O a (newObject o.updateRoot.data)

namespace Store.Cell

/-- All objects that the cell and the journal know of meet `O`, and the journal has changes in `G` only. -/
structure Upholds (O : Address → StateObject → Prop) (G : Address → ObjectChange → Prop) (j : List JournalEntry)
    (a : Address) (c : Cell) : Prop where
  obj : ∀ o, c.obj = some o → O a o
  account : ∀ data, c.account = some data → O a (newObject data)
  entry : ∀ ch, .objectChange a ch ∈ j → G a ch
  reset : ∀ prev, .resetObjectChange a prev ∈ j → O a prev

namespace Upholds

variable {O : Address → StateObject → Prop} {G : Address → ObjectChange → Prop} {j : List JournalEntry} {a : Address}
  {c c' : Cell} {e : JournalEntry}

section

omit [Keccak]

theorem get (h : c.Upholds O G j a) {o : StateObject} (ho : c.get = some o) : O a o := by
  unfold Cell.get at ho
  split at ho
  · rename_i obj hobj
    split at ho
    · cases ho
    · cases ho
      exact h.obj _ hobj
  · obtain ⟨data, hdata, rfl⟩ := Option.map_eq_some_iff.mp ho
    exact h.account data hdata

theorem pop (h : c.Upholds O G (e :: j) a) : c.Upholds O G j a :=
  ⟨h.obj, h.account, fun ch hmem => h.entry ch (List.mem_cons_of_mem _ hmem),
    fun prev hmem => h.reset prev (List.mem_cons_of_mem _ hmem)⟩

theorem push (h : c.Upholds O G j a) (hentry : ∀ ch, e = .objectChange a ch → G a ch)
    (hreset : ∀ prev, e = .resetObjectChange a prev → O a prev) : c.Upholds O G (e :: j) a := by
  refine ⟨h.obj, h.account, fun ch hmem => ?_, fun prev hmem => ?_⟩
  · rcases List.mem_cons.mp hmem with heq | hmem
    · exact hentry ch heq.symm
    · exact h.entry ch hmem
  · rcases List.mem_cons.mp hmem with heq | hmem
    · exact hreset prev heq.symm
    · exact h.reset prev hmem

theorem nil (hobj : ∀ o, c.obj = some o → O a o) (haccount : ∀ data, c.account = some data → O a (newObject data)) :
    c.Upholds O G [] a :=
  ⟨hobj, haccount, fun _ hmem => (by cases hmem), fun _ hmem => (by cases hmem)⟩

end

variable (hO : ObjectInvariant O G)

include hO

theorem put (h : c.Upholds O G j a) {o : StateObject} (ho : O a o) : (c.put o).Upholds O G j a := by
  refine ⟨fun o' ho' => ?_, h.account, h.entry, h.reset⟩
  cases ho'
  exact hO.flags ho _ _ _ _

theorem undo (h : c.Upholds O G (e :: j) a) (he : e.account = some a)
    (hundo : Cell.undo e c = some c') : c'.Upholds O G j a := by
  refine ⟨?_, undo_account hundo ▸ h.account, h.pop.entry, h.pop.reset⟩
  cases undo_inv hundo with
  | create => rintro _ ⟨⟩
  | reset =>
    cases he
    rintro _ ⟨⟩
    exact h.reset _ List.mem_cons_self
  | change hget _ ch =>
    cases he
    rintro _ ⟨⟩
    exact hO.flags (hO.apply (h.get hget) (h.entry ch List.mem_cons_self)) _ _ _ _
  | touch hget =>
    rintro _ ⟨⟩
    exact hO.flags (h.get hget) _ _ _ _
  | nothing => exact h.obj

theorem move {db : Hash → Option Bytes} (h : c.Upholds O G j a)
    (hentry : ∀ ch, e = .objectChange a ch → G a ch) (hmove : Cell.Move db a c e c') : c'.Upholds O G (e :: j) a := by
  cases hmove with
  | create => exact (h.put hO (hO.zero a)).push hentry fun prev he => (by cases he)
  | reset hget balance =>
    have hnew : O a ((newObject Account.zero).setBalance balance) := hO.apply (hO.zero a) (hO.balance a balance)
    exact (h.put hO hnew).push hentry fun prev he => (by cases he; exact h.get hget)
  | @change o hget ch =>
    have hch : G a ch := hO.inverse (hentry _ rfl)
    exact (h.put hO (hO.apply (h.get hget) hch)).push hentry fun prev he => (by cases he)
  | @touch o hget hempty =>
    have htouched : O a (o.setTouched true) := hO.flags (h.get hget) _ _ _ _
    exact (h.put hO htouched).push hentry fun prev he => (by cases he)

theorem ended {b : Bool} (h : c.Upholds O G j a) (hend : Ended b c c') : c'.Upholds O G [] a := by
  cases hend with
  | keep => exact .nil h.obj h.account
  | delete ho =>
    refine .nil ?_ fun data hdata => (by cases hdata)
    rintro _ ⟨⟩
    exact hO.flags (h.obj _ ho) _ _ _ _
  | @update o ho _ uncoded =>
    have hnew : O a { o with dirtyCode := uncoded && o.dirtyCode } := hO.flags (h.obj o ho) _ _ _ _
    refine .nil ?_ ?_
    · rintro _ ⟨⟩
      exact hO.updateRoot hnew
    · rintro _ ⟨⟩
      exact hO.reload hnew

end Upholds

end Store.Cell

theorem ObjectInvariant.invariant {O : Address → StateObject → Prop} {G : Address → ObjectChange → Prop}
    (hO : ObjectInvariant O G) (db : Hash → Option Bytes) :
    StateDB.Invariant db (fun e => ∀ a ch, e = .objectChange a ch → G a ch) (fun _ => True)
      (Store.Cell.Upholds O G) where
  push he h := h.push (fun _ heq => absurd (heq ▸ rfl) he) fun _ heq => absurd (heq ▸ rfl) he
  pop _ h := h.pop
  keeps _ _ := trivial
  move h hF _ hmove := h.move hO (fun ch heq => hF _ ch heq) hmove
  undo h he hundo := h.undo hO he hundo

/-! ### Work on a state -/

namespace StateDB

variable {F : JournalEntry → Prop} {s t u : StateDB}

inductive Works (F : JournalEntry → Prop) (s : StateDB) : StateDB → Prop
  | refl : Works F s s
  | move {t u : StateDB} {e : JournalEntry} (h : Works F s t) (he : F e) (hmove : Move t e u) : Works F s u
  | snapshot {t : StateDB} (h : Works F s t) : Works F s t.snapshot
  | revert {t u : StateDB} {revid : ℕ} (h : Works F s t) (hrevert : t.revertToSnapshot revid = some u) : Works F s u

namespace Works

theorem trans (h : Works F s t) (h' : Works F t u) : Works F s u := by
  induction h' with
  | refl => exact h
  | move _ he hmove ih => exact ih.move he hmove
  | snapshot _ ih => exact ih.snapshot
  | revert _ hrevert ih => exact ih.revert hrevert

theorem mono {F' : JournalEntry → Prop} (h : Works F s t) (hF : ∀ e, F e → F' e) : Works F' s t := by
  induction h with
  | refl => exact .refl
  | move _ he hmove ih => exact ih.move (hF _ he) hmove
  | snapshot _ ih => exact ih.snapshot
  | revert _ hrevert ih => exact ih.revert hrevert

theorem moves {x : Option Address} {σ : Option (Hash × SlotKind)} (h : Moves x σ s t) (hF : ∀ e, About x σ e → F e) :
    Works F s t := by
  induction h with
  | refl => exact .refl
  | tail _ hmove ih =>
    obtain ⟨e, habout, hmove⟩ := hmove
    exact ih.move (hF e habout) hmove

theorem db_eq (h : Works F s t) : t.state.db = s.state.db := by
  induction h with
  | refl => rfl
  | move _ _ hmove ih => exact hmove.db_eq.trans ih
  | snapshot _ ih => exact ih
  | revert _ hrevert ih => exact (revertToSnapshot_db hrevert).trans ih

theorem invariant {db : Hash → Option Bytes} {P : List JournalEntry → Address → Store.Cell → Prop}
    (hP : Invariant db F (fun _ => True) P) (h : Works F s t) (hdb : s.state.db = db)
    (hs : ∀ a, P s.journal a (s.state.cell a)) : ∀ a, P t.journal a (t.state.cell a) := by
  induction h with
  | refl => exact hs
  | @move t u e h he hmove ih =>
    intro a
    obtain ⟨hj, ⟨hother, hcell⟩ | ⟨-, hcell⟩⟩ := hmove.cell_cases a
    · rw [hj, hcell]
      exact hP.push hother (ih a)
    · rw [h.db_eq.trans hdb] at hcell
      rw [hj]
      exact hP.move (ih a) he trivial hcell
  | snapshot _ ih => exact ih
  | revert _ hrevert ih => exact hP.revert hrevert ih

end Works

end StateDB

end GoWanchain.State
