import GoWanchain.State.Layout

/-!
# States that behave alike

Undoing a change gives back what is read of an account, but not the object as it was: the callback is gone, the
mark is set, the caches are filled and the writes that restored the storage are pending. `Cell.Like` relates
two cells that cannot be told apart by operations, although they may differ in these respects:

* the views are the same, and so is whether the account has storage, pending writes included, since an
  account with storage does not count as empty;
* what the mark and the callback come to is the same (`Cell.mark`). An object that has its callback and is not
  empty counts as marked: it holds what was loaded, so writing it again changes nothing.
-/

namespace GoWanchain.State

variable [Keccak]

namespace StateObject

/-- The account has storage, or storage writes are pending. -/
def hasStorage (o : StateObject) : Bool := !decide (o.data.root = ∅) || !o.clean

theorem empty_congr {db : Hash → Option Bytes} {o o' : StateObject} (hview : o.view db = o'.view db)
    (hstorage : o.hasStorage = o'.hasStorage) : o.empty = o'.empty := by
  obtain ⟨hbalance, hnonce, hcodeHash, -, -, -, -, hroot⟩ := AccountView.mk.injEq .. |>.mp hview
  simp only [hasStorage, hroot] at hstorage
  simp only [empty, hbalance, hnonce, hcodeHash, hroot]
  cases hr : decide (o'.data.root = ∅) <;> simp_all

omit [Keccak] in
theorem hasStorage_apply (o : StateObject) (ch : ObjectChange) :
    (ch.apply o).hasStorage = (ch.slot.isSome || o.hasStorage) := by
  have hpos : ∀ {ν : Type} (m : GoMap Hash ν) (k : Hash) (v : ν), GoMap.size (m.insert k v) ≠ 0 := by
    intro ν m k v
    rw [← GoMap.card_support, GoMap.support_insert]
    simp
  cases ch with
  | storageChange =>
    simp [ObjectChange.apply, setState, hasStorage, clean, ObjectChange.slot, hpos]
  | storageByteArrayChange =>
    simp [ObjectChange.apply, setStateByteArray, hasStorage, clean, ObjectChange.slot, hpos]
  | _ => rfl

omit [Keccak] in
theorem hasStorage_updateRoot (o : StateObject) : o.updateRoot.hasStorage = !decide (o.updateTrie = ∅) := by
  show (!decide (o.updateTrie = ∅) || false) = _
  rw [Bool.or_false]

end StateObject

namespace Store.Cell

inductive Mark where
  | armed (dirty : Bool)
  | dirty
  | forgotten
deriving DecidableEq

/-- What the mark and the callback come to. -/
def markOf (dirty : Bool) (o : StateObject) : Mark :=
  if o.onDirty && o.empty then .armed dirty
  else if dirty || o.onDirty then .dirty
  else .forgotten

def mark (c : Cell) : Option Mark := c.get.map (markOf c.dirty)

def hasStorage (c : Cell) : Bool := c.get.any (·.hasStorage)

/-- The same view, and marks that come to the same. -/
structure Alike (db : Hash → Option Bytes) (c d : Cell) : Prop where
  view : SameView db c d
  mark : c.mark = d.mark

/-- Cells that behave alike. -/
structure Like (db : Hash → Option Bytes) (c d : Cell) : Prop extends Alike db c d where
  storage : c.hasStorage = d.hasStorage

variable {db : Hash → Option Bytes} {c d c' : Cell} {o o' : StateObject}

theorem Like.refl (c : Cell) : Like db c c := ⟨⟨⟨rfl, rfl⟩, rfl⟩, rfl⟩

theorem Alike.get (h : Alike db c d) (hc : c.get = some o) :
    ∃ o', d.get = some o' ∧ o'.view db = o.view db ∧ markOf c.dirty o = markOf d.dirty o' := by
  obtain ⟨o', hd, hview⟩ := h.view.get hc
  have hmark := h.mark
  rw [Cell.mark, Cell.mark, hc, hd] at hmark
  exact ⟨o', hd, hview, Option.some.inj hmark⟩

open Cell (hasStorage)

theorem Like.get (h : Like db c d) (hc : c.get = some o) :
    ∃ o', d.get = some o' ∧ o'.view db = o.view db ∧ markOf c.dirty o = markOf d.dirty o' ∧
      o'.hasStorage = o.hasStorage := by
  obtain ⟨o', hd, hview, hmark⟩ := h.toAlike.get hc
  have hstorage := h.storage
  rw [hasStorage, hasStorage, hc, hd] at hstorage
  exact ⟨o', hd, hview, hmark, hstorage.symm⟩

theorem mark_put (hd : o.deleted = false) :
    (c.put o).mark = some (if c.dirty || o.onDirty then .dirty else .forgotten) := by
  rw [mark, get_put hd]
  simp [markOf, StateObject.disarm, put]

theorem dirty_or_onDirty_congr {b b' : Bool} (h : markOf b o = markOf b' o') :
    (b || o.onDirty) = (b' || o'.onDirty) := by
  unfold markOf at h
  cases b <;> cases b' <;> cases ho : o.onDirty <;> cases ho' : o'.onDirty <;>
    cases he : o.empty <;> cases he' : o'.empty <;> simp_all

theorem like_of_get (hc : c.get = some o) (hd : d.get = some o') (hview : o'.view db = o.view db)
    (haccount : c.account = d.account) (hmark : c.mark = d.mark) (hstorage : o'.hasStorage = o.hasStorage) :
    Like db c d := by
  refine ⟨⟨⟨?_, haccount⟩, hmark⟩, ?_⟩
  · rw [Cell.view, Cell.view, hc, hd, Option.map_some, Option.map_some, hview]
  · rw [hasStorage, hasStorage, hc, hd, Option.any_some, Option.any_some, hstorage]

theorem like_put_same (haccount : c.account = d.account) (hd : o.deleted = false)
    (ho : o.onDirty = true) : Like db (c.put o) (d.put o) := by
  refine like_of_get (get_put hd) (get_put hd) rfl haccount ?_ rfl
  rw [mark_put hd, mark_put hd, ho, Bool.or_true, Bool.or_true]

theorem Alike.put_apply (h : Alike db c d) (hc : c.get = some o) (hd : d.get = some o')
    (hview : o'.view db = o.view db) (hmark : markOf c.dirty o = markOf d.dirty o')
    (ch : ObjectChange) : Alike db (c.put (ch.apply o)) (d.put (ch.apply o')) := by
  have halive : (ch.apply o).deleted = false := by rw [ch.deleted_apply, deleted_of_get hc]
  have halive' : (ch.apply o').deleted = false := by rw [ch.deleted_apply, deleted_of_get hd]
  refine ⟨⟨?_, h.view.2⟩, ?_⟩
  · rw [view_put db halive, view_put db halive', ch.view_apply, ch.view_apply, hview]
  · rw [mark_put halive, mark_put halive', ch.onDirty_apply, ch.onDirty_apply, dirty_or_onDirty_congr hmark]

omit [Keccak] in
theorem hasStorage_put (hd : o.deleted = false) : (c.put o).hasStorage = o.hasStorage := by
  rw [hasStorage, get_put hd]
  rfl

/-! ### Undoing related entries -/

/-- The entry puts back an object as a whole, or removes it. -/
def drops : JournalEntry → Bool
  | .createObjectChange _ => true
  | .resetObjectChange _ _ => true
  | _ => false

/-- Entries that have the same effect on cells that are alike; `account` is what the trie holds. -/
inductive EntryLike (db : Hash → Option Bytes) (account : Option Account) : JournalEntry → JournalEntry → Prop
  | refl (e : JournalEntry) : EntryLike db account e e
  | reset (a : Address) {prev prev' : StateObject}
    (h : Like db ⟨some prev, true, account⟩ ⟨some prev', true, account⟩) :
    EntryLike db account (.resetObjectChange a prev) (.resetObjectChange a prev')
  | touch (a : Address) (prev prev' : Bool) :
    EntryLike db account (.touchChange a prev true) (.touchChange a prev' true)

/-- A setter has been called on the object. -/
def Busy (c : Cell) : Prop := ∃ o, c.get = some o ∧ o.onDirty = false

theorem Alike.dirty_eq (h : Alike db c d) (hc : c.Busy) (hd : d.Busy) : c.dirty = d.dirty := by
  obtain ⟨o, hget, ho⟩ := hc
  obtain ⟨o', hget', ho'⟩ := hd
  have hmark := h.mark
  rw [Cell.mark, Cell.mark, hget, hget'] at hmark
  have := dirty_or_onDirty_congr (Option.some.inj hmark)
  simpa [ho, ho'] using this

omit [Keccak] in
theorem busy_put (hd : o.deleted = false) : (c.put o).Busy := ⟨o.disarm, get_put hd, rfl⟩

theorem mark_of_busy (hc : c.get = some o) (ho : o.onDirty = false) :
    c.mark = some (if c.dirty then .dirty else .forgotten) := by
  rw [Cell.mark, hc]
  simp [markOf, ho]

/-- Undoing a touch keeps the mark, or drops it with the first touch. -/
theorem Busy.undo_touch (db : Hash → Option Bytes) (hc : c.Busy) (a : Address) (prev prevDirty : Bool) :
    ∃ c', Cell.undo (.touchChange a prev prevDirty) c = some c' ∧ c'.Busy ∧ c'.view db = c.view db ∧
      c'.account = c.account ∧ c'.hasStorage = c.hasStorage ∧
      c'.dirty = (c.dirty && (prevDirty || prev || a == ripemd)) ∧
      c'.mark = some (if c'.dirty then .dirty else .forgotten) := by
  obtain ⟨o, hget, ho⟩ := hc
  refine ⟨_, undo_touchChange hget a prev prevDirty, ?_⟩
  split
  · rename_i hcond
    have hget' : ({ c with obj := some (o.setTouched prev), dirty := c.dirty && prevDirty } : Cell).get =
        some (o.setTouched prev) := get_of_obj rfl (deleted_of_get (o := o) hget)
    refine ⟨⟨_, hget', ho⟩, ?_, rfl, ?_, ?_, mark_of_busy hget' ho⟩
    · rw [Cell.view, Cell.view, hget, hget']
      rfl
    · rw [hasStorage, hasStorage, hget, hget']
      rfl
    · have : prev = false ∧ (a == ripemd) = false := by simpa [bne] using hcond
      simp [this.1, this.2]
  · rename_i hcond
    refine ⟨⟨o, hget, ho⟩, rfl, rfl, rfl, ?_, mark_of_busy hget ho⟩
    cases prev <;> cases hr : (a == ripemd) <;> simp_all [bne]

theorem Alike.undo_touch (h : Alike db c d) (hc : c.Busy) (hd : d.Busy) (a : Address)
    {prev : Bool} (prev' : Bool) {prevDirty : Bool} (hprev : prevDirty = false → prev = prev')
    (hundo : Cell.undo (.touchChange a prev prevDirty) c = some c') :
    ∃ d', Cell.undo (.touchChange a prev' prevDirty) d = some d' ∧ Alike db c' d' ∧
      (c.hasStorage = d.hasStorage → c'.hasStorage = d'.hasStorage) ∧
      c'.Busy ∧ d'.Busy ∧ c'.dirty = d'.dirty := by
  have hflag := h.dirty_eq hc hd
  obtain ⟨c₁, hc₁, hbusy, hview, haccount, hstorage, hdirty, hmark⟩ := hc.undo_touch db a prev prevDirty
  obtain ⟨d₁, hd₁, hbusy', hview', haccount', hstorage', hdirty', hmark'⟩ := hd.undo_touch db a prev' prevDirty
  rw [hundo] at hc₁
  cases hc₁
  have hsame : c'.dirty = d₁.dirty := by
    rw [hdirty, hdirty', hflag]
    cases prevDirty with
    | true => simp
    | false => rw [hprev rfl]
  refine ⟨d₁, hd₁, ⟨⟨?_, ?_⟩, ?_⟩, ?_, hbusy, hbusy', hsame⟩
  · rw [hview, hview', h.view.1]
  · rw [haccount, haccount', h.view.2]
  · rw [hmark, hmark', hsame]
  · intro hst
    rw [hstorage, hstorage', hst]

variable {a : Address} {j : List JournalEntry}

theorem Alike.undo_same {e : JournalEntry} (h : Alike db c d) (hc : c.Busy) (hd : d.Busy)
    (ha : e.account = some a) (hundo : Cell.undo e c = some c') : ∃ d', Cell.undo e d = some d' ∧ Alike db c' d' ∧
      (drops e = true ∨ c.hasStorage = d.hasStorage → c'.hasStorage = d'.hasStorage) ∧
      (c' = d' ∨ c'.Busy ∧ d'.Busy ∧ c'.dirty = d'.dirty) := by
  have hflag := h.dirty_eq hc hd
  obtain ⟨o, hget, ho⟩ := id hc
  obtain ⟨o', hget', hview, hmark⟩ := h.get hget
  cases e with
  | createObjectChange =>
    cases hundo
    have heq : ({ d with obj := none, dirty := false } : Cell) =
        { c with obj := none, dirty := false } := by rw [h.view.2]
    refine ⟨_, rfl, ?_⟩
    rw [heq]
    exact ⟨(Like.refl _).toAlike, fun _ => rfl, .inl rfl⟩
  | resetObjectChange _ prev =>
    cases hundo
    have heq : ({ d with obj := some prev } : Cell) = { c with obj := some prev } := by
      rw [h.view.2, hflag]
    refine ⟨_, rfl, ?_⟩
    rw [heq]
    exact ⟨(Like.refl _).toAlike, fun _ => rfl, .inl rfl⟩
  | objectChange _ ch =>
    rw [undo_objectChange hget] at hundo
    cases hundo
    have halive : (ch.apply o).deleted = false := by rw [ch.deleted_apply, deleted_of_get hget]
    have halive' : (ch.apply o').deleted = false := by rw [ch.deleted_apply, deleted_of_get hget']
    refine ⟨_, undo_objectChange hget' _ ch, h.put_apply hget hget' hview hmark ch, ?_,
      Or.inr ⟨busy_put halive, busy_put halive', ?_⟩⟩
    · rintro (hdrop | hstorage)
      · cases hdrop
      · rw [hasStorage, hasStorage, hget, hget'] at hstorage
        have hstorage : o.hasStorage = o'.hasStorage := hstorage
        rw [hasStorage_put halive, hasStorage_put halive', StateObject.hasStorage_apply,
          StateObject.hasStorage_apply, hstorage]
    · show (c.dirty || (ch.apply o).onDirty) = (d.dirty || (ch.apply o').onDirty)
      rw [ch.onDirty_apply, ch.onDirty_apply, dirty_or_onDirty_congr hmark]
  | touchChange _ prev =>
    obtain ⟨d', hd', halike, hstorage, hbusy⟩ := h.undo_touch hc hd _ prev (fun _ => rfl) hundo
    exact ⟨d', hd', halike, fun h => hstorage (h.resolve_left (by simp [drops])), .inr hbusy⟩
  | refundChange | addLogChange | addPreimageChange => cases ha

theorem Like.undo {e e' : JournalEntry} (h : Like db c d) (hc : c.Busy) (hd : d.Busy)
    (he : EntryLike db c.account e e') (ha : e.account = some a)
    (hreset : ∀ prev, e = .resetObjectChange a prev → c.dirty = true)
    (hundo : Cell.undo e c = some c') : ∃ d', Cell.undo e' d = some d' ∧ Like db c' d' := by
  cases he with
  | refl =>
    obtain ⟨d', hd', halike, hstorage, -⟩ := h.toAlike.undo_same hc hd ha hundo
    exact ⟨d', hd', halike, hstorage (.inr h.storage)⟩
  | @reset b prev prev' hlike =>
    cases ha
    cases hundo
    have hdirty := hreset prev rfl
    have hcell : ({ c with obj := some prev } : Cell) = ⟨some prev, true, c.account⟩ := by
      rw [hdirty]
    have hcell' : ({ d with obj := some prev' } : Cell) = ⟨some prev', true, c.account⟩ := by
      rw [← h.toAlike.dirty_eq hc hd, hdirty, h.view.2]
    refine ⟨_, rfl, ?_⟩
    rw [hcell, hcell']
    exact hlike
  | touch _ _ prev' =>
    cases ha
    obtain ⟨d', hd', halike, hstorage, -⟩ :=
      h.toAlike.undo_touch hc hd a prev' (fun h => (by cases h)) hundo
    exact ⟨d', hd', halike, hstorage h.storage⟩

/-! ### The end of a transaction -/

/-- No account is left. -/
def Gone (c : Cell) : Prop := c.get = none ∧ c.account = none

theorem Gone.like (hc : c.Gone) (hd : d.Gone) : Like db c d := by
  refine ⟨⟨⟨?_, hc.2.trans hd.2.symm⟩, ?_⟩, ?_⟩
  · rw [Cell.view, Cell.view, hc.1, hd.1]
  · rw [Cell.mark, Cell.mark, hc.1, hd.1]
    rfl
  · rw [hasStorage, hasStorage, hc.1, hd.1]

omit [Keccak] in
theorem gone_deleteStateObject (obj : StateObject) : (c.deleteStateObject obj).Gone := by
  refine ⟨?_, rfl⟩
  simp [Cell.get, deleteStateObject]

theorem gone_finalise (hc : c.Swept) (hget : c.get = none) : (c.finalise true).Gone := by
  have hgone : c.Gone := ⟨hget, hc.account_eq_none hget⟩
  unfold Cell.finalise
  split
  · rename_i obj hobj hdirty
    -- the object was deleted before, and is deleted again
    have hdel : obj.deleted = true := by
      by_contra hdel
      rw [get_of_obj hobj (by simpa using hdel)] at hget
      cases hget
    rw [if_pos (by simpa using (hc obj hobj hdel).2)]
    exact gone_deleteStateObject obj
  · exact hgone

omit [Keccak] in
theorem obj_of_get (hc : c.Traced j a) (hget : c.get = some o) (hdirty : c.dirty = true) : c.obj = some o := by
  obtain ⟨obj, hobj⟩ := Option.isSome_iff_exists.mp (hc.stored hdirty)
  rw [Cell.get, hobj] at hget
  split at hget
  · rename_i heq
    cases heq
    split at hget
    · cases hget
    · rwa [hget] at hobj
  · rename_i heq
    cases heq

theorem finalise_cases (hc : c.Traced j a) (hget : c.get = some o) :
    (∃ b, markOf c.dirty o = .armed b ∧ o.empty = true ∧ if b then (c.finalise true).Gone else c.finalise true = c) ∨
    (markOf c.dirty o = .dirty ∧ if o.suicided || o.empty then (c.finalise true).Gone
      else (c.finalise true).get = some o.updateRoot ∧ (c.finalise true).account = some o.updateRoot.data ∧
        (c.finalise true).mark = some .dirty) ∨
    (markOf c.dirty o = .forgotten ∧ c.finalise true = c) := by
  cases hdirty : c.dirty with
  | false =>
    have hsame : c.finalise true = c := by
      unfold Cell.finalise
      rw [hdirty]
      split
      · rename_i h
        cases h
      · rfl
    cases ho : o.onDirty with
    | false => exact .inr (.inr ⟨by simp [markOf, ho], hsame⟩)
    | true =>
      cases he : o.empty with
      | true => exact .inl ⟨false, by simp [markOf, ho, he], rfl, hsame⟩
      | false =>
        -- a loaded object holds what the trie holds
        obtain ⟨data, hdata, rfl⟩ := hc.loaded o hget ho
        refine .inr (.inl ⟨by simp [markOf, he, ho], ?_⟩)
        rw [if_neg (by simp [newObject]), hsame]
        exact ⟨hget, hdata, by rw [Cell.mark, hget]; simp [markOf, he, ho]⟩
  | true =>
    have hobj := obj_of_get hc hget hdirty
    have halive : o.deleted = false := deleted_of_get hget
    have hfin : c.finalise true = if o.suicided || o.empty then c.deleteStateObject o else c.updateStateObject o := by
      unfold Cell.finalise
      rw [hobj, hdirty]
      simp
    by_cases harmed : (o.onDirty && o.empty) = true
    · refine .inl ⟨true, by simp [markOf, harmed], (Bool.and_eq_true_iff.mp harmed).2, ?_⟩
      rw [if_pos rfl, hfin, if_pos (by simp [(Bool.and_eq_true_iff.mp harmed).2])]
      exact gone_deleteStateObject o
    · refine .inr (.inl ⟨by simp [markOf, harmed], ?_⟩)
      rw [hfin]
      by_cases hswept : (o.suicided || o.empty) = true
      · rw [if_pos hswept, if_pos hswept]
        exact gone_deleteStateObject o
      · rw [if_neg hswept, if_neg hswept]
        have hget' : (c.updateStateObject o).get = some o.updateRoot := get_of_obj rfl halive
        refine ⟨hget', rfl, ?_⟩
        -- an object with its callback is not empty, and writing it changes nothing
        have hnot : (o.updateRoot.onDirty && o.updateRoot.empty) = false := by
          cases ho : o.onDirty with
          | false => simp [StateObject.updateRoot, ho]
          | true =>
            obtain ⟨data, -, rfl⟩ := hc.loaded o hget ho
            have : (newObject data).updateRoot = newObject data := rfl
            rw [this]
            simpa using harmed
        rw [Cell.mark, hget', Option.map_some]
        simp [markOf, hnot, updateStateObject, hdirty]

theorem Like.finalise {κ : Address → Layout} {j' : List JournalEntry}
    (h : Like db c d) (hc : c.WF j a) (hd : d.WF j' a) (hκ : c.Conforms κ j a)
    (hκ' : d.Conforms κ j' a) : Like db (c.finalise true) (d.finalise true) := by
  cases hget : c.get with
  | none =>
    exact (gone_finalise hc.swept hget).like (gone_finalise hd.swept (h.view.get_none hget))
  | some o =>
    obtain ⟨o', hget', hview, hmark, hstorage⟩ := h.get hget
    have hempty : o.empty = o'.empty := StateObject.empty_congr hview.symm hstorage.symm
    have hsuicided : o.suicided = o'.suicided := congrArg AccountView.suicided hview.symm
    have ho := hκ.get hget
    have ho' := hκ'.get hget'
    rcases finalise_cases hc.toTraced hget with ⟨b, hb, he, hfin⟩ | ⟨hb, hfin⟩ | ⟨hb, hfin⟩ <;>
      rcases finalise_cases hd.toTraced hget' with ⟨b', hb', he', hfin'⟩ | ⟨hb', hfin'⟩ | ⟨hb', hfin'⟩ <;>
      rw [hb, hb'] at hmark <;> cases hmark
    · cases b with
      | true => exact hfin.like hfin'
      | false =>
        rw [if_neg (by simp)] at hfin hfin'
        rwa [hfin, hfin']
    · rw [← hsuicided, ← hempty] at hfin'
      split_ifs at hfin hfin'
      · exact hfin.like hfin'
      · obtain ⟨hg, hacc, hm⟩ := hfin
        obtain ⟨hg', hacc', hm'⟩ := hfin'
        refine like_of_get hg hg' (ho'.view_updateRoot_congr ho hview) ?_ (hm.trans hm'.symm) ?_
        · rw [hacc, hacc', ho.updateRoot_data_congr ho' hview.symm]
        · rw [StateObject.hasStorage_updateRoot, StateObject.hasStorage_updateRoot, ho'.updateTrie_congr ho hview]
    · rwa [hfin, hfin']

end Store.Cell

end GoWanchain.State
