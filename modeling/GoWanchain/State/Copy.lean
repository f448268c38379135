import GoWanchain.State.Dirty
import GoWanchain.State.Simulation

/-!
# Copies of a state database

`Copy` takes over the dirty objects and shares the account trie: `trie: self.trie` is the same trie, which
`Finalise` and `CommitTo` of either database write. So a copy and its original are a pair of databases over
one trie (`Twins`).
-/

namespace GoWanchain.State

open Run

namespace StateObject

variable [Keccak] {κ : Layout} {o : StateObject}

theorem Coherent.view_deepCopy (h : o.Coherent κ) (db : Hash → Option Bytes) : o.deepCopy.view db = o.view db := by
  have hword : o.deepCopy.getState = o.getState := by
    funext k
    show (o.dirtyStorage.lookup k).getD ((o.data.root.lookup k |>.map decodeWord).getD 0) = _
    cases hd : o.dirtyStorage.lookup k with
    | some v =>
      rw [getState, o.word_cached k v hd, Option.getD_some]
    | none =>
      cases hk : κ k with
      | word =>
        rw [h.word k hk hd, slotOfWord, Option.getD_none]
        split
        · rename_i hzero
          rw [hzero]
          rfl
        · rw [Option.map_some, decodeWord_encodeWord]
          rfl
      | bytes =>
        rw [getState, h.word_of_bytes k hk]
  have hcode : o.deepCopy.getCode db = o.getCode db := rfl
  have hbytes : o.deepCopy.getStateByteArray = o.getStateByteArray := rfl
  simp only [view, hword, hbytes, hcode]
  rfl

end StateObject

namespace Store

def load (addr : Address) (s : Store) : Store :=
  match s.stateObjects addr, s.trie addr with
  | none, some data => s.setStateObject addr (newObject data)
  | _, _ => s

variable [Keccak] {κ : Address → Layout} {j : List JournalEntry} {a : Address} {c : Cell}

omit [Keccak] in
theorem load_get (s : Store) (a b : Address) : ((s.load a).cell b).get = (s.cell b).get ∧
    ((s.load a).cell b).dirty = (s.cell b).dirty ∧ ((s.load a).cell b).account = (s.cell b).account := by
  unfold load
  split
  · rename_i data hobj haccount
    rw [setStateObject_eq, cell_setCell]
    split
    · rename_i hb
      subst hb
      refine ⟨?_, rfl, rfl⟩
      have hget : (s.cell b).get = some (newObject data) := by simp [cell, Cell.get, hobj, haccount]
      rw [hget]
      rfl
    · exact ⟨rfl, rfl, rfl⟩
  · exact ⟨rfl, rfl, rfl⟩

/-- A copy reads like the original, unless the object was forgotten. -/
theorem Cell.copy_reads (db : Hash → Option Bytes) (hc : c.WF j a) (hκ : c.Conforms κ j a)
    (hmarked : c.forgotten = false) : c.view db = c.copy.view db ∧ c.hasStorage = c.copy.hasStorage := by
  cases hobj : c.obj with
  | none =>
    have hget : c.copy.get = c.get := by simp [Cell.copy, Cell.get, hobj]
    rw [Cell.view, Cell.view, Cell.hasStorage, Cell.hasStorage, hget]
    exact ⟨rfl, rfl⟩
  | some o =>
    cases hdirty : c.dirty with
    | true =>
      have hcopy : c.copy = ⟨some o.deepCopy, true, c.account⟩ := by
        rw [Cell.copy, hobj, hdirty]
      cases hd : o.deleted with
      | true =>
        have hget : c.get = none := by simp [Cell.get, hobj, hd]
        have hget' : c.copy.get = none := by simp [hcopy, Cell.get, StateObject.deepCopy, hd]
        rw [Cell.view, Cell.view, Cell.hasStorage, Cell.hasStorage, hget, hget']
        exact ⟨rfl, rfl⟩
      | false =>
        have hget : c.get = some o := get_of_obj hobj hd
        have hget' : c.copy.get = some o.deepCopy := get_of_obj (by rw [hcopy]) hd
        rw [Cell.view, Cell.view, Cell.hasStorage, Cell.hasStorage, hget, hget', Option.map_some,
          Option.map_some, (hκ.obj o hobj).view_deepCopy db]
        exact ⟨rfl, rfl⟩
    | false =>
      have hcopy : c.copy = ⟨none, false, c.account⟩ := by rw [Cell.copy, hobj, hdirty]
      have hget : c.copy.get = c.get := by
        cases hget : c.get with
        | none => simp [hcopy, Cell.get, hc.swept.account_eq_none hget]
        | some o' =>
          -- the object was loaded and never changed
          rw [forgotten, hget, hdirty] at hmarked
          obtain ⟨data, hdata, rfl⟩ := hc.loaded o' hget (by simpa using hmarked)
          simp [hcopy, Cell.get, hdata]
      rw [Cell.view, Cell.view, Cell.hasStorage, Cell.hasStorage, hget]
      exact ⟨rfl, rfl⟩

omit [Keccak] in
theorem Cell.copy_account (c : Cell) : c.copy.account = c.account := by
  unfold Cell.copy
  split <;> rfl

theorem Cell.finalise_copy (c : Cell) (b : Bool) : (c.copy.finalise b).account = (c.finalise b).account := by
  unfold Cell.copy
  split
  · rename_i obj hobj hdirty
    have hempty : obj.deepCopy.empty = obj.empty := rfl
    have hsuicided : obj.deepCopy.suicided = obj.suicided := rfl
    have hdata : obj.deepCopy.updateRoot.data = obj.updateRoot.data := rfl
    rw [Cell.finalise, Cell.finalise, hobj, hdirty]
    simp only [hempty, hsuicided]
    split
    · rfl
    · exact congrArg some hdata
  · rename_i hcase
    have hkept : c.finalise b = c := by
      unfold Cell.finalise
      split
      · rename_i obj hobj hdirty
        exact absurd hdirty (hcase obj hobj)
      · rfl
    rw [hkept]
    rfl

end Store

namespace StateDB

open Store

/-- What is done to one of two databases: an operation, or a read. -/
inductive Act where
  | op (op : Op)
  | read (addr : Address)
deriving DecidableEq

/-- The account trie is not written: no `Finalise`, hence no `IntermediateRoot`, and no `CommitTo`. -/
def Act.keepsTrie : Act → Bool
  | .op (.finalise _) | .op (.commitTo _) => false
  | _ => true

variable [Keccak]

def act (s : StateDB) : Act → StateDB
  | .op op => s.step op
  | .read addr => { s with state := s.state.load addr }

theorem Moves.trie_eq {x : Option Address} {σ : Option (Hash × SlotKind)} {s t : StateDB}
    (h : Moves x σ s t) : t.state.trie = s.state.trie := by
  induction h with
  | refl => rfl
  | @tail t u _ hmove ih =>
    obtain ⟨e, -, hmove⟩ := hmove
    refine Eq.trans ?_ ih
    cases hmove with
    | @cell account _ c hcell =>
      obtain ⟨o, rfl, -⟩ := hcell.put_eq
      exact Function.update_eq_self account t.state.trie
    | substate => rfl

theorem act_trie (s : StateDB) {x : Act} (hx : x.keepsTrie = true) : (s.act x).state.trie = s.state.trie := by
  cases x with
  | read addr => exact funext fun a => (s.state.load_get addr a).2.2
  | op op =>
    cases op with
    | write w => exact Moves.trie_eq (write_moves s w)
    | snapshot | prepare => rfl
    | revert back =>
      rw [act, step]
      cases hback : s.revertBack back with
      | none => rfl
      | some =>
        obtain ⟨revid, hrevert⟩ := revertBack_eq hback
        obtain ⟨newer, r, older, -, -, st, hst, rfl⟩ := Journaled.revertToSnapshot_eq hrevert
        exact Journaled.undoAll_congr undo_trie hst
    | finalise | commitTo => cases hx
    | deleteSuicides =>
      funext a
      show (Cell.deleteSuicides (s.state.cell a)).account = s.state.trie a
      unfold Cell.deleteSuicides
      split <;> rfl

/-! ### Two databases over one trie -/

inductive Side where
  | original
  | copy
deriving DecidableEq

/-- The original and the copy, whose account trie is one. -/
structure Twins where
  original : StateDB
  copy : StateDB
  shared : copy.state.trie = original.state.trie

omit [Keccak] in
/-- The database over a trie that the other one has written. -/
def withTrie (s : StateDB) (trie : Address → Option Account) : StateDB :=
  { s with state := { s.state with trie } }

namespace Twins

omit [Keccak] in
/-- A database and its copy. -/
def ofCopy (s : StateDB) : Twins where
  original := s
  copy := s.copy
  shared := funext fun a => Cell.copy_account (s.state.cell a)

def step (t : Twins) : Side × Act → Twins
  | (.original, x) => ⟨t.original.act x, t.copy.withTrie (t.original.act x).state.trie, rfl⟩
  | (.copy, x) => ⟨t.original.withTrie (t.copy.act x).state.trie, t.copy.act x, rfl⟩

/-- What is done to one side in a run of both. -/
def actsOf (side : Side) (l : List (Side × Act)) : List Act :=
  l.filterMap fun x => if x.1 = side then some x.2 else none

theorem run_eq {l : List (Side × Act)} (hl : ∀ x ∈ l, x.2.keepsTrie = true) (t : Twins) :
    (run step t l).original = run act t.original (actsOf .original l) ∧
      (run step t l).copy = run act t.copy (actsOf .copy l) := by
  induction l generalizing t with
  | nil => exact ⟨rfl, rfl⟩
  | cons x _ ih =>
    obtain ⟨side, x⟩ := x
    have hx : x.keepsTrie = true := hl (side, x) List.mem_cons_self
    have ih := ih (fun y hy => hl y (List.mem_cons_of_mem _ hy)) (t.step (side, x))
    cases side with
    | original =>
      have hcopy : (t.step (.original, x)).copy = t.copy := by
        show t.copy.withTrie (t.original.act x).state.trie = t.copy
        rw [act_trie t.original hx, ← t.shared]
        rfl
      rw [hcopy] at ih
      exact ih
    | copy =>
      have horiginal : (t.step (.copy, x)).original = t.original := by
        show t.original.withTrie (t.copy.act x).state.trie = t.original
        rw [act_trie t.copy hx, t.shared]
        rfl
      rw [horiginal] at ih
      exact ih

end Twins

/-- A copy of a database without forgotten objects reads like the original and has the same root; and
while neither database writes the account trie that they share, each of them is, after any operations on
both, in the state that its own operations alone lead to. -/
theorem copies_independent (κ : Address → Layout) (db : Hash → Option Bytes) (trie : Address → Option Account)
    (htrie : ∀ a data, trie a = some data → (newObject data).Coherent (κ a)) (prior : List Op)
    (hprior : ∀ op ∈ prior, Fits κ op)
    (hmarked : ∀ a, (run step (new db trie) prior).forgotten a = false) : let s := run step (new db trie) prior
    SameReads s s.copy ∧ (∀ b, s.intermediateRoot b = s.copy.intermediateRoot b) ∧
      ∀ l : List (Side × Act), (∀ x ∈ l, x.2.keepsTrie = true) →
        (run Twins.step (.ofCopy s) l).original = run act s (Twins.actsOf .original l) ∧
          (run Twins.step (.ofCopy s) l).copy = run act s.copy (Twins.actsOf .copy l) := by
  intro s
  obtain ⟨hs, hκ⟩ := run_invariants (WF.new db trie) (Conforms.new db htrie) hprior
  refine ⟨?_, ?_, fun l hl => Twins.run_eq hl (.ofCopy s)⟩
  · exact sameReads_of_cells (fun a => Cell.copy_reads s.state.db (hs.cell a) (hκ a) (hmarked a)) rfl rfl rfl rfl
  · intro b
    funext a
    exact (Cell.finalise_copy (s.state.cell a) b).symm

end StateDB

namespace StateDB.Sample

attribute [local instance] Sample.keccak

def richGenesis : Address → Option Account :=
  fun a => if a = 0x11 then some { Account.zero with balance := 10 } else none

/-- Both sides write, and none computes a root. -/
def bothWrite : List (Side × Act) :=
  [(.copy, .op (.write (.addBalance 0x11 5))), (.original, .read 0x11), (.original, .op (.write (.subBalance 0x11 3)))]

theorem copies_independent_bothWrite : (run Twins.step (.ofCopy (new (fun _ => none) richGenesis)) bothWrite).original =
      run act (new (fun _ => none) richGenesis) [.read 0x11, .op (.write (.subBalance 0x11 3))] := by
  have hcoherent : ∀ a data, richGenesis a = some data → (newObject data).Coherent fun _ => SlotKind.word := by
    intro a data h
    have hroot : data.root = ∅ := by
      rw [richGenesis] at h
      split at h
      · cases h
        rfl
      · cases h
    refine .newObject_of_slots (fun k _ => ⟨0, ?_⟩) (fun k hk => (by cases hk))
    rw [hroot]
    rfl
  have hmarked : ∀ a, (new (fun _ => none) richGenesis).forgotten a = false := by
    intro a
    show ((richGenesis a).map newObject).any _ = false
    cases richGenesis a <;> rfl
  exact ((copies_independent (fun _ _ => .word) (fun _ => none) richGenesis hcoherent []
    (fun op h => (by cases h)) hmarked).2.2 bothWrite (by decide)).1

/-- The copy computes its root, and the original reads the balance that the copy gave. -/
theorem copy_writes_trie_of_original : let s := new (fun _ => none) richGenesis
    let t := run Twins.step (.ofCopy s) [(.copy, .op (.write (.addBalance 0x11 5))), (.copy, .op (.finalise true))]
    s.getBalance 0x11 = 10 ∧ t.original.getBalance 0x11 = 15 ∧
      (s.intermediateRoot true 0x11).map Account.balance = some 10 ∧
      (t.original.intermediateRoot true 0x11).map Account.balance = some 15 := by
  decide +kernel

end StateDB.Sample

end GoWanchain.State
