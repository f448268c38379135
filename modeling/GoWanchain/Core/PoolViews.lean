import GoWanchain.Lib.Table
import GoWanchain.Core.TxPool

/-!
# What the pool has of an account

The functions of the pool that handle single transactions each work on one account. The lemma of a function
says what the pool has of the account afterwards (`Changes`), and what becomes of the map of all
transactions: if it was the index of some (`Indexed`), of which it is the index then.
-/

namespace GoWanchain.Core

open State Vm Types List

/-- The map has the transactions that meet `C`, each by its hash. -/
def Indexed [Keccak] (all : GoMap Hash Transaction) (C : Transaction → Prop) : Prop :=
  Table.Records (fun h => all.lookup h) fun h tx => tx.hash = h ∧ C tx

namespace Indexed

variable [Keccak] {all : GoMap Hash Transaction} {C D : Transaction → Prop} {x y : Transaction}

theorem lookup (h : Indexed all C) (hx : C x) : all.lookup x.hash = some x := (h x.hash x).mpr ⟨rfl, hx⟩

theorem hash_inj (h : Indexed all C) (hx : C x) (hy : C y) (heq : x.hash = y.hash) : x = y := by
  have hlookup := h.lookup hx
  rw [heq, h.lookup hy] at hlookup
  exact (Option.some.inj hlookup).symm

theorem congr (h : Indexed all C) (hCD : ∀ tx, C tx ↔ D tx) : Indexed all D := fun k tx =>
  (h k tx).trans (and_congr_right' (hCD tx))

theorem lookup_eraseAll (all : GoMap Hash Transaction) (txs : List Transaction) (k : Hash) :
    (txs.foldl (fun all tx => all.erase tx.hash) all).lookup k
      = if k ∈ txs.map Transaction.hash then none else all.lookup k := by
  induction txs generalizing all with
  | nil => rfl
  | cons tx _ ih =>
    rw [foldl_cons, ih]
    by_cases hk : k = tx.hash
    · subst hk
      simp [AList.lookup_erase]
    · simp [AList.lookup_erase_ne hk, hk]

section

variable (h : Indexed all C)

include h

theorem eraseAll (txs : List Transaction) (htxs : ∀ tx ∈ txs, C tx) :
    Indexed (txs.foldl (fun all tx => all.erase tx.hash) all) fun tx => C tx ∧ tx ∉ txs := by
  intro k tx
  show (txs.foldl _ all).lookup k = some tx ↔ _
  rw [lookup_eraseAll]
  split_ifs with hk
  · obtain ⟨x, hx, rfl⟩ := mem_map.mp hk
    refine iff_of_false (by simp) ?_
    rintro ⟨heq, hC, hnot⟩
    exact hnot (h.hash_inj hC (htxs x hx) heq ▸ hx)
  · refine (h k tx).trans (and_congr_right ?_)
    rintro rfl
    exact (and_iff_left fun hmem => hk (mem_map_of_mem hmem)).symm

theorem insert_of_mem (hx : C x) : Indexed (all.insert x.hash x) C := by
  intro k tx
  show (all.insert x.hash x).lookup k = some tx ↔ _
  refine Iff.trans ?_ (h k tx)
  show (all.insert x.hash x).lookup k = some tx ↔ all.lookup k = some tx
  by_cases hk : k = x.hash
  · subst hk
    rw [AList.lookup_insert, h.lookup hx]
  · rw [AList.lookup_insert_ne hk]

theorem insert_of_fresh (hx : all.lookup x.hash = none) :
    Indexed (all.insert x.hash x) fun tx => tx = x ∨ C tx := by
  intro k tx
  show (all.insert x.hash x).lookup k = some tx ↔ _
  by_cases hk : k = x.hash
  · subst hk
    rw [AList.lookup_insert, Option.some.injEq]
    refine ⟨fun heq => ⟨heq ▸ rfl, .inl heq.symm⟩, ?_⟩
    rintro ⟨heq, rfl | hC⟩
    · rfl
    · have hlookup := h.lookup hC
      rw [heq, hx] at hlookup
      cases hlookup
  · rw [AList.lookup_insert_ne hk]
    refine (h k tx).trans (and_congr_right fun heq => ?_)
    refine (or_iff_right ?_).symm
    rintro rfl
    exact hk heq.symm

theorem exchange (hx : all.lookup x.hash = none) (old : Option Transaction)
    (hold : ∀ tx ∈ old.toList, C tx) :
    Indexed ((old.toList.foldl (fun all tx => all.erase tx.hash) all).insert x.hash x) fun tx =>
      (tx = x ∨ C tx) ∧ tx ∉ old.toList := by
  have hnone : (old.toList.foldl (fun all tx => all.erase tx.hash) all).lookup x.hash = none := by
    rw [lookup_eraseAll, hx, ite_self]
  have hnot : x ∉ old.toList := fun hmem => by
    have hlookup := h.lookup (hold x hmem)
    rw [hx] at hlookup
    cases hlookup
  refine ((h.eraseAll _ hold).insert_of_fresh hnone).congr fun tx => ?_
  constructor
  · rintro (rfl | ⟨hC, hmem⟩)
    · exact ⟨.inl rfl, hnot⟩
    · exact ⟨.inr hC, hmem⟩
  · rintro ⟨rfl | hC, hmem⟩
    · exact .inl rfl
    · exact .inr ⟨hC, hmem⟩

end

end Indexed

namespace TxPool

def txsOf (m : GoMap Address TxList) (a : Address) : List Transaction := ((m.lookup a).map TxList.flatten).getD []

section Lists

variable {m : GoMap Address TxList} {a b : Address} {l : TxList}

theorem txsOf_of_lookup (h : m.lookup a = some l) : txsOf m a = l.flatten := by
  rw [txsOf, h]
  rfl

theorem txsOf_of_none (h : m.lookup a = none) : txsOf m a = [] := by
  rw [txsOf, h]
  rfl

theorem txsOf_sorted (m : GoMap Address TxList) (a : Address) : (txsOf m a).Pairwise fun x y => x.nonce < y.nonce := by
  rw [txsOf]
  cases m.lookup a with
  | none => exact .nil
  | some l => exact l.flatten_sorted

theorem txsOf_insert : txsOf (m.insert a l) b = if b = a then l.flatten else txsOf m b := by
  by_cases h : b = a
  · subst h
    rw [txsOf, AList.lookup_insert, if_pos rfl]
    rfl
  · rw [txsOf, AList.lookup_insert_ne h, if_neg h]
    rfl

theorem txsOf_erase : txsOf (m.erase a) b = if b = a then [] else txsOf m b := by
  by_cases h : b = a
  · subst h
    rw [txsOf, AList.lookup_erase, if_pos rfl]
    rfl
  · rw [txsOf, AList.lookup_erase_ne h, if_neg h]
    rfl

theorem empty_iff : l.empty = true ↔ l.flatten = [] := by simp [TxList.empty, TxList.len]

theorem txsOf_replace :
    txsOf (if l.empty then m.erase a else m.insert a l) b = if b = a then l.flatten else txsOf m b := by
  split_ifs with hempty hb hb
  · rw [txsOf_erase, if_pos hb, empty_iff.mp hempty]
  · rw [txsOf_erase, if_neg hb]
  · rw [txsOf_insert, if_pos hb]
  · rw [txsOf_insert, if_neg hb]

theorem flatten_getD (m : GoMap Address TxList) (a : Address) (strict : Bool) :
    ((m.lookup a).getD (.newTxList strict)).flatten = txsOf m a := by
  rw [txsOf]
  cases m.lookup a <;> rfl

/-- All lists of a map are strict, or none is. -/
def AllStrict (m : GoMap Address TxList) (strict : Bool) : Prop := ∀ a l, m.lookup a = some l → l.strict = strict

variable {strict : Bool}

section

variable (h : AllStrict m strict)

include h

theorem AllStrict.insert (hl : l.strict = strict) : AllStrict (m.insert a l) strict := by
  intro b l' hl'
  rcases GoMap.lookup_insert_cases hl' with ⟨-, rfl⟩ | ⟨-, hl'⟩
  · exact hl
  · exact h b l' hl'

theorem AllStrict.erase (a : Address) : AllStrict (m.erase a) strict := by
  intro b l' hl'
  by_cases hb : b = a
  · rw [hb, AList.lookup_erase] at hl'
    cases hl'
  · rw [AList.lookup_erase_ne hb] at hl'
    exact h b l' hl'

theorem AllStrict.replace (hl : l.strict = strict) :
    AllStrict (if l.empty then m.erase a else m.insert a l) strict := by
  split_ifs
  · exact h.erase a
  · exact h.insert hl

theorem AllStrict.getD (a : Address) : ((m.lookup a).getD (.newTxList strict)).strict = strict := by
  cases hl : m.lookup a with
  | none => rfl
  | some l => exact h a l hl

end

end Lists

/-- What the pool has of an account. -/
structure View where
  pending : List Transaction
  queue : List Transaction
  nonce : ℕ

def View.held (v : View) : List Transaction := v.pending ++ v.queue

def view (pool : TxPool) (a : Address) : View := ⟨txsOf pool.pending a, txsOf pool.queue a, pool.pendingNonce a⟩

/-- The pending lists are strict, the queues are not. -/
structure Strict (pool : TxPool) : Prop where
  pending : AllStrict pool.pending true
  queue : AllStrict pool.queue false

/-- What the calls for transactions do not change. -/
structure Frame (pool pool' : TxPool) : Prop where
  config : pool'.config = pool.config
  signer : pool'.signer = pool.signer
  currentState : pool'.currentState = pool.currentState
  currentMaxGas : pool'.currentMaxGas = pool.currentMaxGas

/-- No two transactions of an account have the same nonce, and all are its own. -/
structure Tidy (pool : TxPool) (a : Address) : Prop where
  nodup : ((pool.view a).held.map Transaction.nonce).Nodup
  sender : ∀ tx ∈ (pool.view a).held, pool.sender tx = a

/-- Only the account `a` changes, to the view `v`. -/
structure Changes (pool : TxPool) (a : Address) (v : View) (pool' : TxPool) : Prop where
  frame : Frame pool pool'
  strict : Strict pool'
  view_eq : ∀ b, pool'.view b = if b = a then v else pool.view b

variable {pool pool' : TxPool} {a b : Address} {tx : Transaction} {txs : List Transaction} {v v' : View}

theorem Frame.refl (pool : TxPool) : Frame pool pool := ⟨rfl, rfl, rfl, rfl⟩

theorem Frame.trans {pool'' : TxPool} (h : Frame pool pool') (h' : Frame pool' pool'') : Frame pool pool'' where
  config := h'.config.trans h.config
  signer := h'.signer.trans h.signer
  currentState := h'.currentState.trans h.currentState
  currentMaxGas := h'.currentMaxGas.trans h.currentMaxGas

theorem Frame.stateNonce (h : Frame pool pool') (a : Address) : pool'.stateNonce a = pool.stateNonce a := by
  rw [TxPool.stateNonce, TxPool.stateNonce, h.currentState]

theorem Frame.sender (h : Frame pool pool') (tx : Transaction) : pool'.sender tx = pool.sender tx := by
  rw [TxPool.sender, TxPool.sender, h.signer]

theorem Changes.refl (hs : Strict pool) (a : Address) : Changes pool a (pool.view a) pool where
  frame := .refl pool
  strict := hs
  view_eq b := by
    split_ifs with h
    · rw [h]
    · rfl

theorem Changes.trans {pool'' : TxPool} (h : Changes pool a v pool') (h' : Changes pool' a v' pool'') :
    Changes pool a v' pool'' where
  frame := h.frame.trans h'.frame
  strict := h'.strict
  view_eq b := by
    rw [h'.view_eq b, h.view_eq b]
    split_ifs <;> rfl

theorem Changes.view_self (h : Changes pool a v pool') : pool'.view a = v := by rw [h.view_eq, if_pos rfl]

theorem Changes.view_ne (h : Changes pool a v pool') (hb : b ≠ a) : pool'.view b = pool.view b := by
  rw [h.view_eq, if_neg hb]

theorem ite_view_self {α : Type} (f : Address → α) (a b : Address) : f b = if b = a then f a else f b := by
  split_ifs with h
  · rw [h]
  · rfl

theorem changes_of (hframe : Frame pool pool') (hs : Strict pool')
    (hpending : ∀ b, txsOf pool'.pending b = if b = a then v.pending else txsOf pool.pending b)
    (hqueue : ∀ b, txsOf pool'.queue b = if b = a then v.queue else txsOf pool.queue b)
    (hnonce : ∀ b, pool'.pendingNonce b = if b = a then v.nonce else pool.pendingNonce b) : Changes pool a v pool' where
  frame := hframe
  strict := hs
  view_eq b := by
    rw [view, hpending, hqueue, hnonce]
    split_ifs <;> rfl

theorem changes_pending {m : GoMap Address TxList} (hs : Strict pool) (hm : AllStrict m true)
    (htxs : ∀ b, txsOf m b = if b = a then txs else txsOf pool.pending b) (all : GoMap Hash Transaction)
    (beats : GoMap Address ℕ) :
    Changes pool a { pool.view a with pending := txs } { pool with pending := m, all, beats } :=
  changes_of ⟨rfl, rfl, rfl, rfl⟩ ⟨hm, hs.queue⟩ htxs (ite_view_self (txsOf pool.queue) a)
    (ite_view_self pool.pendingNonce a)

theorem changes_queue {m : GoMap Address TxList} (hs : Strict pool) (hm : AllStrict m false)
    (htxs : ∀ b, txsOf m b = if b = a then txs else txsOf pool.queue b) (all : GoMap Hash Transaction) :
    Changes pool a { pool.view a with queue := txs } { pool with queue := m, all } :=
  changes_of ⟨rfl, rfl, rfl, rfl⟩ ⟨hs.pending, hm⟩ (ite_view_self (txsOf pool.pending) a) htxs
    (ite_view_self pool.pendingNonce a)

variable [Keccak]

/-! ### Small steps -/

omit [Keccak] in
theorem changes_all (hs : Strict pool) (a : Address) (all : GoMap Hash Transaction) :
    Changes pool a (pool.view a) { pool with all } :=
  ⟨⟨rfl, rfl, rfl, rfl⟩, ⟨hs.pending, hs.queue⟩, (Changes.refl hs a).view_eq⟩

omit [Keccak] in
theorem changes_locals (hs : Strict pool) (a : Address) (locals : List Address) :
    Changes pool a (pool.view a) { pool with locals } :=
  ⟨⟨rfl, rfl, rfl, rfl⟩, ⟨hs.pending, hs.queue⟩, (Changes.refl hs a).view_eq⟩

theorem changes_forget (hs : Strict pool) (a : Address) (txs : List Transaction) :
    Changes pool a (pool.view a) (pool.forget txs) := changes_all hs a _

theorem pendingNonce_setNonce (pool : TxPool) (a b : Address) (n : UInt64) :
    TxPool.pendingNonce { pool with pendingState := pool.pendingState.setNonce a n } b
      = if b = a then n.toNat else pool.pendingNonce b := by
  rw [pendingNonce, ManagedState.getNonce_setNonce, pendingNonce]
  split_ifs <;> rfl

theorem changes_setNonce (hs : Strict pool) (a : Address) (n : UInt64) :
    Changes pool a { pool.view a with nonce := n.toNat } { pool with pendingState := pool.pendingState.setNonce a n } :=
  changes_of ⟨rfl, rfl, rfl, rfl⟩ ⟨hs.pending, hs.queue⟩ (ite_view_self (txsOf pool.pending) a)
    (ite_view_self (txsOf pool.queue) a) fun b => pendingNonce_setNonce pool a b n

theorem changes_lowerNonce (hs : Strict pool) (a : Address) (tx : Transaction) :
    Changes pool a { pool.view a with nonce := min tx.nonce (pool.view a).nonce } (pool.lowerNonce a tx) := by
  show Changes pool a { pool.view a with nonce := min tx.nonce (pool.pendingNonce a) } _
  rw [lowerNonce]
  split_ifs with hlt
  · rw [min_eq_left hlt.le]
    exact changes_setNonce hs a tx.accountNonce
  · rw [min_eq_right (Nat.le_of_not_lt hlt)]
    exact .refl hs a

theorem all_lowerNonce (pool : TxPool) (a : Address) (tx : Transaction) : (pool.lowerNonce a tx).all = pool.all := by
  rw [lowerNonce]
  split_ifs <;> rfl

/-! ### Into the queue -/

theorem enqueueTx_of_fresh (hfresh : ∀ t ∈ txsOf pool.queue (pool.sender tx), t.nonce ≠ tx.nonce) :
    pool.enqueueTx tx = (.ok false, { pool with
      queue := pool.queue.insert (pool.sender tx)
        (((pool.queue.lookup (pool.sender tx)).getD (.newTxList false)).put tx)
      all := pool.all.insert tx.hash tx }) := by
  rw [← flatten_getD pool.queue (pool.sender tx) false] at hfresh
  rw [enqueueTx]
  simp only [TxList.add, TxList.get_eq_none.mpr hfresh]
  rfl

theorem enqueueAll_spec (hs : Strict pool) (hsender : ∀ tx ∈ txs, pool.sender tx = a)
    (hnodup : ((txsOf pool.queue a ++ txs).map Transaction.nonce).Nodup) :
    ∃ q, q.Perm (txsOf pool.queue a ++ txs) ∧ Changes pool a { pool.view a with queue := q } (pool.enqueueAll txs) ∧
      ∀ C, (∀ tx ∈ txs, C tx) → Indexed pool.all C → Indexed (pool.enqueueAll txs).all C := by
  induction txs generalizing pool with
  | nil => exact ⟨_, by rw [append_nil], .refl hs a, fun C _ h => h⟩
  | cons tx txs ih =>
    obtain rfl := hsender tx mem_cons_self
    have hfresh : ∀ t ∈ txsOf pool.queue (pool.sender tx), t.nonce ≠ tx.nonce := by
      rw [map_append, nodup_append] at hnodup
      exact fun t ht => hnodup.2.2 _ (mem_map_of_mem ht) _ (mem_map_of_mem mem_cons_self)
    have heq : pool.enqueueAll (tx :: txs) = (pool.enqueueTx tx).2.enqueueAll txs := rfl
    rw [heq, enqueueTx_of_fresh hfresh]
    set list := ((pool.queue.lookup (pool.sender tx)).getD (.newTxList false)).put tx with hlist
    set next : TxPool := { pool with
      queue := pool.queue.insert (pool.sender tx) list
      all := pool.all.insert tx.hash tx }
    have hflat : list.flatten.Perm (tx :: txsOf pool.queue (pool.sender tx)) := by
      rw [← flatten_getD pool.queue (pool.sender tx) false] at hfresh ⊢
      exact TxList.put_perm_of_none (TxList.get_eq_none.mpr hfresh)
    have hchange : Changes pool (pool.sender tx) { pool.view (pool.sender tx) with queue := list.flatten } next :=
      changes_queue hs (hs.queue.insert (l := list) (hs.queue.getD _)) (fun _ => txsOf_insert) _
    have hqueue : txsOf next.queue (pool.sender tx) = list.flatten := congrArg View.queue hchange.view_self
    have hperm : (list.flatten ++ txs).Perm (txsOf pool.queue (pool.sender tx) ++ tx :: txs) :=
      (hflat.append_right txs).trans perm_middle.symm
    obtain ⟨q, hq, hchanges, hindex⟩ := ih hchange.strict (fun t ht => hsender t (mem_cons_of_mem _ ht)) (by
      rw [hqueue]
      exact (hperm.map _).nodup_iff.mpr hnodup)
    rw [hqueue] at hq
    refine ⟨q, hq.trans hperm, ?_, fun C hC h => ?_⟩
    · rw [hchange.view_self] at hchanges
      exact hchange.trans hchanges
    · exact hindex C (fun t ht => hC t (mem_cons_of_mem _ ht)) (h.insert_of_mem (hC tx mem_cons_self))

/-! ### Into the pending list -/

theorem promoteTx_of_fresh (now : ℕ) (hs : Strict pool) (hfresh : ∀ t ∈ txsOf pool.pending a, t.nonce ≠ tx.nonce) :
    ∃ p, p.Perm (tx :: txsOf pool.pending a) ∧
      Changes pool a ⟨p, txsOf pool.queue a, (tx.accountNonce + 1).toNat⟩ (pool.promoteTx now a tx) ∧
      ∀ C, C tx → Indexed pool.all C → Indexed (pool.promoteTx now a tx).all C := by
  rw [← flatten_getD pool.pending a true] at hfresh ⊢
  set list := (pool.pending.lookup a).getD (.newTxList true) with hlist
  have hget := TxList.get_eq_none.mpr hfresh
  have heq : pool.promoteTx now a tx = { pool with
      pending := pool.pending.insert a (list.put tx)
      all := if (pool.all.lookup tx.hash).isNone then pool.all.insert tx.hash tx else pool.all
      beats := pool.beats.insert a now
      pendingState := pool.pendingState.setNonce a (tx.accountNonce + 1) } := by
    rw [promoteTx, ← hlist]
    simp only [TxList.add, hget]
    rfl
  rw [heq]
  refine ⟨(list.put tx).flatten, TxList.put_perm_of_none hget, ?_, fun C hC h => ?_⟩
  · exact changes_of ⟨rfl, rfl, rfl, rfl⟩ ⟨hs.pending.insert (hs.pending.getD a), hs.queue⟩ (fun _ => txsOf_insert)
      (ite_view_self (txsOf pool.queue) a) fun b => pendingNonce_setNonce pool a b _
  · simpa [h.lookup hC] using h

theorem promoteAll_spec (now : ℕ) (hs : Strict pool)
    (hnodup : ((txsOf pool.pending a ++ txs).map Transaction.nonce).Nodup) :
    ∃ p, p.Perm (txsOf pool.pending a ++ txs) ∧ Changes pool a ⟨p, txsOf pool.queue a,
        (txs.getLast?.map fun tx => (tx.accountNonce + 1).toNat).getD (pool.pendingNonce a)⟩
        (txs.foldl (fun pool tx => pool.promoteTx now a tx) pool) ∧
      ∀ C, (∀ tx ∈ txs, C tx) → Indexed pool.all C →
        Indexed (txs.foldl (fun pool tx => pool.promoteTx now a tx) pool).all C := by
  induction txs generalizing pool with
  | nil => exact ⟨_, by rw [append_nil], .refl hs a, fun C _ h => h⟩
  | cons tx txs ih =>
    have hfresh : ∀ t ∈ txsOf pool.pending a, t.nonce ≠ tx.nonce := by
      rw [map_append, nodup_append] at hnodup
      exact fun t ht => hnodup.2.2 _ (mem_map_of_mem ht) _ (mem_map_of_mem mem_cons_self)
    obtain ⟨p, hp, hchange, hput⟩ := promoteTx_of_fresh now hs hfresh
    have hview := hchange.view_self
    obtain ⟨hpending, hqueue, hnonce⟩ := View.mk.inj hview
    have hperm : (p ++ txs).Perm (txsOf pool.pending a ++ tx :: txs) :=
      (hp.append_right txs).trans perm_middle.symm
    obtain ⟨p', hp', hchanges, hindex⟩ := ih hchange.strict (by
      rw [hpending]
      exact (hperm.map _).nodup_iff.mpr hnodup)
    rw [hpending] at hp'
    rw [hqueue, hnonce] at hchanges
    refine ⟨p', hp'.trans hperm, ?_, fun C hC h => ?_⟩
    · have hlast : ((tx :: txs).getLast?.map fun tx => (tx.accountNonce + 1).toNat).getD (pool.pendingNonce a)
          = (txs.getLast?.map fun tx => (tx.accountNonce + 1).toNat).getD (tx.accountNonce + 1).toNat := by
        cases txs with
        | nil => rfl
        | cons => simp [getLast?_eq_some_getLast]
      rw [hlast]
      exact hchange.trans hchanges
    · exact hindex C (fun t ht => hC t (mem_cons_of_mem _ ht)) (hput C (hC tx mem_cons_self) h)

/-! ### Removal -/

omit [Keccak] in
theorem removeQueued_spec (hs : Strict pool) (a : Address) (tx : Transaction) :
    Changes pool a { pool.view a with queue := (txsOf pool.queue a).filter (·.nonce ≠ tx.nonce) }
      (pool.removeQueued a tx) ∧ (pool.removeQueued a tx).all = pool.all := by
  rw [removeQueued]
  cases hlist : pool.queue.lookup a with
  | none =>
    rw [txsOf_of_none hlist]
    refine ⟨?_, rfl⟩
    have hview : { pool.view a with queue := ([] : List Transaction).filter (·.nonce ≠ tx.nonce) } = pool.view a := by
      rw [view, txsOf_of_none hlist]
      rfl
    rw [hview]
    exact .refl hs a
  | some list =>
    rw [txsOf_of_lookup hlist]
    have hloose := hs.queue a list hlist
    -- a nonce that is not there is not removed
    have hremove : (list.remove tx).2.2.flatten = list.flatten.filter (·.nonce ≠ tx.nonce) ∧
        (list.remove tx).2.2.strict = false := by
      cases hget : list.txs.get tx.nonce with
      | none =>
        rw [TxList.remove_of_none hget, filter_eq_self.mpr fun t ht => by
          simpa using TxList.get_eq_none.mp hget t ht]
        exact ⟨rfl, hloose⟩
      | some =>
        obtain ⟨-, -, hflat, hstrict⟩ := TxList.remove_of_loose hloose hget
        exact ⟨hflat, hstrict.trans hloose⟩
    rw [← hremove.1]
    exact ⟨changes_queue hs (hs.queue.replace hremove.2) (fun _ => txsOf_replace) pool.all, rfl⟩

theorem removeTx_of_unknown {hash : Hash} (h : pool.all.lookup hash = none) : pool.removeTx hash = pool := by
  rw [removeTx, h]

theorem removeTx_of_queued {hash : Hash} (hs : Strict pool) (hlookup : pool.all.lookup hash = some tx)
    (hnot : ∀ t ∈ txsOf pool.pending (pool.sender tx), t.nonce ≠ tx.nonce) : Changes pool (pool.sender tx)
      { pool.view (pool.sender tx) with queue := (txsOf pool.queue (pool.sender tx)).filter (·.nonce ≠ tx.nonce) }
      (pool.removeTx hash) ∧ (pool.removeTx hash).all = pool.all.erase hash := by
  have heq : pool.removeTx hash = TxPool.removeQueued { pool with all := pool.all.erase hash } (pool.sender tx) tx := by
    simp only [removeTx, hlookup]
    cases hlist : pool.pending.lookup (pool.sender tx) with
    | none => rfl
    | some =>
      rw [txsOf_of_lookup hlist] at hnot
      rw [Option.map_some, TxList.remove_of_none (TxList.get_eq_none.mpr hnot)]
  rw [heq]
  have herase := changes_all hs (pool.sender tx) (pool.all.erase hash)
  obtain ⟨hchange, hall⟩ := removeQueued_spec herase.strict (pool.sender tx) tx
  exact ⟨herase.trans hchange, hall⟩

/-- A pending transaction is removed. What is pending above it goes to the queue, unless nothing is left below it:
then it is lost. -/
theorem removeTx_of_pending {hash : Hash} {t : Transaction} (hs : Strict pool)
    (hlookup : pool.all.lookup hash = some tx) (htidy : Tidy pool (pool.sender tx))
    (ht : t ∈ txsOf pool.pending (pool.sender tx)) (hnonce : t.nonce = tx.nonce) :
    ∃ q, q.Perm (txsOf pool.queue (pool.sender tx) ++
        if (txsOf pool.pending (pool.sender tx)).filter (·.nonce < tx.nonce) = [] then []
        else (txsOf pool.pending (pool.sender tx)).filter (tx.nonce < ·.nonce)) ∧
      Changes pool (pool.sender tx) ⟨(txsOf pool.pending (pool.sender tx)).filter (·.nonce < tx.nonce), q,
        min tx.nonce (pool.pendingNonce (pool.sender tx))⟩ (pool.removeTx hash) ∧
      ∀ C, (∀ t ∈ (txsOf pool.pending (pool.sender tx)).filter (tx.nonce < ·.nonce), C t) →
        Indexed (pool.all.erase hash) C → Indexed (pool.removeTx hash).all C := by
  set a := pool.sender tx with ha
  cases hlist : pool.pending.lookup a with
  | none =>
    rw [txsOf_of_none hlist] at ht
    cases ht
  | some list =>
    have htxs := txsOf_of_lookup hlist
    have hsub : ((txsOf pool.pending a).filter (tx.nonce < ·.nonce)).Sublist (txsOf pool.pending a) :=
      filter_sublist
    have hnodup : ((txsOf pool.queue a ++ (txsOf pool.pending a).filter (tx.nonce < ·.nonce)).map
        Transaction.nonce).Nodup :=
      ((perm_append_comm.map _).nodup_iff.mp htidy.nodup).sublist ((hsub.append_left _).map _)
    have hsenders : ∀ t ∈ (txsOf pool.pending a).filter (tx.nonce < ·.nonce), pool.sender t = a := fun t ht =>
      htidy.sender t (mem_append_left _ (hsub.subset ht))
    rw [htxs] at ht hnodup hsenders ⊢
    obtain ⟨old, hget⟩ : ∃ old, list.txs.get tx.nonce = some old := by
      rw [← Option.ne_none_iff_exists']
      exact fun hnone => TxList.get_eq_none.mp hnone t ht hnonce
    obtain ⟨hremoved, habove, hbelow, hstrict⟩ := TxList.remove_of_strict (hs.pending a list hlist) hget
    have heq : pool.removeTx hash = TxPool.removePending { pool with all := pool.all.erase hash } a tx
        (list.flatten.filter (tx.nonce < ·.nonce)) (list.remove tx).2.2 := by
      simp only [removeTx, hlookup, ← habove, ← ha]
      rw [hlist, Option.map_some, show list.remove tx = (true, (list.remove tx).2.1, (list.remove tx).2.2) from
        Prod.ext hremoved rfl]
    have hreplace := changes_pending (a := a) hs (hs.pending.replace (hstrict.trans (hs.pending a list hlist)))
      (fun _ => txsOf_replace) (pool.all.erase hash)
    rw [heq, removePending, ← hbelow]
    by_cases hempty : (list.remove tx).2.2.empty = true
    · have hchange := hreplace (pool.beats.erase a)
      have hlower := changes_lowerNonce hchange.strict a tx
      rw [hchange.view_self] at hlower
      rw [if_pos hempty] at hchange hlower
      rw [if_pos hempty, if_pos (empty_iff.mp hempty), append_nil]
      exact ⟨_, .refl _, hchange.trans hlower, fun C _ h => by rw [all_lowerNonce]; exact h⟩
    · have hchange := hreplace pool.beats
      rw [if_neg hempty] at hchange
      obtain ⟨q, hq, hchanges, hindex⟩ := enqueueAll_spec hchange.strict hsenders hnodup
      rw [hchange.view_self] at hchanges
      have hlower := changes_lowerNonce hchanges.strict a tx
      rw [hchanges.view_self] at hlower
      rw [if_neg hempty, if_neg fun hnil => hempty (empty_iff.mpr hnil)]
      exact ⟨q, hq, (hchange.trans hchanges).trans hlower, fun C hC h => by rw [all_lowerNonce]; exact hindex C hC h⟩

theorem shrink_spec (hs : Strict pool) (a : Address) :
    Changes pool a (pool.view a) (pool.shrink a) ∧ (pool.shrink a).all = pool.all ∧ txsOf pool.pending a = [] ∨
    ∃ init last, txsOf pool.pending a = init ++ [last] ∧ (pool.shrink a).all = pool.all.erase last.hash ∧
      Changes pool a ⟨init, txsOf pool.queue a, min last.nonce (pool.pendingNonce a)⟩ (pool.shrink a) := by
  rw [shrink]
  cases hlist : pool.pending.lookup a with
  | none => exact .inl ⟨.refl hs a, rfl, txsOf_of_none hlist⟩
  | some list =>
    have htxs := txsOf_of_lookup hlist
    set next : TxPool := { pool with pending := pool.pending.insert a (list.cap (list.len - 1)).2 }
    have hchange : Changes pool a { pool.view a with pending := list.flatten.take (list.len - 1) } next :=
      changes_pending hs (hs.pending.insert (l := (list.cap _).2) (hs.pending a list hlist)) (fun _ => txsOf_insert) _ _
    have hdrops : (list.cap (list.len - 1)).1 = (list.flatten.drop (list.len - 1)).reverse := rfl
    show Changes pool a _ ((list.cap (list.len - 1)).1.foldl _ next) ∧ ((list.cap (list.len - 1)).1.foldl _ next).all
      = pool.all ∧ _ ∨ ∃ init last, _ ∧ ((list.cap (list.len - 1)).1.foldl _ next).all = _ ∧ Changes pool a _
        ((list.cap (list.len - 1)).1.foldl _ next)
    rw [hdrops, htxs]
    rcases list.flatten.eq_nil_or_concat' with hnil | ⟨init, last, hconcat⟩
    · left
      rw [TxList.len, hnil] at hchange ⊢
      refine ⟨?_, rfl, rfl⟩
      have hview : pool.view a = { pool.view a with pending := [] } := by
        rw [view, htxs, hnil]
      rw [hview]
      exact hchange
    · right
      refine ⟨init, last, hconcat, ?_⟩
      have hlen : list.len - 1 = init.length := by rw [TxList.len, hconcat]; simp
      rw [hlen, hconcat, take_left] at hchange
      rw [hlen, hconcat, drop_left]
      refine ⟨all_lowerNonce _ a last, hchange.trans ?_⟩
      have hforget := changes_forget hchange.strict a [last]
      have hlower := changes_lowerNonce hforget.strict a last
      rw [hforget.view_self, hchange.view_self] at hlower
      exact hforget.trans hlower

theorem raiseNonce_spec (hs : Strict pool) (a : Address) :
    Changes pool a { pool.view a with nonce := ((txsOf pool.pending a).getLast?.map fun tx =>
      (tx.accountNonce + 1).toNat).getD (pool.pendingNonce a) } (pool.raiseNonce a) ∧
      (pool.raiseNonce a).all = pool.all := by
  have hbind : (pool.pending.lookup a).bind (·.flatten.getLast?) = (txsOf pool.pending a).getLast? := by
    rw [txsOf]
    cases pool.pending.lookup a <;> rfl
  rw [raiseNonce, hbind]
  cases (txsOf pool.pending a).getLast? with
  | none => exact ⟨.refl hs a, rfl⟩
  | some tx => exact ⟨changes_setNonce hs a (tx.accountNonce + 1), rfl⟩

end TxPool

end GoWanchain.Core
