import GoWanchain.Core.PoolMoves

/-!
# The nonces of the pending transactions

The pending transactions of an account count up from its nonce in the state, and the pending nonce
is behind the last of them (`Steady`). A reset puts the nonces of the new state in place first,
adds the transactions of abandoned blocks and promotes them, and only then looks at the pending
lists. In between a list has an old part below the nonce of the new state, a part that was
promoted in the new state and a rest that was there before (`Mixed`). If the nonce of an account
went down, the promoted transactions have to reach up to those that were pending (`Filled`): a gap
behind them is not seen.
-/

namespace GoWanchain.Core.TxPool

open State Vm Types TxList List
open Transaction (nonce)

variable {pool pool' base : TxPool} {a b : Address} {tx : Transaction} {txs p q : List Transaction} {v : View}
  {s s' n : ℕ}

/-! ### Shapes of a pending list -/

/-- What is asked of a pending list and a pending nonce. -/
abbrev Shape := List Transaction → ℕ → Prop

/-- The list counts up from `s`, and the nonce is behind it. If there is no list, the nonce may be lower. -/
structure Steady (s : ℕ) (p : List Transaction) (n : ℕ) : Prop where
  consecutive : Consecutive s p
  le : n ≤ s + p.length
  eq : p ≠ [] → n = s + p.length

/-- The list counts up from the nonce of the old state, and the nonce is not above that of the new one. -/
structure Stale (s s' : ℕ) (p : List Transaction) (n : ℕ) : Prop where
  consecutive : Consecutive s p
  le : n ≤ s'

/-- What is below `s'` is old; what follows counts up from `s'` and starts with good transactions up to the nonce,
unless it is all above `s'`. -/
structure Mixed (good : Transaction → Prop) (s' : ℕ) (p : List Transaction) (n : ℕ) (old mid rest : List Transaction) :
    Prop where
  eq : p = old ++ (mid ++ rest)
  old_lt : ∀ tx ∈ old, tx.nonce < s'
  mid_good : ∀ tx ∈ mid, good tx
  le : n ≤ s' + mid.length
  shape : Consecutive s' (mid ++ rest) ∨ mid = [] ∧ ∀ tx ∈ rest, s' < tx.nonce

/-- The shape stays when the list is cut off at a nonce, and the nonce lowered to it. -/
def CutClosed (S : Shape) : Prop := ∀ p n k, S p n → S (p.filter (·.nonce < k)) (min k n)

/-- The shape stays when transactions are exchanged for others of the same nonces. -/
def SwapClosed (S : Shape) : Prop :=
  ∀ p q n, p.map Transaction.nonce = q.map Transaction.nonce → S p n → S q n

theorem cutClosed_steady (s : ℕ) : CutClosed (Steady s) := by
  intro p n k h
  have hlen : (p.take (k - s)).length = min (k - s) p.length := length_take
  rw [h.consecutive.filter_lt]
  have hle := h.le
  refine ⟨h.consecutive.take _, by omega, fun hne => ?_⟩
  have heq := h.eq fun hnil => hne (by rw [hnil, take_nil])
  have hpos : (p.take (k - s)).length ≠ 0 := fun hzero => hne (length_eq_zero_iff.mp hzero)
  omega

theorem swapClosed_steady (s : ℕ) : SwapClosed (Steady s) := by
  intro p q n hpq h
  have hlen : p.length = q.length := by simpa using congrArg length hpq
  refine ⟨(consecutive_congr hpq).mp h.consecutive, hlen ▸ h.le, fun hne => hlen ▸ h.eq fun hnil => hne ?_⟩
  rw [hnil] at hlen
  exact length_eq_zero_iff.mp hlen.symm

theorem cutClosed_stale (s s' : ℕ) : CutClosed (Stale s s') := by
  intro p n k h
  rw [h.consecutive.filter_lt]
  exact ⟨h.consecutive.take _, (min_le_right ..).trans h.le⟩

theorem cutClosed_mixed (good : Transaction → Prop) (s' : ℕ) :
    CutClosed fun p n => ∃ old mid rest, Mixed good s' p n old mid rest := by
  rintro p n k ⟨old, mid, rest, h⟩
  refine ⟨old.filter (·.nonce < k), mid.filter (·.nonce < k), rest.filter (·.nonce < k), ?_⟩
  have hle := h.le
  constructor
  case eq => rw [h.eq, filter_append, filter_append]
  case old_lt => exact fun tx htx => h.old_lt tx (mem_filter.mp htx).1
  case mid_good => exact fun tx htx => h.mid_good tx (mem_filter.mp htx).1
  case le =>
    rcases h.shape with hc | ⟨rfl, -⟩
    · have hlen : (mid.take (k - s')).length = min (k - s') mid.length := length_take
      rw [(consecutive_append.mp hc).1.filter_lt]
      omega
    · exact (min_le_right ..).trans hle
  case shape =>
    rcases h.shape with hc | ⟨rfl, hrest⟩
    · left
      rw [← filter_append, hc.filter_lt]
      exact hc.take _
    · exact .inr ⟨rfl, fun tx htx => hrest tx (mem_filter.mp htx).1⟩

theorem Stale.mixed (h : Stale s s' p n) (good : Transaction → Prop) :
    Mixed good s' p n (p.take (s' - s)) [] (p.drop (s' - s)) := by
  have hc := h.consecutive
  refine ⟨(take_append_drop _ _).symm, fun tx htx => ?_, by simp, h.le, ?_⟩
  · rw [← hc.filter_lt] at htx
    simpa using (mem_filter.mp htx).2
  · rcases Nat.lt_or_ge s' s with hlt | hge
    · refine .inr ⟨rfl, fun tx htx => hlt.trans_le (hc.bounds (mem_of_mem_drop htx)).1⟩
    · left
      rcases Nat.lt_or_ge p.length (s' - s) with hshort | hlong
      · rw [drop_eq_nil_of_le hshort.le]
        rfl
      · rw [← take_append_drop (s' - s) p, consecutive_append, length_take_of_le hlong, Nat.add_sub_cancel' hge] at hc
        exact hc.2

/-! ### Promotion -/

theorem Steady.promote {l : TxList} (h : Steady s p n) (hlo : ∀ tx ∈ l.flatten, s ≤ tx.nonce)
    (hapart : ((p ++ l.flatten).map nonce).Nodup) (hbound : ∀ tx ∈ l.flatten, tx.nonce + 1 < 2 ^ 64)
    (hq : q.Perm (p ++ (l.ready n).1)) (hsorted : q.Pairwise fun a b => a.nonce < b.nonce) :
    Steady s q (((l.ready n).1.getLast?.map fun tx => (tx.accountNonce + 1).toNat).getD n) := by
  -- all nonces up to the end of the list are taken
  have habove : ∀ tx ∈ l.flatten, s + p.length ≤ tx.nonce := by
    intro tx htx
    by_contra hlt
    obtain ⟨t, ht, heq⟩ := h.consecutive.mem_iff.mpr ⟨hlo tx htx, Nat.lt_of_not_le hlt⟩
    rw [map_append, nodup_append] at hapart
    exact hapart.2.2 _ (mem_map_of_mem ht) _ (mem_map_of_mem htx) heq
  rcases ready_from habove h.le with hnil | ⟨rfl, -, hready⟩
  · rw [hnil, append_nil] at hq
    rw [hnil, eq_of_perm hq hsorted h.consecutive.sorted]
    exact h
  · have hrun : Consecutive (s + p.length) (l.ready (s + p.length)).1 := hready ▸ consecutive_run hbound _
    have hall := consecutive_append.mpr ⟨h.consecutive, hrun⟩
    rw [eq_of_perm hq hsorted hall.sorted]
    by_cases hne : (l.ready (s + p.length)).1 = []
    · rw [hne, append_nil]
      exact h
    · have hsub : ∀ tx ∈ (l.ready (s + p.length)).1, tx.nonce + 1 < 2 ^ 64 := fun tx htx =>
        hbound tx (hready ▸ htx |> (run_isPrefix _ _).subset)
      rw [hrun.next hsub hne, Nat.add_assoc, ← length_append]
      exact ⟨hall, le_rfl, fun _ => rfl⟩

variable {good : Transaction → Prop}

/-- What is promoted in the new state, to a list that is still of the old one: behind the list, or below it if the nonce
of the account went down, and then it has to reach up to the list. -/
theorem Stale.promote {l : TxList} (h : Stale s s' p n)
    (hgood : ∀ tx ∈ l.flatten, good tx) (hlo : ∀ tx ∈ l.flatten, s' ≤ tx.nonce)
    (hapart : ((p ++ l.flatten).map nonce).Nodup) (hbound : ∀ tx ∈ l.flatten, tx.nonce + 1 < 2 ^ 64)
    (hfilled : ∀ first ∈ p.head?, (∃ tx ∈ l.flatten, tx.nonce = s') →
      ∀ m < first.nonce, s' ≤ m → ∃ tx ∈ l.flatten, tx.nonce = m)
    (hq : q.Perm (p ++ (l.ready n).1)) (hsorted : q.Pairwise fun a b => a.nonce < b.nonce) :
    ∃ old mid rest, Mixed good s' q (((l.ready n).1.getLast?.map fun tx => (tx.accountNonce + 1).toNat).getD n)
      old mid rest := by
  have hc := h.consecutive
  by_cases hnil : (l.ready n).1 = []
  · rw [hnil, append_nil] at hq
    rw [hnil, eq_of_perm hq hsorted hc.sorted]
    exact ⟨_, _, _, h.mixed good⟩
  obtain ⟨rfl, hfirst, hready⟩ := (ready_from hlo h.le).resolve_left hnil
  have hrun : Consecutive n (l.ready n).1 := hready ▸ consecutive_run hbound _
  have hsub : ∀ tx ∈ (l.ready n).1, tx ∈ l.flatten := fun tx htx => (run_isPrefix _ _).subset (hready ▸ htx)
  have hmid : ∀ tx ∈ (l.ready n).1, good tx := fun tx htx => hgood tx (hsub tx htx)
  rw [hrun.next (fun tx htx => hbound tx (hsub tx htx)) hnil]
  rw [map_append, nodup_append] at hapart
  have hdisjoint {t u : Transaction} (ht : t ∈ p) (hu : u ∈ l.flatten) : t.nonce ≠ u.nonce :=
    hapart.2.2 _ (mem_map_of_mem ht) _ (mem_map_of_mem hu)
  by_cases hbelow : ∀ tx ∈ p, tx.nonce < n
  · -- behind the list
    have hall : (p ++ (l.ready n).1).Pairwise fun a b => a.nonce < b.nonce := by
      rw [pairwise_append]
      exact ⟨hc.sorted, hrun.sorted, fun x hx y hy => (hbelow x hx).trans_le (hrun.bounds hy).1⟩
    rw [eq_of_perm hq hsorted hall]
    exact ⟨p, (l.ready n).1, [], by rw [append_nil], hbelow, hmid, le_rfl, .inl (by rwa [append_nil])⟩
  · -- below the list, since the nonce of the state is not pending
    obtain ⟨t, ht, hle⟩ : ∃ t ∈ p, n ≤ t.nonce := by simpa using hbelow
    obtain ⟨x, hx, hxn⟩ := hfirst
    have hdown : n < s := by
      by_contra hge
      obtain ⟨u, hu, hun⟩ := hc.mem_iff.mpr ⟨Nat.le_of_not_lt hge, hle.trans_lt (hc.bounds ht).2⟩
      exact hdisjoint hu hx (hun.trans hxn.symm)
    obtain ⟨first, rest, rfl⟩ := exists_cons_of_ne_nil (ne_nil_of_mem ht)
    have hhead : first.nonce = s := (consecutive_cons.mp hc).1
    have hlen : n + (l.ready n).1.length = s := by
      apply le_antisymm
      · -- the first pending nonce is not in the queue
        by_contra hgt
        obtain ⟨u, hu, hus⟩ := hrun.mem_iff.mpr ⟨hdown.le, Nat.lt_of_not_le hgt⟩
        exact hdisjoint mem_cons_self (hsub u hu) (hhead.trans hus.symm)
      · by_contra hlt
        obtain ⟨u, hu, hun⟩ := hfilled first rfl ⟨x, hx, hxn⟩ (n + (l.ready n).1.length)
          (hhead ▸ Nat.lt_of_not_le hlt) (Nat.le_add_right ..)
        rw [hready] at hun
        exact nonce_ne_of_run l.flatten_sorted hbound hlo u hu hun
    have hall : Consecutive n ((l.ready n).1 ++ first :: rest) := consecutive_append.mpr ⟨hrun, by rwa [hlen]⟩
    have hswap : q.Perm ((l.ready n).1 ++ first :: rest) := hq.trans perm_append_comm
    rw [eq_of_perm hswap hsorted hall.sorted]
    exact ⟨[], (l.ready n).1, first :: rest, rfl, by simp, hmid, le_rfl, .inl hall⟩

/-! ### Demotion -/

/-- A list as it is after demotion: it counts up from `s'`, all of it is good, and the nonce is not behind it. -/
structure Settled (good : Transaction → Prop) (s' : ℕ) (p : List Transaction) (n : ℕ) : Prop where
  consecutive : Consecutive s' p
  good : ∀ tx ∈ p, good tx
  le : n ≤ s' + p.length

theorem Settled.mixed (h : Settled good s' p n) : Mixed good s' p n [] p [] :=
  ⟨by rw [append_nil]; rfl, by simp, h.good, h.le, .inl (by rw [append_nil]; exact h.consecutive)⟩

/-- What is left of the list if the old part is dropped, it is cut off at the first transaction that is not good, and
it is put back altogether if it does not start with `s'`. -/
theorem Mixed.demote [DecidablePred good] {old mid rest : List Transaction}
    (h : Mixed good s' p n old mid rest) {live : List Transaction}
    (hlive : live = (p.filter (s' ≤ ·.nonce)).takeWhile (good ·)) :
    Settled good s' (if ∃ tx ∈ live, tx.nonce = s' then live else []) n := by
  have hge : ∀ tx ∈ mid ++ rest, s' ≤ tx.nonce := by
    rcases h.shape with hc | ⟨rfl, hrest⟩
    · exact fun tx htx => (hc.bounds htx).1
    · exact fun tx htx => (hrest tx htx).le
  have hfilter : p.filter (s' ≤ ·.nonce) = mid ++ rest := by
    rw [h.eq, filter_append, filter_eq_nil_iff.mpr fun tx htx => by simpa using h.old_lt tx htx,
      filter_eq_self.mpr fun tx htx => by simpa using hge tx htx, nil_append]
  rw [hfilter, takeWhile_append_of_pos fun tx htx => by simpa using h.mid_good tx htx] at hlive
  have hgood : ∀ tx ∈ live, good tx := by
    rw [hlive]
    intro tx htx
    rcases mem_append.mp htx with htx | htx
    · exact h.mid_good tx htx
    · simpa using mem_takeWhile_imp htx
  have hfront : live <+: mid ++ rest := hlive ▸ ((prefix_append_right_inj mid).mpr <| takeWhile_prefix _)
  have hmid : mid.length ≤ live.length := by rw [hlive, length_append]; omega
  have hle := h.le
  rcases h.shape with hc | ⟨rfl, hrest⟩
  · have hlc : Consecutive s' live := by
      obtain ⟨tail, htail⟩ := hfront
      rw [← htail] at hc
      exact (consecutive_append.mp hc).1
    split_ifs with hstart
    · exact ⟨hlc, hgood, by omega⟩
    · -- then there is nothing
      have hzero : live.length = 0 := by
        by_contra hpos
        exact hstart (hlc.mem_iff.mpr ⟨le_rfl, by omega⟩)
      rw [hzero] at hmid
      exact ⟨rfl, by simp, hle.trans (Nat.add_le_add_left hmid s')⟩
  · rw [if_neg]
    · exact ⟨rfl, by simp, hle⟩
    · rintro ⟨tx, htx, heq⟩
      exact (hrest tx (hfront.subset htx)).ne' heq

theorem Settled.raise (h : Settled good s' p n) (hbound : ∀ tx ∈ p, tx.nonce + 1 < 2 ^ 64) :
    Steady s' p ((p.getLast?.map fun tx => (tx.accountNonce + 1).toNat).getD n) := by
  by_cases hnil : p = []
  · subst hnil
    exact ⟨h.consecutive, h.le, fun hne => absurd rfl hne⟩
  · rw [h.consecutive.next hbound hnil]
    exact ⟨h.consecutive, le_rfl, fun _ => rfl⟩

/-! ### Pools -/

/-- The pending list of an account as it should be. -/
def Due (base : TxPool) (a : Address) : Shape := Steady (base.stateNonce a)


/-- The pending list and the pending nonce of an account have the shape. -/
def Has (S : Address → Shape) (pool : TxPool) (a : Address) : Prop := S a (txsOf pool.pending a) (pool.pendingNonce a)

theorem Changes.has_self {S : Address → Shape} (hc : Changes pool a v pool') :
    Has S pool' a ↔ S a v.pending v.nonce := by
  rw [← hc.view_self]
  rfl

theorem Changes.has_ne {S : Address → Shape} (hc : Changes pool a v pool') (hb : b ≠ a) :
    Has S pool' b ↔ Has S pool b := by
  show S b (pool'.view b).pending (pool'.view b).nonce ↔ _
  rw [hc.view_ne hb]
  rfl

/-- A pool with the state of `base` in which the pending list and the nonce of every account have the shape `S`. -/
structure Orderly (base : TxPool) (S : Address → Shape) (pool : TxPool) : Prop where
  frame : Frame base pool
  strict : Strict pool
  tidy : ∀ a, Tidy pool a
  bound : ∀ a, ∀ tx ∈ (pool.view a).held, tx.nonce + 1 < 2 ^ 64
  shape : ∀ a, Has S pool a

namespace Orderly

variable {S S' : Address → Shape}

theorem mono (h : Orderly base S pool) (hS : ∀ a p n, S a p n → S' a p n) : Orderly base S' pool :=
  ⟨h.frame, h.strict, h.tidy, h.bound, fun a => hS a _ _ (h.shape a)⟩

theorem of_changes (h : Orderly base S pool) (hc : Changes pool a v pool')
    (hnodup : (v.held.map nonce).Nodup)
    (hsub : ∀ tx ∈ v.held, tx ∈ (pool.view a).held ∨ pool.sender tx = a ∧ tx.nonce + 1 < 2 ^ 64)
    (hshape : S a v.pending v.nonce) : Orderly base S pool' := by
  have htidy (b : Address) : Tidy pool' b ∧ ∀ tx ∈ (pool'.view b).held, tx.nonce + 1 < 2 ^ 64 := by
    by_cases hb : b = a
    · subst hb
      refine ⟨⟨by rwa [hc.view_self], fun tx htx => ?_⟩, fun tx htx => ?_⟩
      · rw [hc.view_self] at htx
        rw [hc.frame.sender]
        exact (hsub tx htx).elim ((h.tidy b).sender tx) And.left
      · rw [hc.view_self] at htx
        exact (hsub tx htx).elim (h.bound b tx) And.right
    · refine ⟨⟨by rw [hc.view_ne hb]; exact (h.tidy b).nodup, fun tx htx => ?_⟩, fun tx htx => ?_⟩
      · rw [hc.view_ne hb] at htx
        rw [hc.frame.sender]
        exact (h.tidy b).sender tx htx
      · rw [hc.view_ne hb] at htx
        exact h.bound b tx htx
  refine ⟨h.frame.trans hc.frame, hc.strict, fun b => (htidy b).1, fun b => (htidy b).2, fun b => ?_⟩
  by_cases hb : b = a
  · rw [hb]
    exact hc.has_self.mpr hshape
  · exact (hc.has_ne hb).mpr (h.shape b)

theorem shed (h : Orderly base S pool) (removed : List Transaction) (hc : Changes pool a v pool')
    (hperm : (v.held ++ removed).Perm (pool.view a).held) (hshape : S a v.pending v.nonce) : Orderly base S pool' := by
  refine h.of_changes hc ?_ (fun tx htx => .inl (hperm.mem_iff.mp (mem_append_left _ htx))) hshape
  exact ((hperm.map _).nodup_iff.mpr (h.tidy a).nodup).sublist ((sublist_append_left ..).map _)

variable [Keccak]

theorem removeTx (hS : ∀ a, CutClosed (S a)) (h : Orderly base S pool) (hash : Hash) :
    Orderly base S (pool.removeTx hash) := by
  cases hlookup : pool.all.lookup hash with
  | none => rwa [removeTx_of_unknown hlookup]
  | some t =>
    by_cases hpending : ∃ u ∈ txsOf pool.pending (pool.sender t), u.nonce = t.nonce
    · obtain ⟨u, hu, heq⟩ := hpending
      obtain ⟨q, hq, hc, -⟩ := removeTx_of_pending h.strict hlookup (h.tidy _) hu heq
      have hsplit := split_at_mem (txsOf_sorted pool.pending (pool.sender t)) hu
      rw [heq] at hsplit
      refine h.shed (u :: if (txsOf pool.pending (pool.sender t)).filter (·.nonce < t.nonce) = [] then
        (txsOf pool.pending (pool.sender t)).filter (t.nonce < ·.nonce) else []) hc ?_ (hS _ _ _ _ (h.shape _))
      rw [View.held, View.held, show (pool.view (pool.sender t)).pending = _ from hsplit,
        show (pool.view (pool.sender t)).queue = txsOf pool.queue (pool.sender t) from rfl]
      generalize (txsOf pool.pending (pool.sender t)).filter (·.nonce < t.nonce) = below at hq ⊢
      generalize (txsOf pool.pending (pool.sender t)).filter (t.nonce < ·.nonce) = above at hq ⊢
      refine .trans (.append_right _ (hq.append_left below)) ?_
      generalize txsOf pool.queue (pool.sender t) = queue
      clear * -
      split_ifs <;> grind
    · have hc := (removeTx_of_queued h.strict hlookup fun u hu heq => hpending ⟨u, hu, heq⟩).1
      refine h.shed ((txsOf pool.queue (pool.sender t)).filter fun u => !decide (u.nonce ≠ t.nonce)) hc ?_ (h.shape _)
      rw [View.held, View.held, append_assoc]
      exact .append_left _ (filter_append_perm _ _)

theorem removeAll (hS : ∀ a, CutClosed (S a)) (h : Orderly base S pool) (txs : List Transaction) :
    Orderly base S (pool.removeAll txs) :=
  foldl_induct (I := Orderly base S) (fun _ tx _ h => h.removeTx hS tx.hash) h

theorem shrink (hS : ∀ a, CutClosed (S a)) (h : Orderly base S pool) (a : Address) :
    Orderly base S (pool.shrink a) := by
  rcases shrink_spec h.strict a with ⟨hc, -, -⟩ | ⟨init, last, hpending, -, hc⟩
  · exact h.shed [] hc (by rw [append_nil]) (h.shape a)
  · have hsorted := txsOf_sorted pool.pending a
    rw [hpending, pairwise_append] at hsorted
    have hcut : (txsOf pool.pending a).filter (·.nonce < last.nonce) = init := by
      rw [hpending, filter_append, filter_eq_self.mpr fun tx htx => by
        simpa using hsorted.2.2 tx htx last mem_cons_self]
      simp
    refine h.shed [last] hc ?_ ?_
    · rw [View.held, View.held, view, hpending]
      grind
    · have hshape := hS a _ _ last.nonce (h.shape a)
      rwa [hcut] at hshape

theorem insert (hS : ∀ a, SwapClosed (S a)) (h : Orderly base S pool) (hbound : tx.nonce + 1 < 2 ^ 64) (loc : Bool) :
    Orderly base S (pool.insert tx loc).2 := by
  rcases insert_spec loc h.strict (h.tidy (pool.sender tx)) with heq | ⟨p, q, removed, hc, hnonces, hnodup, hperm, -⟩
  · rwa [heq]
  · refine h.of_changes hc hnodup (fun t ht => ?_) (hS _ _ _ _ hnonces.symm (h.shape _))
    rcases mem_cons.mp (hperm.mem_iff.mp (mem_append_left _ ht)) with rfl | ht
    · exact .inr ⟨rfl, hbound⟩
    · exact .inl ht

theorem add [Crypto] (hcut : ∀ a, CutClosed (S a)) (hswap : ∀ a, SwapClosed (S a)) (h : Orderly base S pool)
    (hbound : tx.nonce + 1 < 2 ^ 64) (env : Env) (loc : Bool) : Orderly base S (pool.add env tx loc).2 := by
  rcases add_cases env pool tx loc with heq | ⟨-, -, heq⟩
  · rwa [heq]
  · rw [heq]
    exact (h.removeAll hcut _).insert hswap hbound loc

theorem addAll [Crypto] (hcut : ∀ a, CutClosed (S a)) (hswap : ∀ a, SwapClosed (S a)) (h : Orderly base S pool)
    (hbound : ∀ tx ∈ txs, tx.nonce + 1 < 2 ^ 64) (env : Env) (loc : Bool) :
    Orderly base S (pool.addAll env loc txs).1 := by
  induction txs generalizing pool with
  | nil => exact h
  | cons tx _ ih =>
    exact ih (h.add hcut hswap (hbound tx mem_cons_self) env loc) fun t ht => hbound t (mem_cons_of_mem _ ht)

variable [Crypto]

theorem promoteAccount (h : Orderly base S pool) (now : ℕ) (a : Address)
    (hshape : ∀ (l : TxList) (q : List Transaction), l.flatten = pool.executable a →
      (∀ tx ∈ l.flatten, base.Passes a tx) → (∀ tx ∈ l.flatten, base.stateNonce a ≤ tx.nonce) →
      ((txsOf pool.pending a ++ l.flatten).map nonce).Nodup → (∀ tx ∈ l.flatten, tx.nonce + 1 < 2 ^ 64) →
      q.Perm (txsOf pool.pending a ++ (l.ready (pool.pendingNonce a)).1) →
      (q.Pairwise fun x y => x.nonce < y.nonce) →
      S a q (((l.ready (pool.pendingNonce a)).1.getLast?.map fun tx => (tx.accountNonce + 1).toNat).getD
        (pool.pendingNonce a))) : Orderly base S (pool.promoteAccount now a) := by
  obtain ⟨l, p, q, removed, hflat, hp, hc, hperm, -⟩ := promoteAccount_spec now h.strict (h.tidy a)
  have hsub : l.flatten.Sublist (txsOf pool.queue a) := by
    rw [hflat]
    exact filter_sublist
  have hexec : ∀ tx ∈ l.flatten, pool.stateNonce a ≤ tx.nonce ∧ pool.Passes a tx := by
    rw [hflat]
    exact fun tx htx => by simpa using (mem_filter.mp htx).2
  have hsorted : p.Pairwise fun x y => x.nonce < y.nonce := by
    rw [← show txsOf (pool.promoteAccount now a).pending a = p from congrArg View.pending hc.view_self]
    exact txsOf_sorted ..
  refine h.shed removed hc hperm (hshape l p hflat (fun tx htx => h.frame.passes.mp (hexec tx htx).2)
    (fun tx htx => h.frame.stateNonce a ▸ (hexec tx htx).1) ?_
    (fun tx htx => h.bound a tx (mem_append_right _ (hsub.subset htx))) hp hsorted)
  exact (h.tidy a).nodup.sublist ((hsub.append_left _).map _)

theorem promoteAccount_steady (h : Orderly base (Due base) pool) (now : ℕ) (a : Address) :
    Orderly base (Due base) (pool.promoteAccount now a) :=
  h.promoteAccount now a fun _ _ _ _ hlo hapart hbound hq hsorted =>
    (h.shape a).promote hlo hapart hbound hq hsorted

theorem promoteExecutables_steady (h : Orderly base (Due base) pool) (env : Env)
    (accounts : List Address) : Orderly base (Due base) (pool.promoteExecutables env accounts) :=
  promoteExecutables_induct env accounts (fun _ a h => h.promoteAccount_steady env.now a)
    (fun _ a h => h.shrink (fun _ => cutClosed_steady _) a)
    (fun _ _ txs _ h => h.removeAll (fun _ => cutClosed_steady _) txs) h

end Orderly

/-! ### Resets -/

section

variable [Keccak] [Crypto]

/-- If there is an executable transaction with the nonce of the state, then there are some for all nonces from there to
the first pending one. -/
def Filled (pool : TxPool) (a : Address) : Prop :=
  ∀ first ∈ (txsOf pool.pending a).head?, (∃ tx ∈ pool.executable a, tx.nonce = pool.stateNonce a) →
    ∀ m < first.nonce, pool.stateNonce a ≤ m → ∃ tx ∈ pool.executable a, tx.nonce = m

theorem Changes.filled (hc : Changes pool a v pool') (hb : b ≠ a) (h : Filled pool b) : Filled pool' b := by
  have hview := hc.view_ne hb
  have hexec : pool'.executable b = pool.executable b := by
    rw [executable, executable, show txsOf pool'.queue b = txsOf pool.queue b from congrArg View.queue hview,
      hc.frame.stateNonce]
    exact filter_congr fun tx _ => by simp only [hc.frame.passes]
  rw [Filled, hexec, hc.frame.stateNonce,
    show txsOf pool'.pending b = txsOf pool.pending b from congrArg View.pending hview]
  exact h

/-- The pending list of an account in a reset. -/
def Mix (base : TxPool) (a : Address) : Shape := fun p n =>
  ∃ old mid rest, Mixed (base.Passes a) (base.stateNonce a) p n old mid rest

theorem cutClosed_mix (base : TxPool) (a : Address) : CutClosed (Mix base a) := cutClosed_mixed _ _

/-- The pending list of an account when it has been cleaned. -/
def Clean (base : TxPool) (a : Address) : Shape := Settled (base.Passes a) (base.stateNonce a)

omit [Keccak] [Crypto] in
theorem txsOf_of_not_mem {m : GoMap Address TxList} (h : a ∉ m.keys) : txsOf m a = [] :=
  txsOf_of_none (AList.lookup_eq_none.mpr fun hmem => h (AList.mem_keys.mp hmem))

namespace Orderly

theorem promoteAll_mix {old : Address → ℕ} (now : ℕ) {accounts : List Address} (hnodup : accounts.Nodup)
    (h : Orderly base (Mix base) pool)
    (hstale : ∀ a ∈ accounts, Has (fun a => Stale (old a) (base.stateNonce a)) pool a)
    (hfilled : ∀ a ∈ accounts, Filled pool a) :
    Orderly base (Mix base) (accounts.foldl (TxPool.promoteAccount now) pool) := by
  induction accounts generalizing pool with
  | nil => exact h
  | cons a accounts ih =>
    obtain ⟨hnot, hnodup⟩ := nodup_cons.mp hnodup
    have hstate := h.frame.stateNonce a
    obtain ⟨_, _, _, _, -, -, hc, -, -⟩ := promoteAccount_spec now h.strict (h.tidy a)
    have hne : ∀ b ∈ accounts, b ≠ a := fun b hb heq => hnot (heq ▸ hb)
    refine ih hnodup ?_ (fun b hb => (hc.has_ne (hne b hb)).mpr (hstale b (mem_cons_of_mem _ hb))) fun b hb =>
      hc.filled (hne b hb) (hfilled b (mem_cons_of_mem _ hb))
    refine h.promoteAccount now a fun l q hflat hgood hlo hapart hbound hq hsorted => ?_
    refine Stale.promote (hstale a mem_cons_self) hgood hlo hapart hbound ?_ hq hsorted
    have hfill := hfilled a mem_cons_self
    rwa [Filled, hstate, ← hflat] at hfill

theorem addTxsLocked_mix {old : Address → ℕ} {env : Env}
    (h : Orderly base (fun a => Stale (old a) (base.stateNonce a)) pool) (hbound : ∀ tx ∈ txs, tx.nonce + 1 < 2 ^ 64)
    (hfilled : ∀ a ∈ (pool.addAll env false txs).2, Filled (pool.addAll env false txs).1 a) :
    Orderly base (Mix base) (pool.addTxsLocked env txs false) := by
  have hadd := h.addAll (fun _ => cutClosed_stale _ _)
    (fun _ _ _ _ hpq hs => ⟨(consecutive_congr hpq).mp hs.consecutive, hs.le⟩) hbound env false
  have hmix : Orderly base (Mix base) (pool.addAll env false txs).1 := hadd.mono fun a p n hs => ⟨_, _, _, hs.mixed _⟩
  rw [TxPool.addTxsLocked]
  show Orderly base (Mix base) (if _ then (pool.addAll env false txs).1 else _)
  split_ifs
  · exact hmix
  · have hperm := env.dirty.2 (pool.addAll env false txs).2.dedup
    have hmem : ∀ a ∈ env.dirty.1 (pool.addAll env false txs).2.dedup, a ∈ (pool.addAll env false txs).2 := fun a ha =>
      mem_dedup.mp (hperm.mem_iff.mp ha)
    have hpromoted := promoteAll_mix env.now (hperm.nodup_iff.mpr (nodup_dedup _)) hmix
      (fun a _ => hadd.shape a) fun a ha => hfilled a (hmem a ha)
    exact truncateQueue_induct (fun _ _ txs _ h => h.removeAll (cutClosed_mix base) txs) env
      (truncatePending_induct (fun _ a h => h.shrink (cutClosed_mix base) a) env hpromoted)

theorem demoteAccount_clean (h : Orderly base (Mix base) pool) (a : Address) :
    Orderly base (Mix base) (pool.demoteAccount a) ∧ Has (Clean base) (pool.demoteAccount a) a ∧
      ∀ b, Has (Clean base) pool b → Has (Clean base) (pool.demoteAccount a) b := by
  obtain ⟨q, removed, hc, hperm, -⟩ := demoteAccount_spec h.strict (h.tidy a)
  obtain ⟨old, mid, rest, hmixed⟩ := h.shape a
  have hlive : pool.live a =
      ((txsOf pool.pending a).filter (base.stateNonce a ≤ ·.nonce)).takeWhile (base.Passes a ·) := by
    rw [live, h.frame.stateNonce]
    congr 1
    funext tx
    simp only [h.frame.passes]
  have hsettled := hmixed.demote hlive
  rw [h.frame.stateNonce a] at hc hperm
  have hself : Has (Clean base) (pool.demoteAccount a) a := hc.has_self.mpr hsettled
  refine ⟨h.shed removed hc hperm ⟨_, _, _, hsettled.mixed⟩, hself, fun b hb => ?_⟩
  by_cases heq : b = a
  · rwa [heq]
  · exact (hc.has_ne heq).mpr hb

theorem demoteUnexecutables_clean (env : Env) (h : Orderly base (Mix base) pool) :
    Orderly base (Clean base) (pool.demoteUnexecutables env) := by
  obtain ⟨hmix, hclean⟩ := foldl_establish (I := Orderly base (Mix base)) (E := Has (Clean base))
    (fun _ a h => demoteAccount_clean h a) (env.demoted.1 pool.pending.keys) h
  refine ⟨hmix.frame, hmix.strict, hmix.tidy, hmix.bound, fun a => hclean a ?_⟩
  rw [(env.demoted.2 _).mem_iff]
  refine or_iff_not_imp_left.mpr fun hnot => ?_
  obtain ⟨old, mid, rest, hmixed⟩ := h.shape a
  have hnil := txsOf_of_not_mem hnot
  have hle := hmixed.le
  have heq := hmixed.eq
  rw [hnil] at heq
  obtain ⟨-, hmid⟩ := append_eq_nil_iff.mp heq.symm
  rw [(append_eq_nil_iff.mp hmid).1] at hle
  rw [Has, hnil]
  exact ⟨rfl, by simp, hle⟩

theorem raiseNonce_due (h : Orderly base (Clean base) pool) (a : Address) :
    Orderly base (Clean base) (pool.raiseNonce a) ∧ Has (Due base) (pool.raiseNonce a) a ∧
      ∀ b, Has (Due base) pool b → Has (Due base) (pool.raiseNonce a) b := by
  obtain ⟨hc, -⟩ := raiseNonce_spec h.strict a
  have hclean : Settled (base.Passes a) (base.stateNonce a) (txsOf pool.pending a) (pool.pendingNonce a) := h.shape a
  have hsteady := hclean.raise fun tx htx => h.bound a tx (mem_append_left _ htx)
  have hself : Has (Due base) (pool.raiseNonce a) a := hc.has_self.mpr hsteady
  refine ⟨h.shed [] hc (by rw [append_nil]; exact .refl _) ⟨hclean.consecutive, hclean.good, hsteady.le⟩, hself,
    fun b hb => ?_⟩
  by_cases heq : b = a
  · rwa [heq]
  · exact (hc.has_ne heq).mpr hb

theorem raiseAll_due (h : Orderly base (Clean base) pool) :
    Orderly base (Due base) (pool.pending.keys.foldl TxPool.raiseNonce pool) := by
  obtain ⟨hclean, hdue⟩ := foldl_establish (I := Orderly base (Clean base)) (E := Has (Due base))
    (fun _ a h => raiseNonce_due h a) pool.pending.keys h
  refine ⟨hclean.frame, hclean.strict, hclean.tidy, hclean.bound, fun a => hdue a ?_⟩
  refine or_iff_not_imp_left.mpr fun hnot => ?_
  have hshape := h.shape a
  rw [Has, txsOf_of_not_mem hnot] at hshape ⊢
  exact ⟨hshape.consecutive, hshape.le, fun hne => absurd rfl hne⟩

theorem install {env : Env} {db : Hash → Option Bytes} {trie : Address → Option Account} {currentMaxGas : ℤ}
    (h : Orderly pool (Due pool) pool) (hbound : ∀ tx ∈ txs, tx.nonce + 1 < 2 ^ 64)
    (hfilled : ∀ a ∈ ((pool.setState (.new db trie) currentMaxGas).addAll env false txs).2,
      Filled ((pool.setState (.new db trie) currentMaxGas).addAll env false txs).1 a) :
    Orderly (pool.setState (.new db trie) currentMaxGas) (Due (pool.setState (.new db trie) currentMaxGas))
      (pool.install env (.new db trie) currentMaxGas txs) := by
  set base := pool.setState (.new db trie) currentMaxGas with hbase
  have hstale : Orderly base (fun a => Stale (pool.stateNonce a) (base.stateNonce a)) base := by
    refine ⟨.refl _, ⟨h.strict.pending, h.strict.queue⟩, fun a => ⟨(h.tidy a).nodup, (h.tidy a).sender⟩, h.bound,
      fun a => ⟨(h.shape a).consecutive, ?_⟩⟩
    rw [hbase, pendingNonce, setState, ManagedState.getNonce_manageState]
    exact le_rfl
  have hmix := hstale.addTxsLocked_mix hbound hfilled
  exact ((hmix.demoteUnexecutables_clean env).raiseAll_due).promoteExecutables_steady env _

end Orderly

/-! ### Calls -/

/-- The transactions that a reset puts back do not have the last nonce, and when they are promoted they reach up to
what is pending. -/
def FilledReset (env : Env) (chain : PoolChain) (oldHead : Option Header) (newHead : Header) (pool : TxPool) : Prop :=
  ∀ reinject trie, chain.reinject oldHead newHead = .ok reinject → chain.stateAt newHead.root = some trie →
    (∀ tx ∈ reinject, tx.nonce + 1 < 2 ^ 64) ∧
    ∀ a ∈ ((pool.setState (.new chain.db trie) newHead.gasLimit).addAll env false reinject).2,
      Filled ((pool.setState (.new chain.db trie) newHead.gasLimit).addAll env false reinject).1 a

/-- No transaction has the last nonce, and resets leave no gaps. -/
def FilledCall (pool : TxPool) (call : Env × Op) : Prop :=
  match call.2 with
  | .addTx tx _ => tx.nonce + 1 < 2 ^ 64
  | .addTxs txs _ => ∀ tx ∈ txs, tx.nonce + 1 < 2 ^ 64
  | .reset chain oldHead newHead => FilledReset call.1 chain oldHead newHead pool
  | .chainHead chain oldHead newHead => FilledReset call.1 chain (some oldHead) newHead { pool with homestead := true }
  | .setGasPrice _ => True
  | .evict => True

namespace Orderly

omit [Keccak] [Crypto] in
theorem rebase (h : Orderly base (Due base) pool) : Orderly pool (Due pool) pool := by
  refine ⟨.refl pool, h.strict, h.tidy, h.bound, fun a => ?_⟩
  rw [Has, Due, h.frame.stateNonce]
  exact h.shape a

theorem reset {env : Env} {chain : PoolChain} {oldHead : Option Header} {newHead : Header}
    (h : Orderly pool (Due pool) pool) (hfilled : FilledReset env chain oldHead newHead pool) :
    Orderly ((pool.reset env chain oldHead newHead).toOption.getD pool)
      (Due ((pool.reset env chain oldHead newHead).toOption.getD pool))
      ((pool.reset env chain oldHead newHead).toOption.getD pool) :=
  reset_induct (I := fun pool => Orderly pool (Due pool) pool) h fun reinject trie hre htrie =>
    (h.install (hfilled reinject trie hre htrie).1 (hfilled reinject trie hre htrie).2).rebase

theorem step {call : Env × Op} (h : Orderly pool (Due pool) pool) (hfilled : FilledCall pool call) :
    Orderly (pool.step call) (Due (pool.step call)) (pool.step call) := by
  obtain ⟨env, op⟩ := call
  cases op with
  | addTx _ loc =>
    have hadd := h.add (fun _ => cutClosed_steady _) (fun _ => swapClosed_steady _) hfilled env loc
    exact (addTx_induct (fun _ accounts h => h.promoteExecutables_steady env accounts) hadd).rebase
  | addTxs _ loc =>
    have hadd := h.addAll (fun _ => cutClosed_steady _) (fun _ => swapClosed_steady _) hfilled env loc
    exact (addTxsLocked_induct (fun _ accounts h => h.promoteExecutables_steady env accounts) hadd).rebase
  | reset => exact h.reset hfilled
  | chainHead =>
    have hhome : Orderly { pool with homestead := true } (Due { pool with homestead := true })
        { pool with homestead := true } :=
      ⟨.refl _, ⟨h.strict.pending, h.strict.queue⟩, fun a => ⟨(h.tidy a).nodup, (h.tidy a).sender⟩, h.bound, h.shape⟩
    exact hhome.reset hfilled
  | setGasPrice price =>
    have hprice : Orderly { pool with gasPrice := price } (Due { pool with gasPrice := price })
        { pool with gasPrice := price } :=
      ⟨.refl _, ⟨h.strict.pending, h.strict.queue⟩, fun a => ⟨(h.tidy a).nodup, (h.tidy a).sender⟩, h.bound, h.shape⟩
    exact (hprice.removeAll (fun _ => cutClosed_steady _) _).rebase
  | evict =>
    exact (evict_induct (fun _ _ txs _ h => h.removeAll (fun _ => cutClosed_steady _) txs) env h).rebase

end Orderly

omit [Keccak] [Crypto] in
theorem orderly_new (config : TxPoolConfig) (signer : Signer) (gasPrice : ℤ) (db : Hash → Option Bytes)
    (trie : Address → Option Account) (currentMaxGas : ℤ) :
    Orderly (new config signer gasPrice db trie currentMaxGas) (Due (new config signer gasPrice db trie currentMaxGas))
      (new config signer gasPrice db trie currentMaxGas) where
  frame := .refl _
  strict := ⟨fun _ _ h => (by cases h), fun _ _ h => (by cases h)⟩
  tidy _ := ⟨nodup_nil, fun _ h => (by cases h)⟩
  bound _ _ h := by cases h
  shape _ := ⟨rfl, le_rfl, fun hne => absurd rfl hne⟩

/-- In a run in which no transaction has the last nonce and resets leave no gaps, the pending transactions of every
account count up from its nonce in the state, and the pending nonce is behind the last of them. -/
theorem pending_consecutive (config : TxPoolConfig) (signer : Signer) (gasPrice : ℤ) (db : Hash → Option Bytes)
    (trie : Address → Option Account) (currentMaxGas : ℤ) (calls : List (Env × Op))
    (h : Run.Along step FilledCall (new config signer gasPrice db trie currentMaxGas) calls) (a : Address) :
    let pool := Run.run step (new config signer gasPrice db trie currentMaxGas) calls
    Consecutive (pool.stateNonce a) (txsOf pool.pending a) ∧
      ∀ tx, (txsOf pool.pending a).getLast? = some tx → pool.pendingNonce a = tx.nonce + 1 := by
  intro pool
  have horderly : Orderly pool (Due pool) pool :=
    h.invariant (I := fun pool => Orderly pool (Due pool) pool) (fun _ _ h => h.step) (orderly_new ..)
  have hsteady : Steady (pool.stateNonce a) (txsOf pool.pending a) (pool.pendingNonce a) := horderly.shape a
  refine ⟨hsteady.consecutive, fun tx hlast => ?_⟩
  obtain ⟨init, hinit⟩ := getLast?_eq_some_iff.mp hlast
  have heq := hsteady.eq (by simp [hinit])
  have hc := hsteady.consecutive
  rw [hinit, consecutive_append] at hc
  rw [heq, hinit, length_append, (consecutive_cons.mp hc.2).1]
  rfl

end

/-! ### An example -/

namespace Sample

attribute [local instance] Backend.Sample.keccak Vm.Sample.crypto

def head (difficulty : ℤ) : Header :=
  { Core.Sample.header Core.Sample.genesis.hash 1 difficulty with gasLimit := 100000 }

/-- Two blocks on the genesis block, of which the first has the transactions. On the second the account 1 has the
nonce 0. -/
def chain (txs : List Transaction) : PoolChain where
  getBlock hash _ := [⟨Core.Sample.genesis, []⟩, ⟨head 1, txs⟩, ⟨head 2, []⟩].find? fun b : Block => b.hash = hash
  db _ := none
  stateAt _ := some (rich 0)

/-- With one transaction pending the chain goes from the first to the second. -/
def reorg (txs : List Transaction) : List (Env × Op) :=
  [(env, .addTx (transfer 2 1) false), (env, .chainHead (chain txs) (head 1) (head 2))]

/-- The second transaction of the abandoned block is too cheap for the pool. The first is promoted all the same. -/
theorem reorg_leaves_gap : let pool := Run.run step (start 2) (reorg [transfer 0 1, transfer 1 0])
    (txsOf pool.pending 1).map Transaction.nonce = [0, 2] ∧
      ¬ Consecutive (pool.stateNonce 1) (txsOf pool.pending 1) := by
  simp only [Consecutive]
  decide +kernel

/-- The pool when both transactions of the abandoned block were put back. -/
def returned : TxPool × List Address :=
  (TxPool.setState { step (start 2) (env, .addTx (transfer 2 1) false) with homestead := true }
    (.new (fun _ => none) (rich 0)) 100000).addAll env false [transfer 0 1, transfer 1 1]

theorem filled_returned (a : Address) (ha : a ∈ returned.2) : Filled returned.1 a := by
  have hdirty : returned.2 = [1, 1] := by decide +kernel
  have hexec : (returned.1.executable 1).map nonce = [0, 1] := by decide +kernel
  have hhead : (txsOf returned.1.pending 1).head?.map nonce = some 2 := by decide +kernel
  obtain rfl : a = 1 := by simpa [hdirty] using ha
  intro first hfirst _ m hm _
  rw [Option.mem_def.mp hfirst] at hhead
  have htwo : m < 2 := Option.some.inj hhead ▸ hm
  rw [← mem_map (f := nonce), hexec]
  interval_cases m <;> simp

/-- They reach up to the pending one. -/
theorem pending_consecutive_reorg : let pool := Run.run step (start 2) (reorg [transfer 0 1, transfer 1 1])
    (txsOf pool.pending 1).map Transaction.nonce = [0, 1, 2] ∧ Consecutive (pool.stateNonce 1) (txsOf pool.pending 1) ∧
      ∀ tx, (txsOf pool.pending 1).getLast? = some tx → pool.pendingNonce 1 = tx.nonce + 1 := by
  have hreinject : (chain [transfer 0 1, transfer 1 1]).reinject (some (head 1)) (head 2) =
      .ok [transfer 0 1, transfer 1 1] := by decide +kernel
  have hfilled : FilledReset env (chain [transfer 0 1, transfer 1 1]) (some (head 1)) (head 2)
      { step (start 2) (env, .addTx (transfer 2 1) false) with homestead := true } := by
    rintro reinject trie hre htrie
    cases (hre.symm.trans hreinject)
    cases htrie
    exact ⟨by decide +kernel, filled_returned⟩
  have hlow : (transfer 2 1).nonce + 1 < 2 ^ 64 := by decide
  exact ⟨by decide +kernel, pending_consecutive _ _ _ _ _ _ (reorg _) ⟨hlow, hfilled, trivial⟩ 1⟩

end Sample

end GoWanchain.Core.TxPool
