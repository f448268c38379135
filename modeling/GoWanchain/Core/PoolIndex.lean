import GoWanchain.Core.PoolMoves
import Mathlib.Order.CompletePartialOrder

/-!
# The bookkeeping of the pool

The map of all transactions has those of the pending lists and of the queues, each of them once. There is one hole.
`removeTx` puts the transactions behind a pending one back into the queue, but not if it was the first: they are gone
from the lists then and stay in the map. So the books are right as long as a transaction that is the first pending one
of its account is only dropped along with all that are pending behind it (`Thorough`).
-/

namespace GoWanchain.Core.TxPool

open State Vm Types List

variable {pool pool' : TxPool} {a b : Address} {tx : Transaction} {txs lost lost' : List Transaction} {v : View}

/-- What the pool has of an account, with what it lost of it. -/
def stock (pool : TxPool) (lost : List Transaction) (a : Address) : List Transaction :=
  (pool.view a).held ++ lost.filter (pool.sender · = a)

section

variable [Keccak]

/-- The map of all transactions is right, apart from those lost. -/
structure Books (pool : TxPool) (lost : List Transaction) : Prop where
  strict : Strict pool
  nodup : ∀ a, ((pool.stock lost a).map Transaction.nonce).Nodup
  sender : ∀ a, ∀ tx ∈ (pool.view a).held, pool.sender tx = a
  index : Indexed pool.all fun tx => tx ∈ pool.stock lost (pool.sender tx)

omit [Keccak] in
theorem mem_iff_of_perm {l m removed : List Transaction} (hperm : (l ++ removed).Perm m) (hnodup : m.Nodup) :
    tx ∈ m ∧ tx ∉ removed ↔ tx ∈ l := by
  have hapart := (nodup_append.mp (hperm.nodup_iff.mpr hnodup)).2.2
  rw [← hperm.mem_iff, mem_append]
  constructor
  · rintro ⟨hmem | hmem, hnot⟩
    · exact hmem
    · exact absurd hmem hnot
  · exact fun hmem => ⟨.inl hmem, fun hnot => hapart tx hmem tx hnot rfl⟩

namespace Books

section

variable (h : Books pool lost)

include h

theorem tidy (a : Address) : Tidy pool a :=
  ⟨(h.nodup a).sublist ((sublist_append_left ..).map _), h.sender a⟩

theorem sender_of_stock (htx : tx ∈ pool.stock lost a) : pool.sender tx = a := by
  rcases mem_append.mp htx with htx | htx
  · exact h.sender a tx htx
  · simpa using (mem_filter.mp htx).2

theorem mem_stock (htx : tx ∈ (pool.view a).held) : tx ∈ pool.stock lost (pool.sender tx) := by
  rw [h.sender a tx htx]
  exact mem_append_left _ htx

theorem of_changes (removed : List Transaction) (hc : Changes pool a v pool')
    (hlost : ∀ b ≠ a, lost'.filter (pool.sender · = b) = lost.filter (pool.sender · = b))
    (hperm : (v.held ++ lost'.filter (pool.sender · = a) ++ removed).Perm (pool.stock lost a))
    (hindex : Indexed pool'.all fun tx => tx ∈ pool.stock lost (pool.sender tx) ∧ tx ∉ removed) :
    Books pool' lost' := by
  have hsenders : pool'.sender = pool.sender := funext hc.frame.sender
  have hself : pool'.stock lost' a = v.held ++ lost'.filter (pool.sender · = a) := by
    rw [stock, hc.view_self, hsenders]
  have hother (b : Address) (hb : b ≠ a) : pool'.stock lost' b = pool.stock lost b := by
    rw [stock, hc.view_ne hb, hsenders, hlost b hb, stock]
  have hnodup := (hperm.map Transaction.nonce).nodup_iff.mpr (h.nodup a)
  refine ⟨hc.strict, fun b => ?_, fun b tx htx => ?_, hindex.congr fun tx => ?_⟩
  · by_cases hb : b = a
    · rw [hb, hself]
      exact hnodup.sublist ((sublist_append_left ..).map _)
    · rw [hother b hb]
      exact h.nodup b
  · rw [hsenders]
    by_cases hb : b = a
    · rw [hb] at htx ⊢
      rw [hc.view_self] at htx
      exact h.sender_of_stock (hperm.mem_iff.mp (mem_append_left _ (mem_append_left _ htx)))
    · rw [hc.view_ne hb] at htx
      exact h.sender b tx htx
  · rw [hsenders]
    by_cases hb : pool.sender tx = a
    · rw [hb, hself]
      exact mem_iff_of_perm hperm (h.nodup a).of_map
    · rw [hother _ hb]
      refine and_iff_left fun hmem => hb (h.sender_of_stock (hperm.mem_iff.mp (mem_append_right _ hmem)))

theorem shed {removed : List Transaction} (hsheds : Sheds pool a v removed pool') : Books pool' lost := by
  refine h.of_changes removed hsheds.changes (fun _ _ => rfl) ?_ (hsheds.index _ (fun tx => h.mem_stock) h.index)
  refine .trans ?_ (hsheds.perm.append_right (lost.filter (pool.sender · = a)))
  grind

theorem raiseNonce (a : Address) : Books (pool.raiseNonce a) lost := by
  obtain ⟨hc, hall⟩ := raiseNonce_spec h.strict a
  exact h.shed (sheds_nil hc rfl hall)

theorem shrink (a : Address) : Books (pool.shrink a) lost := by
  rcases shrink_spec h.strict a with ⟨hc, hall, -⟩ | ⟨init, last, hpending, hall, hc⟩
  · exact h.shed (sheds_nil hc rfl hall)
  · have hheld : (pool.view a).held = init ++ [last] ++ txsOf pool.queue a := by rw [View.held, view, hpending]
    have hsheds : Sheds pool a ((pool.shrink a).view a) [last] (pool.shrink a) := by
      rw [hc.view_self]
      refine ⟨hc, ?_, fun C hmem hC => ?_⟩
      · rw [hheld, View.held]
        grind
      · rw [hall]
        refine hC.eraseAll [last] fun tx htx => hmem tx ?_
        rw [hheld]
        exact mem_append_left _ (mem_append_right _ htx)
    exact h.shed hsheds

theorem promoteAccount [Crypto] (now : ℕ) (a : Address) : Books (pool.promoteAccount now a) lost := by
  obtain ⟨_, _, _, _, -, -, hsheds⟩ := promoteAccount_spec now h.strict (h.tidy a)
  exact h.shed hsheds

theorem demoteAccount [Crypto] (a : Address) : Books (pool.demoteAccount a) lost := by
  obtain ⟨_, _, hsheds⟩ := demoteAccount_spec h.strict (h.tidy a)
  exact h.shed hsheds

end

/-! ### Removal -/

omit [Keccak] in
theorem filter_nonce_perm {l : List Transaction} (hnodup : (l.map Transaction.nonce).Nodup) (htx : tx ∈ l) :
    (l.filter (·.nonce ≠ tx.nonce) ++ [tx]).Perm l := by
  have hsame : l.filter (fun t => !decide (t.nonce ≠ tx.nonce)) = [tx] := by
    simpa using TxList.filter_nonce_eq hnodup htx
  rw [← hsame]
  exact filter_append_perm _ l

variable {t : Transaction} {hash : Hash}

section

variable (h : Books pool lost)

include h

theorem pending_of_nonce {u : Transaction} (ht : t ∈ pool.stock lost a)
    (hu : u ∈ txsOf pool.pending a) (heq : u.nonce = t.nonce) : u = t :=
  inj_on_of_nodup_map (h.nodup a) (mem_append_left _ (mem_append_left _ hu)) ht heq

theorem index_removeTx (hlookup : pool.all.lookup hash = some t) :
    Indexed (pool.removeTx hash).all fun tx => tx ∈ pool.stock lost (pool.sender tx) ∧ tx ∉ [t] := by
  obtain ⟨rfl, hmem⟩ := (h.index hash t).mp hlookup
  have herase := h.index.eraseAll [t] fun tx htx => by rwa [mem_singleton.mp htx]
  by_cases hpending : ∃ u ∈ txsOf pool.pending (pool.sender t), u.nonce = t.nonce
  · obtain ⟨u, hu, heq⟩ := hpending
    obtain rfl := h.pending_of_nonce hmem hu heq
    obtain ⟨q, hq, hc, hindex⟩ := TxPool.removeTx_of_pending h.strict hlookup (h.tidy _) hu rfl
    refine hindex _ (fun x hx => ⟨?_, fun hxu => ?_⟩) herase
    · exact h.mem_stock (mem_append_left _ (mem_filter.mp hx).1)
    · rw [mem_singleton.mp hxu] at hx
      simpa using (mem_filter.mp hx).2
  · rw [(removeTx_of_queued h.strict hlookup fun u hu heq => hpending ⟨u, hu, heq⟩).2]
    exact herase

theorem lookup_removeTx {k : Hash} (hk : pool.all.lookup k = none) :
    (pool.removeTx hash).all.lookup k = none := by
  cases hlookup : pool.all.lookup hash with
  | none => rwa [removeTx_of_unknown hlookup]
  | some =>
    by_contra hsome
    obtain ⟨x, hx⟩ := Option.ne_none_iff_exists'.mp hsome
    obtain ⟨rfl, hmem, -⟩ := (h.index_removeTx hlookup k x).mp hx
    rw [h.index.lookup hmem] at hk
    cases hk

theorem removeTx_of_not_pending (hlookup : pool.all.lookup hash = some t)
    (hnot : ∀ u ∈ txsOf pool.pending (pool.sender t), u.nonce ≠ t.nonce) :
    Books (pool.removeTx hash) (lost.filter fun u => ¬ (pool.sender u = pool.sender t ∧ u.nonce = t.nonce)) := by
  obtain ⟨rfl, hmem⟩ := (h.index hash t).mp hlookup
  obtain ⟨hc, -⟩ := removeTx_of_queued h.strict hlookup hnot
  refine h.of_changes [t] hc (fun b hb => ?_) ?_ (h.index_removeTx hlookup)
  · rw [filter_filter]
    refine filter_congr fun u _ => ?_
    rw [Bool.eq_iff_iff]
    simp only [Bool.and_eq_true, decide_eq_true_eq]
    exact and_iff_left_of_imp fun hu hsame => hb (hu.symm.trans hsame.1)
  · have hfilter := filter_nonce_perm (h.nodup (pool.sender t)) hmem
    rw [stock, View.held, filter_append, filter_append,
      filter_eq_self.mpr fun u hu => by simpa using hnot u hu] at hfilter
    refine .trans (.of_eq ?_) hfilter
    congr 2
    rw [filter_filter, filter_filter]
    refine filter_congr fun u _ => ?_
    rw [Bool.eq_iff_iff]
    simp only [Bool.and_eq_true, decide_eq_true_eq]
    tauto

theorem removeTx_of_pending (ht : t ∈ txsOf pool.pending a) :
    Books (pool.removeTx t.hash) (lost ++ if (txsOf pool.pending a).filter (·.nonce < t.nonce) = [] then
      (txsOf pool.pending a).filter (t.nonce < ·.nonce) else []) := by
  have hheld : t ∈ (pool.view a).held := mem_append_left _ ht
  obtain rfl := h.sender a t hheld
  have hmem := h.mem_stock hheld
  have hlookup := h.index.lookup hmem
  obtain ⟨q, hq, hc, -⟩ := TxPool.removeTx_of_pending h.strict hlookup (h.tidy _) ht rfl
  set a := pool.sender t with ha
  have hsplit := TxList.split_at_mem (txsOf_sorted pool.pending a) ht
  have hsenders : ∀ u ∈ (txsOf pool.pending a).filter (t.nonce < ·.nonce), pool.sender u = a := fun u hu =>
    h.sender a u (mem_append_left _ (mem_filter.mp hu).1)
  refine h.of_changes [t] hc (fun b hb => ?_) ?_ (h.index_removeTx hlookup)
  · rw [filter_append]
    have hnone : ((txsOf pool.pending a).filter (t.nonce < ·.nonce)).filter (pool.sender · = b) = [] :=
      filter_eq_nil_iff.mpr fun u hu => by simpa [hsenders u hu] using hb.symm
    split_ifs
    · rw [hnone, append_nil]
    · rw [filter_nil, append_nil]
  · have hall : ((txsOf pool.pending a).filter (t.nonce < ·.nonce)).filter (pool.sender · = a)
        = (txsOf pool.pending a).filter (t.nonce < ·.nonce) :=
      filter_eq_self.mpr fun u hu => by simpa using hsenders u hu
    rw [stock, View.held, View.held, filter_append, show (pool.view a).pending = _ from hsplit,
      show (pool.view a).queue = txsOf pool.queue a from rfl]
    generalize (txsOf pool.pending a).filter (·.nonce < t.nonce) = below at hq ⊢
    generalize (txsOf pool.pending a).filter (t.nonce < ·.nonce) = above at hq hall ⊢
    generalize lost.filter (pool.sender · = a) = lostOnes
    refine .trans (.append_right _ (.append_right _ (hq.append_left below))) ?_
    generalize txsOf pool.queue a = queue
    clear * - hall
    split_ifs
    · rw [hall]
      grind
    · rw [filter_nil]
      grind

end

end Books

/-- What is pending behind a transaction that is the first pending one of its account. -/
def behind (pool : TxPool) (hash : Hash) : List Transaction :=
  match pool.all.lookup hash with
  | none => []
  | some t =>
    match txsOf pool.pending (pool.sender t) with
    | [] => []
    | first :: rest => if first.nonce = t.nonce then rest else []

/-- Of the transactions to be dropped, none is the first pending one of its account unless all that are pending behind
it are to be dropped after it. -/
def Thorough : TxPool → List Transaction → Prop
  | _, [] => True
  | pool, tx :: txs =>
    (∀ u ∈ pool.behind tx.hash, u.hash ∈ txs.map Transaction.hash) ∧ Thorough (pool.removeTx tx.hash) txs

instance decidableThorough : ∀ pool txs, Decidable (Thorough pool txs)
  | _, [] => inferInstanceAs (Decidable True)
  | pool, tx :: txs =>
    have := decidableThorough (pool.removeTx tx.hash) txs
    inferInstanceAs (Decidable ((∀ u ∈ pool.behind tx.hash, u.hash ∈ txs.map Transaction.hash) ∧
      Thorough (pool.removeTx tx.hash) txs))

omit [Keccak] in
theorem behind_of_pending {hash : Hash} {t first : Transaction} {rest : List Transaction}
    (hlookup : pool.all.lookup hash = some t) (hpending : txsOf pool.pending (pool.sender t) = first :: rest) :
    pool.behind hash = if first.nonce = t.nonce then rest else [] := by
  rw [behind, hlookup]
  show (match txsOf pool.pending (pool.sender t) with | [] => _ | first :: rest => _) = _
  rw [hpending]

namespace Books

/-- A transaction is removed. Lost are the others that were before and, if it was the first pending one, all behind. -/
theorem removeTx {hash : Hash} {t : Transaction} (h : Books pool lost) (hlookup : pool.all.lookup hash = some t) :
    ∃ lost', Books (pool.removeTx hash) lost' ∧ ∀ u ∈ lost', u ∈ lost ∧ u ≠ t ∨ u ∈ pool.behind hash := by
  obtain ⟨rfl, hmem⟩ := (h.index hash t).mp hlookup
  by_cases hpending : t ∈ txsOf pool.pending (pool.sender t)
  · refine ⟨_, h.removeTx_of_pending hpending, fun u hu => ?_⟩
    have hsplit := TxList.split_at_mem (txsOf_sorted pool.pending (pool.sender t)) hpending
    rcases mem_append.mp hu with hbefore | hu
    · refine .inl ⟨hbefore, ?_⟩
      rintro rfl
      exact (nodup_append.mp (h.nodup (pool.sender u)).of_map).2.2 u (mem_append_left _ hpending) u
        (mem_filter.mpr ⟨hbefore, by simp⟩) rfl
    · split_ifs at hu with hnil
      · rw [hnil] at hsplit
        rw [behind_of_pending hlookup hsplit, if_pos rfl]
        exact .inr hu
      · cases hu
  · have hnot : ∀ u ∈ txsOf pool.pending (pool.sender t), u.nonce ≠ t.nonce := by
      intro u hu heq
      exact hpending (h.pending_of_nonce hmem hu heq ▸ hu)
    refine ⟨_, h.removeTx_of_not_pending hlookup hnot, fun u hu => .inl ?_⟩
    obtain ⟨hu, hne⟩ := mem_filter.mp hu
    refine ⟨hu, ?_⟩
    rintro rfl
    simp at hne

/-- If the drops are thorough, and what is lost is among them, then nothing is lost in the end. -/
theorem removeAll (h : Books pool lost) (hthorough : Thorough pool txs)
    (hlost : ∀ u ∈ lost, u.hash ∈ txs.map Transaction.hash) :
    Books (pool.removeAll txs) [] ∧ ∀ k, pool.all.lookup k = none → (pool.removeAll txs).all.lookup k = none := by
  induction txs generalizing pool lost with
  | nil =>
    have hnil : lost = [] := eq_nil_iff_forall_not_mem.mpr fun u hu => by simpa using hlost u hu
    rw [hnil] at h
    exact ⟨h, fun k hk => hk⟩
  | cons tx txs ih =>
    obtain ⟨hfirst, hthorough⟩ := hthorough
    show Books ((pool.removeTx tx.hash).removeAll txs) [] ∧ ∀ k, pool.all.lookup k = none →
      ((pool.removeTx tx.hash).removeAll txs).all.lookup k = none
    -- what was lost before is still to be dropped, unless it is this one
    have hlater {u : Transaction} (hu : u ∈ lost) (hne : pool.all.lookup tx.hash ≠ some u) :
        u.hash ∈ txs.map Transaction.hash := by
      have hmem : u ∈ pool.stock lost (pool.sender u) := mem_append_right _ (mem_filter.mpr ⟨hu, by simp⟩)
      rcases mem_cons.mp (hlost u hu) with heq | hmem'
      · exact absurd (heq ▸ h.index.lookup hmem) hne
      · exact hmem'
    cases hlookup : pool.all.lookup tx.hash with
    | none =>
      rw [removeTx_of_unknown hlookup] at hthorough ⊢
      exact ih h hthorough fun u hu => hlater hu (by rw [hlookup]; simp)
    | some =>
      obtain ⟨lost', hbooks, hlost'⟩ := h.removeTx hlookup
      obtain ⟨hdone, hnone⟩ := ih hbooks hthorough fun u hu => by
        rcases hlost' u hu with ⟨hu, hne⟩ | hu
        · refine hlater hu fun heq => hne ?_
          rw [hlookup] at heq
          exact (Option.some.inj heq).symm
        · exact hfirst u hu
      exact ⟨hdone, fun k hk => hnone k (h.lookup_removeTx hk)⟩

theorem thorough_of_not_pending (h : Books pool lost) (hnot : ∀ tx ∈ txs, ∀ t, pool.all.lookup tx.hash = some t →
    ∀ u ∈ txsOf pool.pending (pool.sender t), u.nonce ≠ t.nonce) : Thorough pool txs := by
  induction txs generalizing pool lost with
  | nil => trivial
  | cons tx _ ih =>
    have hrest := fun x hx => hnot x (mem_cons_of_mem _ hx)
    refine ⟨fun u hu => ?_, ?_⟩
    · rw [behind] at hu
      split at hu
      · cases hu
      · next t hlookup =>
        split at hu
        · cases hu
        · next first rest hpending =>
          rw [if_neg (hnot tx mem_cons_self t hlookup first (hpending ▸ mem_cons_self))] at hu
          cases hu
    · cases hlookup : pool.all.lookup tx.hash with
      | none =>
        rw [removeTx_of_unknown hlookup]
        exact ih h hrest
      | some t =>
        have htx := hnot tx mem_cons_self t hlookup
        obtain ⟨hc, -⟩ := removeTx_of_queued h.strict hlookup htx
        have hpending (b : Address) : txsOf (pool.removeTx tx.hash).pending b = txsOf pool.pending b := by
          have hview := congrArg View.pending (hc.view_eq b)
          by_cases hb : b = pool.sender t
          · subst hb
            rwa [if_pos rfl] at hview
          · rwa [if_neg hb] at hview
        refine ih (h.removeTx_of_not_pending hlookup htx) fun x hx t' ht' => ?_
        obtain ⟨hhash, hmem, -⟩ := (h.index_removeTx hlookup _ t').mp ht'
        rw [hc.frame.sender, hpending]
        exact hrest x hx t' (hhash ▸ h.index.lookup hmem)

theorem removeAll_of_queued (h : Books pool []) (htxs : txs ⊆ txsOf pool.queue a) : Books (pool.removeAll txs) [] := by
  refine (h.removeAll (h.thorough_of_not_pending fun tx htx t ht u hu heq => ?_) (by simp)).1
  have hheld : tx ∈ (pool.view a).held := mem_append_right _ (htxs htx)
  rw [h.index.lookup (h.mem_stock hheld)] at ht
  cases ht
  rw [h.sender a tx hheld] at hu
  have hnodup := (h.tidy a).nodup
  rw [View.held, map_append, nodup_append] at hnodup
  exact hnodup.2.2 _ (mem_map_of_mem hu) _ (mem_map_of_mem (htxs htx)) heq

/-! ### Adding -/

theorem insert (h : Books pool []) (hfresh : pool.all.lookup tx.hash = none) (loc : Bool) :
    Books (pool.insert tx loc).2 [] := by
  rcases insert_spec loc h.strict (h.tidy (pool.sender tx)) with heq | ⟨p, q, removed, hc, -, hnodup, hperm, hindex⟩
  · rwa [heq]
  set a := pool.sender tx with ha
  have hsenders : (pool.insert tx loc).2.sender = pool.sender := funext hc.frame.sender
  have hstock (b : Address) : (pool.insert tx loc).2.stock [] b = if b = a then p ++ q else (pool.view b).held := by
    rw [stock, filter_nil, append_nil, hc.view_eq]
    split_ifs <;> rfl
  have hheld (b : Address) : pool.stock [] b = (pool.view b).held := append_nil _
  have hnot : tx ∉ (pool.view a).held := fun hmem => by
    rw [h.index.lookup (h.mem_stock hmem)] at hfresh
    cases hfresh
  refine ⟨hc.strict, fun b => ?_, fun b t ht => ?_, ?_⟩
  · rw [hstock]
    split_ifs
    · exact hnodup
    · rw [← hheld]
      exact h.nodup b
  · rw [hsenders]
    rw [hc.view_eq] at ht
    split_ifs at ht with hb
    · rcases mem_cons.mp (hperm.mem_iff.mp (mem_append_left _ ht)) with rfl | ht
      · exact hb.symm
      · exact hb ▸ h.sender a t ht
    · exact h.sender b t ht
  · refine (hindex _ (fun t ht => h.mem_stock ht) hfresh h.index).congr fun t => ?_
    rw [hsenders, hstock, hheld]
    split_ifs with hb
    · rw [hb, ← mem_cons]
      exact mem_iff_of_perm hperm (nodup_cons.mpr ⟨hnot, (h.tidy a).nodup.of_map⟩)
    · have hne : t ≠ tx := fun heq => hb (heq ▸ ha.symm)
      rw [or_iff_right hne]
      refine and_iff_left fun hmem => ?_
      have hheld := (mem_cons.mp (hperm.mem_iff.mp (mem_append_right _ hmem))).resolve_left hne
      exact hb (h.sender a t hheld)

end Books

variable [Crypto]

theorem Books.add {env : Env} {loc : Bool} (h : Books pool []) (hdrop : Thorough pool (dropped env pool tx loc)) :
    Books (pool.add env tx loc).2 [] := by
  rcases add_cases env pool tx loc with heq | ⟨hnone, -, heq⟩
  · rwa [heq]
  · obtain ⟨hbooks, hlookup⟩ := h.removeAll hdrop (by simp)
    rw [heq]
    exact hbooks.insert (hlookup _ hnone) loc

/-! ### Calls -/

/-- The adds of a batch make room thoroughly. -/
def ThoroughAdds (env : Env) (loc : Bool) : TxPool → List Transaction → Prop :=
  Run.Along (fun pool tx => (pool.add env tx loc).2) fun pool tx => Thorough pool (dropped env pool tx loc)

/-- The adds of a reset make room thoroughly. -/
def ThoroughReset (env : Env) (chain : PoolChain) (oldHead : Option Header) (newHead : Header) (pool : TxPool) : Prop :=
  ∀ reinject trie, chain.reinject oldHead newHead = .ok reinject → chain.stateAt newHead.root = some trie →
    ThoroughAdds env false (pool.setState (.new chain.db trie) newHead.gasLimit) reinject

/-- Whatever the call drops to make room, or because of the price, is dropped thoroughly. -/
def ThoroughCall (pool : TxPool) (call : Env × Op) : Prop :=
  match call.2 with
  | .addTx tx loc => Thorough pool (dropped call.1 pool tx loc)
  | .addTxs txs loc => ThoroughAdds call.1 loc pool txs
  | .reset chain oldHead newHead => ThoroughReset call.1 chain oldHead newHead pool
  | .chainHead chain oldHead newHead =>
    ThoroughReset call.1 chain (some oldHead) newHead { pool with homestead := true }
  | .setGasPrice price => Thorough { pool with gasPrice := price } (call.1.priced.cap { pool with gasPrice := price })
  | .evict => True

namespace Books

theorem promoteExecutables (h : Books pool []) (env : Env) (accounts : List Address) :
    Books (pool.promoteExecutables env accounts) [] :=
  promoteExecutables_induct (I := (Books · [])) env accounts (fun _ a h => h.promoteAccount env.now a)
    (fun _ a h => h.shrink a) (fun _ _ _ htxs h => h.removeAll_of_queued htxs) h

variable {env : Env}

theorem addAll {loc : Bool} (h : Books pool []) (hdrop : ThoroughAdds env loc pool txs) :
    Books (pool.addAll env loc txs).1 [] := by
  induction txs generalizing pool with
  | nil => exact h
  | cons _ _ ih => exact ih (h.add hdrop.1) hdrop.2

theorem addTxsLocked {loc : Bool} (h : Books pool []) (hdrop : ThoroughAdds env loc pool txs) :
    Books (pool.addTxsLocked env txs loc) [] :=
  addTxsLocked_induct (I := (Books · [])) (fun _ accounts h => h.promoteExecutables env accounts) (h.addAll hdrop)

theorem install {currentState : StateDB} {currentMaxGas : ℤ} (h : Books pool [])
    (hdrop : ThoroughAdds env false (pool.setState currentState currentMaxGas) txs) :
    Books (pool.install env currentState currentMaxGas txs) [] := by
  have hset : Books (pool.setState currentState currentMaxGas) [] :=
    ⟨⟨h.strict.pending, h.strict.queue⟩, h.nodup, h.sender, h.index⟩
  have hdemote : Books (((pool.setState currentState currentMaxGas).addTxsLocked env txs false).demoteUnexecutables env)
      [] := foldl_induct (I := (Books · [])) (fun _ a _ h => h.demoteAccount a) (hset.addTxsLocked hdrop)
  exact Books.promoteExecutables (foldl_induct (I := (Books · [])) (fun _ a _ h => h.raiseNonce a) hdemote) env _

theorem reset {chain : PoolChain} {oldHead : Option Header} {newHead : Header} (h : Books pool [])
    (hdrop : ThoroughReset env chain oldHead newHead pool) :
    Books ((pool.reset env chain oldHead newHead).toOption.getD pool) [] :=
  reset_induct (I := (Books · [])) h fun reinject trie hre htrie => h.install (hdrop reinject trie hre htrie)

theorem step {call : Env × Op} (h : Books pool []) (hdrop : ThoroughCall pool call) : Books (pool.step call) [] := by
  obtain ⟨env, op⟩ := call
  cases op with
  | addTx =>
    exact addTx_induct (I := (Books · [])) (fun _ accounts h => h.promoteExecutables env accounts) (h.add hdrop)
  | addTxs => exact h.addTxsLocked hdrop
  | reset => exact h.reset hdrop
  | chainHead =>
    have hhome : Books { pool with homestead := true } [] :=
      ⟨⟨h.strict.pending, h.strict.queue⟩, h.nodup, h.sender, h.index⟩
    exact hhome.reset hdrop
  | setGasPrice price =>
    have hprice : Books { pool with gasPrice := price } [] :=
      ⟨⟨h.strict.pending, h.strict.queue⟩, h.nodup, h.sender, h.index⟩
    exact (hprice.removeAll hdrop (by simp)).1
  | evict => exact evict_induct (I := (Books · [])) (fun _ _ _ htxs h => h.removeAll_of_queued htxs) env h

end Books

omit [Crypto] in
theorem books_new (config : TxPoolConfig) (signer : Signer) (gasPrice : ℤ) (db : Hash → Option Bytes)
    (trie : Address → Option Account) (currentMaxGas : ℤ) :
    Books (new config signer gasPrice db trie currentMaxGas) [] where
  strict := ⟨fun _ _ h => (by cases h), fun _ _ h => (by cases h)⟩
  nodup _ := nodup_nil
  sender _ _ h := by cases h
  index _ _ := iff_of_false (fun h => (by cases h)) fun h => (by cases h.2)

def hashesOf (m : GoMap Address TxList) : Set Hash := { h | ∃ a, ∃ tx ∈ txsOf m a, tx.hash = h }

omit [Crypto] in
theorem hashesOf_of_keys {m : GoMap Address TxList} (h : m.keys = []) : hashesOf m = ∅ := by
  rw [Set.eq_empty_iff_forall_notMem]
  rintro k ⟨a, tx, htx, -⟩
  have hnone : m.lookup a = none := by
    rw [AList.lookup_eq_none, AList.mem_keys, h]
    exact not_mem_nil
  rw [txsOf_of_none hnone] at htx
  cases htx

omit [Crypto] in
theorem Books.hashes (h : Books pool []) : { k | k ∈ pool.all } = hashesOf pool.pending ∪ hashesOf pool.queue ∧
      Disjoint (hashesOf pool.pending) (hashesOf pool.queue) := by
  constructor
  · ext k
    rw [Set.mem_ofPred_eq, ← AList.lookup_isSome, Option.isSome_iff_exists]
    constructor
    · rintro ⟨tx, hlookup⟩
      obtain ⟨rfl, hmem⟩ := (h.index k tx).mp hlookup
      rw [stock, filter_nil, append_nil] at hmem
      rcases mem_append.mp hmem with hmem | hmem
      · exact .inl ⟨_, tx, hmem, rfl⟩
      · exact .inr ⟨_, tx, hmem, rfl⟩
    · rintro (⟨a, tx, hmem, rfl⟩ | ⟨a, tx, hmem, rfl⟩)
      · exact ⟨tx, h.index.lookup (h.mem_stock (mem_append_left _ hmem))⟩
      · exact ⟨tx, h.index.lookup (h.mem_stock (mem_append_right _ hmem))⟩
  · rw [Set.disjoint_left]
    rintro k ⟨a, x, hx, rfl⟩ ⟨b, y, hy, heq⟩
    have hxHeld : x ∈ (pool.view a).held := mem_append_left _ hx
    have hyHeld : y ∈ (pool.view b).held := mem_append_right _ hy
    obtain rfl := h.index.hash_inj (h.mem_stock hyHeld) (h.mem_stock hxHeld) heq
    obtain rfl : a = b := (h.sender a y hxHeld).symm.trans (h.sender b y hyHeld)
    exact (nodup_append.mp (h.tidy a).nodup.of_map).2.2 y hx y hy rfl

/-- In a run in which all drops are thorough, the pool knows the transactions of the pending lists and of the queues,
and these are apart. -/
theorem all_hashes (config : TxPoolConfig) (signer : Signer) (gasPrice : ℤ) (db : Hash → Option Bytes)
    (trie : Address → Option Account) (currentMaxGas : ℤ) (calls : List (Env × Op))
    (h : Run.Along step ThoroughCall (new config signer gasPrice db trie currentMaxGas) calls) :
    let pool := Run.run step (new config signer gasPrice db trie currentMaxGas) calls
    { k | k ∈ pool.all } = hashesOf pool.pending ∪ hashesOf pool.queue ∧
      Disjoint (hashesOf pool.pending) (hashesOf pool.queue) :=
  (h.invariant (I := (Books · [])) (fun _ _ h => h.step)
    (books_new config signer gasPrice db trie currentMaxGas)).hashes

end

/-! ### An example -/

namespace Sample

attribute [local instance] Backend.Sample.keccak Vm.Sample.crypto

def dropFirst : List (Env × Op) := [(env, .addTxs [transfer 0 1, transfer 1 10] false), (env, .setGasPrice 5)]

/-- The second stays in the map, and is in no list. -/
theorem follower_lost : { k | k ∈ (Run.run step (start 0) dropFirst).all } ≠
      hashesOf (Run.run step (start 0) dropFirst).pending ∪ hashesOf (Run.run step (start 0) dropFirst).queue := by
  intro heq
  have hmem : (transfer 1 10).hash ∈ (Run.run step (start 0) dropFirst).all := by decide +kernel
  have hpending : (Run.run step (start 0) dropFirst).pending.keys = [] := by decide +kernel
  have hqueue : (Run.run step (start 0) dropFirst).queue.keys = [] := by decide +kernel
  rw [hashesOf_of_keys hpending, hashesOf_of_keys hqueue, Set.union_self, Set.eq_empty_iff_forall_notMem] at heq
  exact heq _ hmem

def dropSecond : List (Env × Op) := [(env, .addTxs [transfer 0 10, transfer 1 1] false), (env, .setGasPrice 5)]

theorem all_hashes_dropSecond : (transfer 0 10).hash ∈ (Run.run step (start 0) dropSecond).all ∧
    { k | k ∈ (Run.run step (start 0) dropSecond).all } =
      hashesOf (Run.run step (start 0) dropSecond).pending ∪ hashesOf (Run.run step (start 0) dropSecond).queue ∧
    Disjoint (hashesOf (Run.run step (start 0) dropSecond).pending) (hashesOf (Run.run step (start 0) dropSecond).queue) := by
  have hadds : ThoroughAdds env false (start 0) [transfer 0 10, transfer 1 1] := by
    rw [ThoroughAdds]
    decide +kernel
  have hprice : ThoroughCall (step (start 0) (env, .addTxs [transfer 0 10, transfer 1 1] false)) (env, .setGasPrice 5) := by
    show Thorough _ _
    decide +kernel
  exact ⟨by decide +kernel, all_hashes _ _ _ _ _ _ dropSecond ⟨hadds, hprice, trivial⟩⟩

end Sample

end GoWanchain.Core.TxPool
