import GoWanchain.Core.PoolViews

/-!
# What the calls do with the transactions of an account

The bodies of the loops of `promoteExecutables` and `demoteUnexecutables`, and the end of `add`. Behind them stand the
rules for the loops themselves: what the body keeps, the loop keeps.
-/

namespace GoWanchain.Core.TxPool

open State Vm Types List
open Transaction (nonce)

variable {pool pool' : TxPool} {a b : Address} {tx : Transaction} {txs : List Transaction}

variable [Keccak]

/-! ### Promotion and demotion -/

theorem forget_forget (pool : TxPool) (xs ys : List Transaction) :
    (pool.forget xs).forget ys = pool.forget (xs ++ ys) := by
  rw [forget, forget, forget, foldl_append]

/-- The account `a` changes to `v`, and what it does not have any more is removed from the map. -/
structure Sheds (pool : TxPool) (a : Address) (v : View) (removed : List Transaction) (pool' : TxPool) : Prop where
  changes : Changes pool a v pool'
  perm : (v.held ++ removed).Perm (pool.view a).held
  index : ∀ C, (∀ tx ∈ (pool.view a).held, C tx) → Indexed pool.all C → Indexed pool'.all fun tx => C tx ∧ tx ∉ removed

theorem sheds_nil {v : View} (hc : Changes pool a v pool') (hv : v.held = (pool.view a).held)
    (hall : pool'.all = pool.all) : Sheds pool a v [] pool' where
  changes := hc
  perm := by rw [append_nil, hv]
  index C _ h := by
    rw [hall]
    exact h.congr fun tx => by simp

variable [Crypto]

/-- A transaction is neither too costly nor, if it has privacy, invalid. -/
def Passes (pool : TxPool) (a : Address) (tx : Transaction) : Prop :=
  Payable (pool.currentState.getBalance a) pool.currentMaxGas tx ∧
    TxList.invalidPrivacy pool.currentState pool.signer pool.currentMaxGas tx = false

instance (pool : TxPool) (a : Address) (tx : Transaction) : Decidable (pool.Passes a tx) :=
  inferInstanceAs (Decidable (_ ∧ _))

theorem Frame.passes (h : Frame pool pool') : pool'.Passes a tx ↔ pool.Passes a tx := by
  rw [Passes, Passes, h.currentState, h.signer, h.currentMaxGas]

def executable (pool : TxPool) (a : Address) : List Transaction :=
  (txsOf pool.queue a).filter fun tx => pool.stateNonce a ≤ tx.nonce ∧ pool.Passes a tx

/-- What is first done with a list: the transactions that are removed, those that are invalidated by it, those with
privacy that are removed, and the list. -/
def clean (pool : TxPool) (a : Address) (list : TxList) :
    List Transaction × List Transaction × List Transaction × TxList :=
  let (old, list) := list.forward (pool.stateNonce a)
  let (drops, invalids, list) := list.filter (pool.currentState.getBalance a) pool.currentMaxGas
  let (invalidPrivacy, list) := list.invalidPrivacyTx pool.currentState pool.signer pool.currentMaxGas
  (old ++ drops, invalids, invalidPrivacy, list)

theorem clean_perm (pool : TxPool) (a : Address) (list : TxList) :
    ((pool.clean a list).1 ++ (pool.clean a list).2.2.1 ++
      ((pool.clean a list).2.1 ++ (pool.clean a list).2.2.2.flatten)).Perm list.flatten := by
  obtain ⟨hdrops, hinvalids, hkept, -⟩ := (list.forward (pool.stateNonce a)).2.filter_spec
    (pool.currentState.getBalance a) pool.currentMaxGas
  have hfilter := (list.forward (pool.stateNonce a)).2.removeAll_perm fun tx =>
    ¬ Payable (pool.currentState.getBalance a) pool.currentMaxGas tx
  have hforward := list.forward_append (pool.stateNonce a)
  rw [← hdrops, ← hinvalids, ← hkept] at hfilter
  simp only [clean, TxList.invalidPrivacyTx]
  generalize (list.forward (pool.stateNonce a)).2.filter (pool.currentState.getBalance a) pool.currentMaxGas
    = filtered at hfilter ⊢
  have hprivacy := filtered.2.2.removeAll_perm (TxList.invalidPrivacy pool.currentState pool.signer pool.currentMaxGas)
  rw [← hforward, append_assoc, append_assoc]
  refine Perm.append_left _ (.trans (.append_left _ ?_) hfilter)
  refine (perm_append_comm_assoc ..).trans (.append_left _ ?_)
  rwa [append_assoc]

theorem strict_clean (pool : TxPool) (a : Address) (list : TxList) : (pool.clean a list).2.2.2.strict = list.strict :=
  (TxList.strict_removeAll _ _).trans (TxList.filter_spec _ _ _).2.2.2

variable {list : TxList}

theorem clean_of_loose (hlist : pool.queue.lookup a = some list) (hloose : list.strict = false) :
    (pool.clean a list).2.1 = [] ∧ (pool.clean a list).2.2.2.flatten = pool.executable a := by
  have hforward : (list.forward (pool.stateNonce a)).2.strict = false := hloose
  obtain ⟨-, hinvalids, hkept, hfilter⟩ := (list.forward (pool.stateNonce a)).2.filter_spec
    (pool.currentState.getBalance a) pool.currentMaxGas
  refine ⟨hinvalids.trans (TxList.invalids_removeAll hforward _), ?_⟩
  simp only [clean, TxList.invalidPrivacyTx]
  rw [TxList.flatten_removeAll_of_loose (hfilter.trans hforward), hkept, TxList.flatten_removeAll_of_loose hforward,
    TxList.flatten_forward, filter_filter, filter_filter, executable, txsOf_of_lookup hlist]
  refine filter_congr fun tx _ => ?_
  rw [Bool.eq_iff_iff]
  simp only [Bool.and_eq_true, Bool.not_eq_true', decide_eq_true_eq, decide_eq_false_iff_not, not_not]
  rw [Passes]
  tauto

omit [Crypto] in
/-- The way of the transactions of a queue: some are removed, some are promoted, some are removed for want of room and
the others stay. -/
theorem settle_spec (now : ℕ) (hs : Strict pool) (htidy : Tidy pool a) {gone ready capped : List Transaction}
    (hlist : list.strict = false)
    (hperm : (gone ++ (ready ++ (capped ++ list.flatten))).Perm (txsOf pool.queue a)) {pool' : TxPool}
    (hpool' : pool' = (ready.foldl (fun pool tx => pool.promoteTx now a tx) (pool.forget gone)).forget capped) :
    ∃ p, p.Perm (txsOf pool.pending a ++ ready) ∧ Sheds pool a ⟨p, list.flatten,
        (ready.getLast?.map fun tx => (tx.accountNonce + 1).toNat).getD (pool.pendingNonce a)⟩ (gone ++ capped)
        { pool' with queue := if list.empty then pool'.queue.erase a else pool'.queue.insert a list } := by
  have hheld : ((txsOf pool.pending a ++ ready) ++ list.flatten ++ (gone ++ capped)).Perm (pool.view a).held := by
    refine .trans ?_ (hperm.append_left (txsOf pool.pending a))
    rw [append_assoc, append_assoc]
    refine .append_left _ ?_
    grind
  have hnodup := (hheld.map nonce).nodup_iff.mpr htidy.nodup
  have hready : ((txsOf pool.pending a ++ ready).map nonce).Nodup :=
    hnodup.sublist (((sublist_append_left ..).trans (sublist_append_left ..)).map _)
  have hforget := changes_forget hs a gone
  obtain ⟨p, hp, hchange, hindex⟩ := promoteAll_spec now hforget.strict hready
  have hover := changes_forget hchange.strict a capped
  rw [← hpool'] at hover
  have hqueue := changes_queue (a := a) hover.strict (hover.strict.queue.replace hlist) (fun _ => txsOf_replace) pool'.all
  rw [hover.view_self, hchange.view_self] at hqueue
  subst hpool'
  refine ⟨p, hp, (hforget.trans hchange).trans (hover.trans hqueue),
    .trans (.append_right _ (.append_right _ hp)) hheld, fun C hC h => ?_⟩
  have hC : ∀ tx ∈ txsOf pool.pending a ++ ready ++ list.flatten ++ (gone ++ capped), C tx := fun tx htx =>
    hC tx (hheld.mem_iff.mp htx)
  obtain ⟨-, hlost, hapart⟩ := nodup_append.mp hnodup.of_map
  have hgone := h.eraseAll gone fun tx htx => hC tx (by simp [htx])
  have hpromoted := hindex _ (fun tx htx => ⟨hC tx (by simp [htx]), fun hmem =>
    hapart tx (by simp [htx]) tx (by simp [hmem]) rfl⟩) hgone
  have hdone := hpromoted.eraseAll capped fun tx htx => ⟨hC tx (by simp [htx]), fun hmem =>
    (nodup_append.mp hlost).2.2 tx hmem tx htx rfl⟩
  exact hdone.congr fun tx => by simp [and_assoc]

theorem promoteAccount_eq (hlist : pool.queue.lookup a = some list) (now : ℕ) :
    let ready := (pool.clean a list).2.2.2.ready (pool.pendingNonce a)
    let promoted := ready.1.foldl (fun pool tx => pool.promoteTx now a tx)
      (pool.forget ((pool.clean a list).1 ++ (pool.clean a list).2.2.1))
    let capped := if a ∈ promoted.locals then ([], ready.2) else ready.2.cap promoted.config.accountQueue
    let pool' := promoted.forget capped.1
    pool.promoteAccount now a =
      { pool' with queue := if capped.2.empty then pool'.queue.erase a else pool'.queue.insert a capped.2 } := by
  rw [promoteAccount, hlist]
  simp only [TxList.filter_drops, forget_forget]
  rfl

/-- What `promoteExecutables` does for an account: what may be executed and follows on what is pending is promoted, and
some of the rest is removed. -/
theorem promoteAccount_spec (now : ℕ) (hs : Strict pool) (htidy : Tidy pool a) :
    ∃ (l : TxList) (p q removed : List Transaction), l.flatten = pool.executable a ∧
      p.Perm (txsOf pool.pending a ++ (l.ready (pool.pendingNonce a)).1) ∧
      Sheds pool a ⟨p, q, ((l.ready (pool.pendingNonce a)).1.getLast?.map fun tx => (tx.accountNonce + 1).toNat).getD
        (pool.pendingNonce a)⟩ removed (pool.promoteAccount now a) := by
  cases hlist : pool.queue.lookup a with
  | none =>
    have hexec : pool.executable a = [] := by rw [executable, txsOf_of_none hlist]; rfl
    rw [promoteAccount, hlist]
    refine ⟨.newTxList false, txsOf pool.pending a, txsOf pool.queue a, [], hexec.symm, ?_,
      sheds_nil (.refl hs a) rfl rfl⟩
    rw [show ((TxList.newTxList false).ready (pool.pendingNonce a)).1 = [] from rfl, append_nil]
  | some list =>
    have hloose := hs.queue a list hlist
    obtain ⟨hinvalids, hflat⟩ := clean_of_loose hlist hloose
    have hclean := clean_perm pool a list
    have hstrict := (strict_clean pool a list).trans hloose
    rw [hinvalids, nil_append, ← txsOf_of_lookup hlist] at hclean
    rw [promoteAccount_eq hlist now]
    set gone := (pool.clean a list).1 ++ (pool.clean a list).2.2.1
    set checked := (pool.clean a list).2.2.2
    set promoted := (checked.ready (pool.pendingNonce a)).1.foldl (fun pool tx => pool.promoteTx now a tx)
      (pool.forget gone) with hpromoted
    -- the queue of a local account is not capped
    obtain ⟨capped, rest, hcap, hperm, hrest⟩ : ∃ capped rest,
        (if a ∈ promoted.locals then ([], (checked.ready (pool.pendingNonce a)).2)
          else (checked.ready (pool.pendingNonce a)).2.cap promoted.config.accountQueue) = (capped, rest) ∧
        (capped ++ rest.flatten).Perm (checked.ready (pool.pendingNonce a)).2.flatten ∧ rest.strict = false := by
      split_ifs
      · exact ⟨_, _, rfl, .refl _, hstrict⟩
      · exact ⟨_, _, rfl, TxList.cap_perm _ _, hstrict⟩
    rw [hcap]
    have hall : (gone ++ ((checked.ready (pool.pendingNonce a)).1 ++ (capped ++ rest.flatten))).Perm
        (txsOf pool.queue a) := by
      refine .trans (.append_left _ (.trans (.append_left _ hperm) ?_)) hclean
      rw [checked.ready_append]
    obtain ⟨p, hp, hsheds⟩ := settle_spec now hs htidy hrest hall (congrArg (forget · capped) hpromoted)
    exact ⟨checked, p, rest.flatten, gone ++ capped, hflat, hp, hsheds⟩

/-- What is executable of the pending list of an account. -/
def live (pool : TxPool) (a : Address) : List Transaction :=
  ((txsOf pool.pending a).filter (pool.stateNonce a ≤ ·.nonce)).takeWhile (pool.Passes a ·)

theorem clean_of_strict (hlist : pool.pending.lookup a = some list) (hstrict : list.strict = true) :
    (pool.clean a list).2.2.2.flatten = pool.live a := by
  have hforward : (list.forward (pool.stateNonce a)).2.strict = true := hstrict
  obtain ⟨-, -, hkept, hfilter⟩ := (list.forward (pool.stateNonce a)).2.filter_spec
    (pool.currentState.getBalance a) pool.currentMaxGas
  simp only [clean, TxList.invalidPrivacyTx]
  rw [TxList.flatten_removeAll (hfilter.trans hforward), hkept, TxList.flatten_removeAll hforward,
    TxList.flatten_forward, takeWhile_takeWhile, live, txsOf_of_lookup hlist]
  congr 1
  funext tx
  rw [Bool.eq_iff_iff]
  simp only [decide_eq_true_eq, Bool.not_eq_true', decide_eq_false_iff_not, not_not]
  rw [Passes]
  tauto

omit [Crypto] in
/-- The way of the transactions of a pending list: some are removed, some go back to the queue and the others stay. -/
theorem postpone_spec (hs : Strict pool) (htidy : Tidy pool a) {gone invalids invalidPrivacy gapped : List Transaction}
    (hlist : list.strict = true)
    (hperm : (gone ++ invalidPrivacy ++ (invalids ++ (gapped ++ list.flatten))).Perm (txsOf pool.pending a))
    {pool' : TxPool}
    (hpool' : pool' = (((pool.forget gone).enqueueAll invalids).forget invalidPrivacy).enqueueAll gapped)
    {beats : GoMap Address ℕ} : ∃ q, Sheds pool a ⟨list.flatten, q, pool.pendingNonce a⟩ (gone ++ invalidPrivacy)
      { pool' with pending := if list.empty then pool'.pending.erase a else pool'.pending.insert a list, beats } := by
  have hheld : (list.flatten ++ ((txsOf pool.queue a ++ invalids) ++ gapped) ++ (gone ++ invalidPrivacy)).Perm
      (pool.view a).held := by
    refine .trans ?_ (hperm.append_right (txsOf pool.queue a))
    grind
  have hnodup := (hheld.map nonce).nodup_iff.mpr htidy.nodup
  have hsender : ∀ tx ∈ list.flatten ++ ((txsOf pool.queue a ++ invalids) ++ gapped) ++ (gone ++ invalidPrivacy),
      pool.sender tx = a := fun tx htx => htidy.sender tx (hheld.mem_iff.mp htx)
  have hqueue : (((txsOf pool.queue a ++ invalids) ++ gapped).map nonce).Nodup :=
    hnodup.sublist (((sublist_append_right ..).trans (sublist_append_left ..)).map _)
  -- the invalidated ones
  have hforget := changes_forget hs a gone
  have hinvalids : ∀ tx ∈ invalids, pool.sender tx = a := fun tx htx => hsender tx (by simp [htx])
  obtain ⟨q, hq, hchange, hindex⟩ := enqueueAll_spec hforget.strict hinvalids
    (hqueue.sublist ((sublist_append_left ..).map _))
  have hmid := changes_forget hchange.strict a invalidPrivacy
  have hmidQueue : txsOf (((pool.forget gone).enqueueAll invalids).forget invalidPrivacy).queue a = q :=
    (congrArg View.queue hmid.view_self).trans (congrArg View.queue hchange.view_self)
  have hframe := hforget.frame.trans (hchange.frame.trans hmid.frame)
  -- those behind a gap
  have hgapped : ∀ tx ∈ gapped, (((pool.forget gone).enqueueAll invalids).forget invalidPrivacy).sender tx = a :=
    fun tx htx => (hframe.sender tx).trans (hsender tx (by simp [htx]))
  obtain ⟨q', hq', hchange', hindex'⟩ := enqueueAll_spec hmid.strict hgapped (by
    rw [hmidQueue]
    exact ((hq.append_right gapped).map _).nodup_iff.mpr hqueue)
  rw [hmidQueue] at hq'
  have hq' : q'.Perm ((txsOf pool.queue a ++ invalids) ++ gapped) := hq'.trans (hq.append_right gapped)
  rw [← hpool'] at hchange' hindex'
  have hpending := changes_pending (a := a) hchange'.strict (hchange'.strict.pending.replace hlist)
    (fun _ => txsOf_replace) pool'.all beats
  rw [hchange'.view_self, hmid.view_self, hchange.view_self] at hpending
  refine ⟨q', (hforget.trans hchange).trans (hmid.trans (hchange'.trans hpending)),
    .trans (.append_right _ (.append_left _ hq')) hheld, fun C hC h => ?_⟩
  have hC : ∀ tx ∈ list.flatten ++ ((txsOf pool.queue a ++ invalids) ++ gapped) ++ (gone ++ invalidPrivacy), C tx :=
    fun tx htx => hC tx (hheld.mem_iff.mp htx)
  obtain ⟨-, hlost, hapart⟩ := nodup_append.mp hnodup.of_map
  have hnot {tx : Transaction} (htx : tx ∈ invalids ++ gapped) : tx ∉ gone ++ invalidPrivacy := fun hmem =>
    hapart tx (by grind) tx hmem rfl
  have hgone := h.eraseAll gone fun tx htx => hC tx (by simp [htx])
  have hback := hindex _ (fun tx htx => ⟨hC tx (by simp [htx]), fun hmem =>
    hnot (mem_append_left _ htx) (mem_append_left _ hmem)⟩) hgone
  have hprivacy := hback.eraseAll invalidPrivacy fun tx htx => ⟨hC tx (by simp [htx]), fun hmem =>
    (nodup_append.mp hlost).2.2 tx hmem tx htx rfl⟩
  have hdone := hindex' _ (fun tx htx => ⟨⟨hC tx (by simp [htx]), fun hmem =>
    hnot (mem_append_right _ htx) (mem_append_left _ hmem)⟩, fun hmem =>
    hnot (mem_append_right _ htx) (mem_append_right _ hmem)⟩) hprivacy
  exact hdone.congr fun tx => by simp [and_assoc]

theorem demoteAccount_eq (hlist : pool.pending.lookup a = some list) : let checked := (pool.clean a list).2.2.2
    let gapped := if checked.len > 0 ∧ (checked.txs.get (pool.stateNonce a)).isNone then checked.cap 0 else ([], checked)
    let pool' := (((pool.forget (pool.clean a list).1).enqueueAll (pool.clean a list).2.1).forget
      (pool.clean a list).2.2.1).enqueueAll gapped.1
    pool.demoteAccount a = { pool' with
      pending := if gapped.2.empty then pool'.pending.erase a else pool'.pending.insert a gapped.2
      beats := if gapped.2.empty then pool'.beats.erase a else pool'.beats } := by
  intro checked gapped pool'
  have hend : pool.demoteAccount a = if gapped.2.empty then
      { pool' with pending := pool'.pending.erase a, beats := pool'.beats.erase a }
      else { pool' with pending := pool'.pending.insert a gapped.2 } := by
    rw [demoteAccount, hlist]
    simp only [TxList.filter_drops, forget_forget]
    rfl
  rw [hend]
  split_ifs <;> rfl

/-- What `demoteUnexecutables` does for an account: what is executable stays, unless there is a gap in front, and of
the rest some is removed and some goes back to the queue. -/
theorem demoteAccount_spec (hs : Strict pool) (htidy : Tidy pool a) :
    ∃ q removed, Sheds pool a ⟨if ∃ tx ∈ pool.live a, tx.nonce = pool.stateNonce a then pool.live a else [], q,
      pool.pendingNonce a⟩ removed (pool.demoteAccount a) := by
  cases hlist : pool.pending.lookup a with
  | none =>
    have hlive : pool.live a = [] := by rw [live, txsOf_of_none hlist]; rfl
    have hview : pool.view a = ⟨[], txsOf pool.queue a, pool.pendingNonce a⟩ := by rw [view, txsOf_of_none hlist]
    rw [hlive, ite_self, demoteAccount, hlist]
    refine ⟨txsOf pool.queue a, [], ?_⟩
    rw [← hview]
    exact sheds_nil (.refl hs a) rfl rfl
  | some list =>
    have hstrict := hs.pending a list hlist
    have hflat := clean_of_strict hlist hstrict
    have hclean := clean_perm pool a list
    have hcheckedStrict := (strict_clean pool a list).trans hstrict
    rw [← txsOf_of_lookup hlist] at hclean
    rw [demoteAccount_eq hlist]
    set checked := (pool.clean a list).2.2.2
    -- all is postponed if the nonce of the state is not there
    obtain ⟨gapped, rest, hcap, hperm, hrest, hrestFlat⟩ : ∃ gapped rest,
        (if checked.len > 0 ∧ (checked.txs.get (pool.stateNonce a)).isNone then checked.cap 0
          else ([], checked)) = (gapped, rest) ∧
        (gapped ++ rest.flatten).Perm checked.flatten ∧ rest.strict = true ∧
        rest.flatten = if ∃ tx ∈ pool.live a, tx.nonce = pool.stateNonce a then pool.live a else [] := by
      rw [← hflat]
      by_cases hget : ∃ tx ∈ checked.flatten, tx.nonce = pool.stateNonce a
      · have hsome : ¬ (checked.len > 0 ∧ (checked.txs.get (pool.stateNonce a)).isNone) := by
          rintro ⟨-, hnone⟩
          obtain ⟨tx, htx, heq⟩ := hget
          exact TxList.get_eq_none.mp (Option.isNone_iff_eq_none.mp hnone) tx htx heq
        rw [if_neg hsome, if_pos hget]
        exact ⟨_, _, rfl, .refl _, hcheckedStrict, rfl⟩
      · rw [if_neg hget]
        split_ifs with hgap
        · exact ⟨_, _, rfl, TxList.cap_perm _ _, hcheckedStrict, rfl⟩
        · have hnone : (checked.txs.get (pool.stateNonce a)).isNone = true := by
            rw [Option.isNone_iff_eq_none, TxList.get_eq_none]
            exact fun tx htx heq => hget ⟨tx, htx, heq⟩
          have hlen : checked.flatten.length = 0 := by
            by_contra hlen
            exact hgap ⟨Nat.pos_of_ne_zero hlen, hnone⟩
          exact ⟨_, _, rfl, .refl _, hcheckedStrict, length_eq_zero_iff.mp hlen⟩
    rw [hcap, ← hrestFlat]
    have hall := Perm.trans (.append_left _ (.append_left _ hperm)) hclean
    obtain ⟨q, hsheds⟩ := postpone_spec hs htidy hrest hall rfl
    exact ⟨q, _, hsheds⟩

/-! ### Adding -/

omit [Crypto] in
theorem enqueueTx_cases (hs : Strict pool) (tx : Transaction) :
    (∃ err, pool.enqueueTx tx = (.error err, pool)) ∨ ∃ replace pool' q old, pool.enqueueTx tx = (.ok replace, pool') ∧
      Changes pool (pool.sender tx) { pool.view (pool.sender tx) with queue := q } pool' ∧
      q.Pairwise (fun x y => x.nonce < y.nonce) ∧
      (Option.toList old ++ q).Perm (tx :: txsOf pool.queue (pool.sender tx)) ∧
      (∀ t ∈ Option.toList old, t ∈ txsOf pool.queue (pool.sender tx)) ∧
      pool'.all = ((Option.toList old).foldl (fun all tx => all.erase tx.hash) pool.all).insert tx.hash tx := by
  set list := (pool.queue.lookup (pool.sender tx)).getD (.newTxList false) with hlist
  have hflat : list.flatten = txsOf pool.queue (pool.sender tx) := flatten_getD ..
  rw [enqueueTx, ← hlist]
  rcases list.add_cases tx pool.config.priceBump with hadd | hadd
  · rw [hadd]
    exact .inl ⟨_, rfl⟩
  · rw [hadd]
    refine .inr ⟨_, _, (list.put tx).flatten, list.txs.get tx.nonce, rfl, ?_, (list.put tx).flatten_sorted, ?_, ?_, rfl⟩
    · exact changes_queue hs (hs.queue.insert (l := list.put tx) (hs.queue.getD _)) (fun _ => txsOf_insert) _
    · rw [← hflat]
      exact list.put_perm tx
    · rw [← hflat]
      exact fun t ht => (TxList.mem_of_get (Option.mem_toList.mp ht)).1

omit [Crypto] in
/-- The end of `add`: the transaction goes into the pending list in the place of another, or into the queue. -/
theorem insert_spec (loc : Bool) (hs : Strict pool) (htidy : Tidy pool (pool.sender tx)) :
    (pool.insert tx loc).2 = pool ∨ ∃ p q removed,
      Changes pool (pool.sender tx) ⟨p, q, pool.pendingNonce (pool.sender tx)⟩ (pool.insert tx loc).2 ∧
      p.map nonce = (txsOf pool.pending (pool.sender tx)).map nonce ∧
      ((p ++ q).map nonce).Nodup ∧
      (p ++ q ++ removed).Perm (tx :: (pool.view (pool.sender tx)).held) ∧
      ∀ C, (∀ t ∈ (pool.view (pool.sender tx)).held, C t) → pool.all.lookup tx.hash = none → Indexed pool.all C →
        Indexed (pool.insert tx loc).2.all fun t => (t = tx ∨ C t) ∧ t ∉ removed := by
  cases hfind : (pool.pending.lookup (pool.sender tx)).filter (·.overlaps tx) with
  | some list =>
    obtain ⟨hlist, hoverlaps⟩ := Option.filter_eq_some_iff.mp hfind
    obtain ⟨old, hget⟩ := Option.isSome_iff_exists.mp hoverlaps
    have htxs := txsOf_of_lookup hlist
    rcases list.add_cases tx pool.config.priceBump with hadd | hadd
    · left
      simp only [insert, hfind, hadd]
    · have heq : (pool.insert tx loc).2 = { pool with
          pending := pool.pending.insert (pool.sender tx) (list.put tx)
          all := ((some old).toList.foldl (fun all tx => all.erase tx.hash) pool.all).insert tx.hash tx } := by
        simp only [insert, hfind, hadd, hget]
        rfl
      have hnonces := TxList.nonces_put_of_some hget
      have hperm := list.put_perm tx
      rw [hget] at hperm
      rw [heq]
      refine .inr ⟨(list.put tx).flatten, txsOf pool.queue (pool.sender tx), [old], ?_, ?_, ?_, ?_, ?_⟩
      · exact changes_pending hs (hs.pending.insert (l := list.put tx) (hs.pending _ list hlist))
          (fun _ => txsOf_insert) _ pool.beats
      · rw [hnonces, htxs]
      · rw [map_append, hnonces, ← htxs, ← map_append]
        exact htidy.nodup
      · have hheld : (pool.view (pool.sender tx)).held = list.flatten ++ txsOf pool.queue (pool.sender tx) := by
          rw [View.held, view, htxs]
        rw [hheld]
        exact perm_append_comm.trans (hperm.append_right _)
      · refine fun C hC hx h => h.exchange hx (some old) fun t ht => ?_
        obtain rfl : t = old := by simpa using ht
        have hmem := (TxList.mem_of_get hget).1
        rw [← htxs] at hmem
        exact hC t (mem_append_left _ hmem)
  | none =>
    have hnot : ∀ t ∈ txsOf pool.pending (pool.sender tx), t.nonce ≠ tx.nonce := by
      cases hlist : pool.pending.lookup (pool.sender tx) with
      | none => simp [txsOf_of_none hlist]
      | some list =>
        rw [txsOf_of_lookup hlist]
        have hoverlaps := Option.filter_eq_none_iff.mp hfind list hlist
        exact TxList.get_eq_none.mp (by simpa [TxList.overlaps] using hoverlaps)
    rcases enqueueTx_cases hs tx with ⟨err, heq⟩ | ⟨replace, pool', q, old, heq, hchange, hsorted, hperm, hold, hall⟩
    · left
      simp only [insert, hfind, heq]
    · have heq : (pool.insert tx loc).2 =
          { pool' with locals := if loc then pool.sender tx :: pool'.locals else pool'.locals } := by
        simp only [insert, hfind, heq]
      have hmem : ∀ t ∈ q, t = tx ∨ t ∈ txsOf pool.queue (pool.sender tx) := fun t ht =>
        mem_cons.mp (hperm.mem_iff.mp (mem_append_right _ ht))
      rw [heq]
      refine .inr ⟨txsOf pool.pending (pool.sender tx), q, old.toList, ?_, rfl, ?_, ?_, ?_⟩
      · have hlocals := changes_locals hchange.strict (pool.sender tx)
          (if loc then pool.sender tx :: pool'.locals else pool'.locals)
        rw [hchange.view_self] at hlocals
        exact hchange.trans hlocals
      · have hnodup := htidy.nodup
        rw [View.held, map_append, nodup_append] at hnodup
        rw [map_append, nodup_append]
        refine ⟨hnodup.1, ?_, ?_⟩
        · exact (pairwise_map.mpr (hsorted.imp fun hlt => hlt.ne))
        · intro n hn m hm
          obtain ⟨x, hx, rfl⟩ := mem_map.mp hn
          obtain ⟨y, hy, rfl⟩ := mem_map.mp hm
          rcases hmem y hy with rfl | hy
          · exact hnot x hx
          · exact hnodup.2.2 _ hn _ (mem_map_of_mem hy)
      · rw [append_assoc]
        refine .trans (.append_left _ (perm_append_comm.trans hperm)) ?_
        exact perm_middle
      · intro C hC hx h
        rw [hall]
        exact h.exchange hx old fun t ht => hC t (mem_append_right _ (hold t ht))

def dropped (env : Env) (pool : TxPool) (tx : Transaction) (loc : Bool) : List Transaction :=
  if (pool.all.lookup tx.hash).isSome ∨ pool.validateTx tx loc ≠ .ok () ∨
      GoMap.size pool.all < pool.config.globalSlots + pool.config.globalQueue ∨ env.priced.underpriced pool tx then []
  else env.priced.discard pool tx

theorem add_cases (env : Env) (pool : TxPool) (tx : Transaction) (loc : Bool) :
    (pool.add env tx loc).2 = pool ∨ pool.all.lookup tx.hash = none ∧ pool.validateTx tx loc = .ok () ∧
      pool.add env tx loc = (pool.removeAll (dropped env pool tx loc)).insert tx loc := by
  rw [add, dropped]
  by_cases hknown : (pool.all.lookup tx.hash).isSome = true
  · rw [if_pos hknown]
    exact .inl rfl
  rw [if_neg hknown]
  cases hvalid : pool.validateTx tx loc with
  | error => exact .inl rfl
  | ok =>
    have hnone : pool.all.lookup tx.hash = none := by simpa using hknown
    by_cases hroom : GoMap.size pool.all < pool.config.globalSlots + pool.config.globalQueue
    · right
      simp only [hroom, if_true, true_or, or_true, hnone, true_and]
      rfl
    by_cases hunder : env.priced.underpriced pool tx = true
    · left
      simp only [hroom, hunder, if_true, if_false]
    · right
      simp only [hroom, hunder, hnone, Option.isSome_none, ne_eq, not_true_eq_false, Bool.false_eq_true, or_self,
        if_false, true_and]

/-! ### Loops -/

section Loops

variable {I : TxPool → Prop}

omit [Keccak] [Crypto] in
theorem foldl_induct {α : Type} {body : TxPool → α → TxPool} {l : List α}
    (hbody : ∀ pool, ∀ x ∈ l, I pool → I (body pool x)) (h : I pool) : I (l.foldl body pool) :=
  foldlRecOn l body h fun pool hpool x hx => hbody pool x hx hpool

omit [Keccak] [Crypto] in
/-- What the body of a loop over accounts establishes for its account, and keeps for the others, holds for all accounts in
the end. -/
theorem foldl_establish {E : TxPool → Address → Prop} {body : TxPool → Address → TxPool}
    (hbody : ∀ pool a, I pool → I (body pool a) ∧ E (body pool a) a ∧ ∀ b, E pool b → E (body pool a) b)
    (l : List Address) (h : I pool) : I (l.foldl body pool) ∧ ∀ a, a ∈ l ∨ E pool a → E (l.foldl body pool) a := by
  induction l generalizing pool with
  | nil => exact ⟨h, fun a ha => ha.resolve_left not_mem_nil⟩
  | cons x _ ih =>
    obtain ⟨hI, hx, hkeep⟩ := hbody pool x h
    obtain ⟨hI', hall⟩ := ih hI
    refine ⟨hI', fun a ha => hall a ?_⟩
    rcases ha with ha | ha
    · rcases mem_cons.mp ha with rfl | ha
      · exact .inr hx
      · exact .inl ha
    · exact .inr (hkeep a ha)

section Shrink

variable (hshrink : ∀ pool a, I pool → I (pool.shrink a))

include hshrink

omit [Crypto]

theorem equalize_induct (offenders : List Address) (last : Address) (threshold fuel n : ℕ) (h : I pool) :
    I (equalize offenders last threshold fuel pool n).1 := by
  induction fuel generalizing pool n with
  | zero => exact h
  | succ _ ih =>
    rw [equalize]
    split_ifs
    · exact ih _ (foldl_induct (fun pool a _ => hshrink pool a) h)
    · exact h

theorem penalize_induct (spammers offenders : List Address) (n : ℕ) (h : I pool) :
    I (penalize pool n offenders spammers).1 := by
  induction spammers generalizing pool offenders n with
  | nil => exact h
  | cons offender _ ih =>
    rw [penalize]
    split_ifs
    · cases offenders.getLast? with
      | none => exact ih _ _ h
      | some last =>
        have hequal := equalize_induct hshrink offenders last (lenOf pool.pending offender) (n + 1) n h
        exact ih _ _ hequal
    · exact h

theorem truncatePending_induct (env : Env) (h : I pool) : I (truncatePending env pool) := by
  rw [truncatePending]
  split_ifs
  · have hpenalize := penalize_induct hshrink (((env.spammers.1 pool.pending.keys).filter fun addr =>
        addr ∉ pool.locals ∧ lenOf pool.pending addr > pool.config.accountSlots).mergeSort
          fun a b => lenOf pool.pending b ≤ lenOf pool.pending a) [] (count pool.pending) h
    dsimp only
    split
    · exact hpenalize
    · exact equalize_induct hshrink _ _ _ _ _ hpenalize
  · exact h

end Shrink

section Remove

variable (hremove : ∀ pool a, ∀ txs ⊆ txsOf pool.queue a, I pool → I (pool.removeAll txs))

include hremove

omit [Crypto]

theorem dropQueued_induct (drop : ℕ) (addresses : List Address) (h : I pool) : I (pool.dropQueued drop addresses) := by
  induction addresses generalizing pool drop with
  | nil => exact h
  | cons a _ ih =>
    rw [dropQueued]
    dsimp only
    split_ifs
    · exact ih _ (hremove pool a _ (Subset.refl _) h)
    · exact hremove pool a _ (fun tx htx => mem_reverse.mp (mem_of_mem_take htx)) h
    · exact h

theorem truncateQueue_induct (env : Env) (h : I pool) : I (truncateQueue env pool) := by
  rw [truncateQueue]
  split_ifs
  · exact dropQueued_induct hremove _ _ h
  · exact h

theorem evict_induct (env : Env) (h : I pool) : I (pool.evict env) := by
  refine foldl_induct (fun pool a _ hpool => ?_) h
  rw [evictAccount]
  split_ifs
  · exact hremove pool a _ (Subset.refl _) hpool
  · exact hpool

end Remove

theorem promoteExecutables_induct (env : Env) (accounts : List Address)
    (hpromote : ∀ pool a, I pool → I (pool.promoteAccount env.now a)) (hshrink : ∀ pool a, I pool → I (pool.shrink a))
    (hremove : ∀ pool a, ∀ txs ⊆ txsOf pool.queue a, I pool → I (pool.removeAll txs)) (h : I pool) :
    I (pool.promoteExecutables env accounts) :=
  truncateQueue_induct hremove env (truncatePending_induct hshrink env
    (foldl_induct (fun pool a _ => hpromote pool a) h))

section Promote

variable {env : Env} (hpromote : ∀ pool accounts, I pool → I (pool.promoteExecutables env accounts))

include hpromote

theorem addTx_induct {loc : Bool} (h : I (pool.add env tx loc).2) : I (pool.addTx env tx loc) := by
  rw [addTx]
  generalize pool.add env tx loc = result at h ⊢
  obtain ⟨err | replace, next⟩ := result
  · exact h
  · show I (if replace then next else _)
    split_ifs
    · exact h
    · exact hpromote _ _ h

theorem addTxsLocked_induct {loc : Bool} (h : I (pool.addAll env loc txs).1) : I (pool.addTxsLocked env txs loc) := by
  rw [addTxsLocked]
  show I (if _ then (pool.addAll env loc txs).1 else _)
  split_ifs
  · exact h
  · exact hpromote _ _ h

end Promote

theorem reset_induct {env : Env} {chain : PoolChain} {oldHead : Option Header} {newHead : Header} (h : I pool)
    (hinstall : ∀ reinject trie, chain.reinject oldHead newHead = .ok reinject →
      chain.stateAt newHead.root = some trie → I (pool.install env (.new chain.db trie) newHead.gasLimit reinject)) :
    I ((pool.reset env chain oldHead newHead).toOption.getD pool) := by
  rw [reset]
  cases hreinject : chain.reinject oldHead newHead with
  | error => exact h
  | ok reinject =>
    cases htrie : chain.stateAt newHead.root with
    | none => exact h
    | some trie => exact hinstall reinject trie hreinject htrie

end Loops

end GoWanchain.Core.TxPool
