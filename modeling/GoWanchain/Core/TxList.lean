import GoWanchain.Core.Validity
import GoWanchain.Lib.Run
import Mathlib.Data.List.TakeWhile

/-!
# Lists of transactions of an account

`txSortedMap` and `txList` of `core/tx_list.go`. A sorted map is given by its transactions in the order of their
nonces; the heap of nonces and the cache of the sorted list follow from them. What an operation removes is
returned in that order too, where the source returns it in the order of a map.

The caps of a list are bounds on the cost and the gas of its normal transactions. They are kept so that `Filter` may be
left early, and for that to be right they have to be bounds: this is a part of the type.
-/

namespace GoWanchain.Types.Transaction

def nonce (tx : Transaction) : ℕ := tx.accountNonce.toNat

end GoWanchain.Types.Transaction

namespace GoWanchain.Core

open State Vm Types List

structure TxSortedMap where
  txs : List Transaction
  sorted : txs.Pairwise fun a b => a.nonce < b.nonce

namespace TxSortedMap

def empty : TxSortedMap := ⟨[], .nil⟩

def get (m : TxSortedMap) (nonce : ℕ) : Option Transaction := m.txs.find? (·.nonce = nonce)

def put (m : TxSortedMap) (tx : Transaction) : TxSortedMap where
  txs := m.txs.filter (·.nonce < tx.nonce) ++ tx :: m.txs.filter (tx.nonce < ·.nonce)
  sorted := by
    rw [pairwise_append, pairwise_cons]
    refine ⟨m.sorted.filter _, ⟨?_, m.sorted.filter _⟩, ?_⟩
    · intro a ha
      simpa using (mem_filter.mp ha).2
    · intro a ha b hb
      have ha : a.nonce < tx.nonce := by simpa using (mem_filter.mp ha).2
      rcases mem_cons.mp hb with rfl | hb
      · exact ha
      · have hb : tx.nonce < b.nonce := by simpa using (mem_filter.mp hb).2
        exact ha.trans hb

/-- `Filter`: what is removed, and what stays. -/
def filter (m : TxSortedMap) (p : Transaction → Bool) : List Transaction × TxSortedMap :=
  (m.txs.filter p, ⟨m.txs.filter (!p ·), m.sorted.filter _⟩)

/-- `Forward`: the smallest nonce is popped while it is below the threshold. -/
def forward (m : TxSortedMap) (threshold : ℕ) : List Transaction × TxSortedMap :=
  (m.txs.takeWhile (·.nonce < threshold),
    ⟨m.txs.dropWhile (·.nonce < threshold), m.sorted.sublist (dropWhile_sublist _)⟩)

def cap (m : TxSortedMap) (threshold : ℕ) : List Transaction × TxSortedMap :=
  ((m.txs.drop threshold).reverse, ⟨m.txs.take threshold, m.sorted.sublist (take_sublist ..)⟩)

/-- `Remove`, of a nonce that is there. -/
def remove (m : TxSortedMap) (nonce : ℕ) : TxSortedMap := ⟨m.txs.filter (·.nonce ≠ nonce), m.sorted.filter _⟩

/-- The transactions in front whose nonces count up from `next`. -/
def run : ℕ → List Transaction → List Transaction
  | _, [] => []
  | next, tx :: txs => if tx.nonce = next then tx :: run ((next + 1) % 2 ^ 64) txs else []

def ready (m : TxSortedMap) (start : ℕ) : List Transaction × TxSortedMap :=
  match m.txs.head? with
  | none => ([], m)
  | some first =>
    if start < first.nonce then ([], m)
    else
      let ready := run first.nonce m.txs
      (ready, ⟨m.txs.drop ready.length, m.sorted.sublist (drop_sublist ..)⟩)

end TxSortedMap

/-- A transaction is within the limits of `Filter`; those with privacy always are. -/
def Payable (costLimit gasLimit : ℤ) (tx : Transaction) : Prop :=
  isNormalTransaction tx.txtype = true → (tx.cost : ℤ) ≤ costLimit ∧ (tx.gasLimit : ℤ) ≤ gasLimit

instance (costLimit gasLimit : ℤ) (tx : Transaction) : Decidable (Payable costLimit gasLimit tx) :=
  inferInstanceAs (Decidable (_ → _))

theorem Payable.mono {c g c' g' : ℤ} {tx : Transaction} (h : Payable c g tx) (hc : c ≤ c') (hg : g ≤ g') :
    Payable c' g' tx :=
  fun hn => ⟨(h hn).1.trans hc, (h hn).2.trans hg⟩

structure TxList where
  strict : Bool
  txs : TxSortedMap
  costcap : ℤ
  gascap : ℤ
  capped : ∀ tx ∈ txs.txs, Payable costcap gascap tx

namespace TxList

/-- The transactions of a list; `Flatten`. -/
def flatten (l : TxList) : List Transaction := l.txs.txs

def newTxList (strict : Bool) : TxList := ⟨strict, .empty, 0, 0, by simp [TxSortedMap.empty]⟩

def overlaps (l : TxList) (tx : Transaction) : Bool := (l.txs.get tx.nonce).isSome

def len (l : TxList) : ℕ := l.flatten.length

def empty (l : TxList) : Bool := l.len = 0

/-- The part of a list that stays when transactions are removed from it; the caps are left as they are. -/
def keep (l : TxList) (m : TxSortedMap) (h : m.txs.Sublist l.txs.txs) : TxList :=
  ⟨l.strict, m, l.costcap, l.gascap, fun tx htx => l.capped tx (h.subset htx)⟩

def put (l : TxList) (tx : Transaction) : TxList where
  strict := l.strict
  txs := l.txs.put tx
  costcap := max l.costcap tx.cost
  gascap := max l.gascap tx.gasLimit
  capped := by
    intro t ht
    rw [TxSortedMap.put, mem_append, mem_cons] at ht
    have hold (ht : t ∈ l.txs.txs) : Payable (max l.costcap tx.cost) (max l.gascap tx.gasLimit) t :=
      (l.capped t ht).mono (le_max_left ..) (le_max_left ..)
    rcases ht with ht | rfl | ht
    · exact hold (mem_filter.mp ht).1
    · exact fun _ => ⟨le_max_right .., le_max_right ..⟩
    · exact hold (mem_filter.mp ht).1

/-- `Add`: nothing if an older transaction is better, else the one that is replaced, and the list. -/
def add (l : TxList) (tx : Transaction) (priceBump : ℕ) : Option (Option Transaction × TxList) :=
  match l.txs.get tx.nonce with
  | none => some (none, l.put tx)
  | some old => if tx.price ≤ old.price * (100 + priceBump) / 100 then none else some (some old, l.put tx)

def forward (l : TxList) (threshold : ℕ) : List Transaction × TxList :=
  ((l.txs.forward threshold).1, l.keep (l.txs.forward threshold).2 (dropWhile_sublist _))

def lowest (txs : List Transaction) : ℕ := txs.foldl (fun lowest tx => min lowest tx.nonce) (2 ^ 64 - 1)

/-- What `Filter` and `InvalidPrivacyTx` have in common: the transactions that meet `p` are removed, and from a
strict list all above the lowest of them. What is removed, what is invalidated by that, and the list. -/
def removeAll (l : TxList) (p : Transaction → Bool) : List Transaction × List Transaction × TxList :=
  let removed := (l.txs.filter p).1
  let kept := (l.txs.filter p).2
  let above := kept.filter fun tx => lowest removed < tx.nonce
  if l.strict && !removed.isEmpty then
    (removed, above.1, l.keep above.2 (filter_sublist.trans filter_sublist))
  else (removed, [], l.keep kept filter_sublist)

theorem mem_removeAll {l : TxList} {p : Transaction → Bool} {tx : Transaction}
    (h : tx ∈ (l.removeAll p).2.2.flatten) : tx ∈ l.flatten ∧ p tx = false := by
  have hkept (h : tx ∈ (l.txs.filter p).2.txs) : tx ∈ l.flatten ∧ p tx = false := by
    obtain ⟨hmem, hp⟩ := mem_filter.mp h
    exact ⟨hmem, by simpa using hp⟩
  by_cases hc : (l.strict && !(l.txs.filter p).1.isEmpty) = true
  · simp only [removeAll, hc, if_true] at h
    exact hkept (mem_filter.mp h).1
  · simp only [removeAll, hc] at h
    exact hkept h

def filter (l : TxList) (costLimit gasLimit : ℤ) : List Transaction × List Transaction × TxList :=
  if l.costcap ≤ costLimit ∧ l.gascap ≤ gasLimit then ([], [], l)
  else
    let r := l.removeAll fun tx => ¬ Payable costLimit gasLimit tx
    (r.1, r.2.1, ⟨r.2.2.strict, r.2.2.txs, costLimit, gasLimit, fun tx h => by
      simpa using (mem_removeAll h).2⟩)

def cap (l : TxList) (threshold : ℕ) : List Transaction × TxList :=
  ((l.txs.cap threshold).1, l.keep (l.txs.cap threshold).2 (take_sublist ..))

def remove (l : TxList) (tx : Transaction) : Bool × List Transaction × TxList :=
  let kept := l.txs.remove tx.nonce
  if (l.txs.get tx.nonce).isNone then (false, [], l)
  else if l.strict then
    let above := kept.filter fun t => tx.nonce < t.nonce
    (true, above.1, l.keep above.2 (filter_sublist.trans filter_sublist))
  else (true, [], l.keep kept filter_sublist)

def ready (l : TxList) (start : ℕ) : List Transaction × TxList :=
  ((l.txs.ready start).1, l.keep (l.txs.ready start).2 (by
    rw [TxSortedMap.ready]
    split
    · exact List.Sublist.refl _
    · split_ifs
      · exact List.Sublist.refl _
      · exact drop_sublist ..))

section

variable [Keccak] [Crypto]

/-- A transaction with privacy that is not valid, or no more. -/
def invalidPrivacy (db : StateDB) (signer : Signer) (gasLimit : ℤ) (tx : Transaction) : Bool :=
  if isNormalTransaction tx.txtype then false
  else
    match signer tx with
    | none => true
    | some sender =>
      let intrGas := intrinsicGas tx.payload tx.recipient.isNone true
      validPrivacyTx db (addressBytes sender) tx.payload tx.price intrGas tx.amount gasLimit != .ok ()

def invalidPrivacyTx (l : TxList) (db : StateDB) (signer : Signer) (gasLimit : ℤ) : List Transaction × TxList :=
  let r := l.removeAll (invalidPrivacy db signer gasLimit)
  (r.1 ++ r.2.1, r.2.2)

end

/-! ### Nonces of a list -/

variable {l : TxList} {tx : Transaction} {n : ℕ}

theorem flatten_sorted (l : TxList) : l.flatten.Pairwise fun a b => a.nonce < b.nonce := l.txs.sorted

theorem lowest_eq {txs : List Transaction} {f : Transaction} (hf : f ∈ txs) (hle : ∀ tx ∈ txs, f.nonce ≤ tx.nonce) :
    lowest txs = f.nonce := by
  have hfold (init : ℕ) (txs : List Transaction) (hle : ∀ tx ∈ txs, f.nonce ≤ tx.nonce) (hinit : f.nonce ≤ init)
      (hmem : init = f.nonce ∨ f ∈ txs) : txs.foldl (fun lowest tx => min lowest tx.nonce) init = f.nonce := by
    induction txs generalizing init with
    | nil => simpa using hmem
    | cons tx _ ih =>
      have htx : f.nonce ≤ tx.nonce := hle tx mem_cons_self
      refine ih _ (fun t ht => hle t (mem_cons_of_mem _ ht)) (le_min hinit htx) ?_
      rcases hmem with rfl | hmem
      · exact .inl (min_eq_left htx)
      · rcases mem_cons.mp hmem with rfl | hmem
        · exact .inl (min_eq_right hinit)
        · exact .inr hmem
  exact hfold _ txs hle (Nat.le_sub_one_of_lt f.accountNonce.toNat_lt) (.inr hf)

theorem removeAll_of_none {p : Transaction → Bool} (hp : ∀ tx ∈ l.flatten, p tx = false) :
    (l.removeAll p).1 = [] ∧ (l.removeAll p).2.1 = [] ∧ (l.removeAll p).2.2.flatten = l.flatten := by
  have hremoved : (l.txs.filter p).1 = [] := filter_eq_nil_iff.mpr fun tx htx => by simp [hp tx htx]
  have hkept : (l.txs.filter p).2.txs = l.flatten := filter_eq_self.mpr fun tx htx => by simp [hp tx htx]
  refine ⟨?_, ?_, ?_⟩ <;> simp [removeAll, hremoved]
  exact hkept

theorem flatten_removeAll (hl : l.strict = true) (p : Transaction → Bool) :
    (l.removeAll p).2.2.flatten = l.flatten.takeWhile (!p ·) := by
  by_cases hnone : ∀ tx ∈ l.flatten, p tx = false
  · rw [(removeAll_of_none hnone).2.2, takeWhile_eq_self_iff.mpr fun tx htx => by simp [hnone tx htx]]
  · obtain ⟨f, hfind⟩ : ∃ f, l.flatten.find? p = some f := by
      rw [← Option.isSome_iff_exists, List.find?_isSome]
      simpa using hnone
    obtain ⟨hf, pre, post, hsplit, hpre⟩ := List.find?_eq_some_iff_append.mp hfind
    have hsorted := l.flatten_sorted
    rw [hsplit, pairwise_append, pairwise_cons] at hsorted
    obtain ⟨-, ⟨hpost, -⟩, hbelow⟩ := hsorted
    have hmem : f ∈ (l.txs.filter p).1 := mem_filter.mpr ⟨mem_of_find?_eq_some hfind, hf⟩
    have hlowest : lowest (l.txs.filter p).1 = f.nonce := by
      refine lowest_eq hmem fun tx htx => ?_
      obtain ⟨htx, hp⟩ := mem_filter.mp htx
      rw [show l.txs.txs = pre ++ f :: post from hsplit, mem_append, mem_cons] at htx
      rcases htx with htx | rfl | htx
      · simpa [hp] using hpre tx htx
      · exact le_rfl
      · exact (hpost tx htx).le
    have hc : (l.strict && !(l.txs.filter p).1.isEmpty) = true := by
      simp [hl, ne_nil_of_mem hmem]
    have hkept : (l.removeAll p).2.2.flatten =
        (l.flatten.filter (!p ·)).filter fun tx => !decide (f.nonce < tx.nonce) := by
      simp only [removeAll, hc, if_true, hlowest]
      rfl
    -- below `f` nothing is removed, and above it everything
    have hfilter_pre : pre.filter (fun tx => !decide (f.nonce < tx.nonce) && !p tx) = pre := by
      refine filter_eq_self.mpr fun tx htx => ?_
      have := (hbelow tx htx f mem_cons_self).le
      have := hpre tx htx
      simp_all
    have hfilter_post : post.filter (fun tx => !decide (f.nonce < tx.nonce) && !p tx) = [] := by
      refine filter_eq_nil_iff.mpr fun tx htx => ?_
      simp [hpost tx htx]
    rw [hkept, filter_filter, hsplit, filter_append, filter_cons, hfilter_pre, hfilter_post,
      takeWhile_append_of_pos fun tx htx => hpre tx htx]
    simp [hf]

theorem flatten_removeAll_of_loose (hl : l.strict = false) (p : Transaction → Bool) :
    (l.removeAll p).2.2.flatten = l.flatten.filter (!p ·) := by
  simp only [removeAll, hl, Bool.false_and]
  rfl

theorem removed_removeAll (l : TxList) (p : Transaction → Bool) : (l.removeAll p).1 = l.flatten.filter p := by
  rw [removeAll]
  split_ifs <;> rfl

theorem removeAll_perm (l : TxList) (p : Transaction → Bool) :
    ((l.removeAll p).1 ++ ((l.removeAll p).2.1 ++ (l.removeAll p).2.2.flatten)).Perm l.flatten := by
  have hfilter : ((l.txs.filter p).1 ++ (l.txs.filter p).2.txs).Perm l.flatten := filter_append_perm p l.flatten
  refine List.Perm.trans ?_ hfilter
  by_cases hc : (l.strict && !(l.txs.filter p).1.isEmpty) = true
  · simp only [removeAll, hc, if_true]
    exact (filter_append_perm _ (l.txs.filter p).2.txs).append_left _
  · simp only [removeAll, hc]
    exact List.Perm.refl _

theorem strict_removeAll (l : TxList) (p : Transaction → Bool) : (l.removeAll p).2.2.strict = l.strict := by
  rw [removeAll]
  split_ifs <;> rfl

theorem invalids_removeAll (hl : l.strict = false) (p : Transaction → Bool) : (l.removeAll p).2.1 = [] := by
  simp [removeAll, hl]

/-! ### Adding -/

theorem get_eq_none : l.txs.get n = none ↔ ∀ tx ∈ l.flatten, tx.nonce ≠ n := by
  rw [TxSortedMap.get, List.find?_eq_none]
  simp [flatten]

theorem mem_of_get (h : l.txs.get n = some tx) : tx ∈ l.flatten ∧ tx.nonce = n := by
  have hmem := mem_of_find?_eq_some h
  have hp := List.find?_some h
  exact ⟨hmem, by simpa using hp⟩

theorem flatten_put (l : TxList) (tx : Transaction) : (l.put tx).flatten =
    l.flatten.filter (·.nonce < tx.nonce) ++ tx :: l.flatten.filter (tx.nonce < ·.nonce) := rfl

theorem split_at_nonce {txs : List Transaction} (hs : txs.Pairwise fun a b => a.nonce < b.nonce) (n : ℕ) :
    txs = txs.filter (·.nonce < n) ++ (txs.filter (·.nonce = n) ++ txs.filter (n < ·.nonce)) := by
  induction txs with
  | nil => rfl
  | cons t txs ih =>
    obtain ⟨ht, hs⟩ := pairwise_cons.mp hs
    rcases Nat.lt_or_ge t.nonce n with hlt | hge
    · have hne : t.nonce ≠ n := hlt.ne
      have hle : ¬ n < t.nonce := hlt.le.not_gt
      simpa [filter_cons, hlt, hne, hle] using ih hs
    · -- everything behind is above
      have habove : ∀ x ∈ txs, n < x.nonce := fun x hx => hge.trans_lt (ht x hx)
      have hbelow : txs.filter (·.nonce < n) = [] :=
        filter_eq_nil_iff.mpr fun x hx => by simpa using (habove x hx).le
      have hsame : txs.filter (·.nonce = n) = [] :=
        filter_eq_nil_iff.mpr fun x hx => by simpa using (habove x hx).ne'
      have hall : txs.filter (n < ·.nonce) = txs := filter_eq_self.mpr fun x hx => by simpa using habove x hx
      rcases hge.eq_or_lt with rfl | hgt
      · simp [hbelow, hsame, hall]
      · simp [hbelow, hsame, hall, hgt, hgt.ne', hgt.le.not_gt]

theorem filter_nonce_eq {txs : List Transaction} (hnodup : (txs.map Transaction.nonce).Nodup) (htx : tx ∈ txs) :
    txs.filter (·.nonce = tx.nonce) = [tx] := by
  obtain ⟨pre, post, rfl⟩ := append_of_mem htx
  rw [map_append, map_cons, nodup_append, nodup_cons] at hnodup
  have hpre : pre.filter (·.nonce = tx.nonce) = [] := filter_eq_nil_iff.mpr fun t ht => by
    simpa using hnodup.2.2 _ (mem_map_of_mem ht) _ mem_cons_self
  have hpost : post.filter (·.nonce = tx.nonce) = [] := filter_eq_nil_iff.mpr fun t ht heq =>
    hnodup.2.1.1 (mem_map.mpr ⟨t, ht, by simpa using heq⟩)
  rw [filter_append, hpre, filter_cons, hpost]
  simp

theorem nodup_of_sorted {txs : List Transaction} (hs : txs.Pairwise fun a b => a.nonce < b.nonce) :
    (txs.map Transaction.nonce).Nodup :=
  pairwise_map.mpr (hs.imp fun hlt => hlt.ne)

theorem split_at_mem {txs : List Transaction} (hs : txs.Pairwise fun a b => a.nonce < b.nonce) (htx : tx ∈ txs) :
    txs = txs.filter (·.nonce < tx.nonce) ++ tx :: txs.filter (tx.nonce < ·.nonce) := by
  have hsplit := split_at_nonce hs tx.nonce
  rwa [filter_nonce_eq (nodup_of_sorted hs) htx] at hsplit

theorem filter_nonce_of_get {old : Transaction} (h : l.txs.get n = some old) :
    l.flatten.filter (·.nonce = n) = [old] := by
  obtain ⟨hmem, rfl⟩ := mem_of_get h
  exact filter_nonce_eq (nodup_of_sorted l.flatten_sorted) hmem

theorem put_perm_of_none (h : l.txs.get tx.nonce = none) : (l.put tx).flatten.Perm (tx :: l.flatten) := by
  have hsame : l.flatten.filter (·.nonce = tx.nonce) = [] :=
    filter_eq_nil_iff.mpr fun t ht => by simpa using get_eq_none.mp h t ht
  have hsplit := split_at_nonce l.flatten_sorted tx.nonce
  rw [hsame, nil_append] at hsplit
  rw [flatten_put]
  exact perm_middle.trans (.cons tx (.of_eq hsplit.symm))

theorem put_perm (l : TxList) (tx : Transaction) :
    ((l.txs.get tx.nonce).toList ++ (l.put tx).flatten).Perm (tx :: l.flatten) := by
  cases h : l.txs.get tx.nonce with
  | none => exact put_perm_of_none h
  | some old =>
    have hsplit := split_at_nonce l.flatten_sorted tx.nonce
    rw [filter_nonce_of_get h] at hsplit
    rw [flatten_put]
    generalize l.flatten.filter (·.nonce < tx.nonce) = below at hsplit ⊢
    generalize l.flatten.filter (tx.nonce < ·.nonce) = above at hsplit ⊢
    rw [hsplit]
    have hswap : (old :: tx :: (below ++ above)).Perm (tx :: old :: (below ++ above)) := .swap tx old _
    exact (perm_middle.cons old).trans (hswap.trans (perm_middle.symm.cons tx))

theorem add_cases (l : TxList) (tx : Transaction) (priceBump : ℕ) :
    l.add tx priceBump = none ∨ l.add tx priceBump = some (l.txs.get tx.nonce, l.put tx) := by
  rw [add]
  cases l.txs.get tx.nonce with
  | none => exact .inr rfl
  | some =>
    show (if _ then _ else _) = _ ∨ (if _ then _ else _) = _
    split_ifs
    · exact .inl rfl
    · exact .inr rfl

theorem nonces_put_of_some {old : Transaction} (h : l.txs.get tx.nonce = some old) :
    (l.put tx).flatten.map (·.nonce) = l.flatten.map (·.nonce) := by
  have hsplit := split_at_nonce l.flatten_sorted tx.nonce
  rw [filter_nonce_of_get h] at hsplit
  have hold : old.nonce = tx.nonce := (mem_of_get h).2
  rw [flatten_put]
  conv_rhs => rw [hsplit]
  simp [hold]

/-! ### Removing -/

theorem forward_append (l : TxList) (n : ℕ) : (l.forward n).1 ++ (l.forward n).2.flatten = l.flatten :=
  takeWhile_append_dropWhile

theorem flatten_forward (l : TxList) (n : ℕ) : (l.forward n).2.flatten = l.flatten.filter (n ≤ ·.nonce) := by
  have hdrop (txs : List Transaction) (hs : txs.Pairwise fun a b => a.nonce < b.nonce) :
      txs.dropWhile (·.nonce < n) = txs.filter (n ≤ ·.nonce) := by
    induction txs with
    | nil => rfl
    | cons t txs ih =>
      obtain ⟨ht, hs⟩ := pairwise_cons.mp hs
      rcases Nat.lt_or_ge t.nonce n with hlt | hge
      · simpa [dropWhile_cons, filter_cons, hlt] using ih hs
      · have hall : txs.filter (n ≤ ·.nonce) = txs :=
          filter_eq_self.mpr fun x hx => by simpa using hge.trans (ht x hx).le
        simp [hge, hall]
  exact hdrop l.flatten l.flatten_sorted

theorem filter_spec (l : TxList) (c g : ℤ) : (l.filter c g).1 = (l.removeAll fun tx => ¬ Payable c g tx).1 ∧
      (l.filter c g).2.1 = (l.removeAll fun tx => ¬ Payable c g tx).2.1 ∧
      (l.filter c g).2.2.flatten = (l.removeAll fun tx => ¬ Payable c g tx).2.2.flatten ∧
      (l.filter c g).2.2.strict = l.strict := by
  rw [filter]
  split_ifs with hcaps
  · have hpaid : ∀ tx ∈ l.flatten, (decide ¬ Payable c g tx) = false := fun tx htx => by
      simpa using (l.capped tx htx).mono hcaps.1 hcaps.2
    obtain ⟨hremoved, hinvalids, hkept⟩ := removeAll_of_none hpaid
    exact ⟨hremoved.symm, hinvalids.symm, hkept.symm, rfl⟩
  · exact ⟨rfl, rfl, rfl, l.strict_removeAll _⟩

theorem filter_drops (l : TxList) (c g : ℤ) :
    (l.filter c g).1.filter (isNormalTransaction ·.txtype) = (l.filter c g).1 := by
  refine filter_eq_self.mpr fun tx htx => ?_
  rw [(l.filter_spec c g).1, removed_removeAll] at htx
  have hp : ¬ Payable c g tx := by simpa using (mem_filter.mp htx).2
  by_contra hn
  exact hp fun h => absurd h hn

theorem cap_perm (l : TxList) (n : ℕ) : ((l.cap n).1 ++ (l.cap n).2.flatten).Perm l.flatten := by
  have happend : l.flatten.take n ++ l.flatten.drop n = l.flatten := take_append_drop n l.flatten
  exact perm_append_comm.trans ((reverse_perm _).append_left _ |>.trans (.of_eq happend))

theorem remove_of_none (h : l.txs.get tx.nonce = none) : l.remove tx = (false, [], l) := by
  rw [remove, h]
  rfl

theorem remove_of_strict {old : Transaction} (hl : l.strict = true) (h : l.txs.get tx.nonce = some old) :
    (l.remove tx).1 = true ∧ (l.remove tx).2.1 = l.flatten.filter (tx.nonce < ·.nonce) ∧
      (l.remove tx).2.2.flatten = l.flatten.filter (·.nonce < tx.nonce) ∧ (l.remove tx).2.2.strict = l.strict := by
  have hside {p q : Transaction → Bool} (hpq : ∀ t, (p t && decide (t.nonce ≠ tx.nonce)) = q t) :
      (l.flatten.filter (·.nonce ≠ tx.nonce)).filter p = l.flatten.filter q := by
    rw [filter_filter]
    exact filter_congr fun t _ => hpq t
  simp only [remove, h, hl, Option.isNone_some, if_true]
  exact ⟨rfl, hside (by grind), hside (by grind), hl⟩

theorem remove_of_loose {old : Transaction} (hl : l.strict = false) (h : l.txs.get tx.nonce = some old) :
    (l.remove tx).1 = true ∧ (l.remove tx).2.1 = [] ∧
      (l.remove tx).2.2.flatten = l.flatten.filter (·.nonce ≠ tx.nonce) ∧ (l.remove tx).2.2.strict = l.strict := by
  simp only [remove, h, hl, Option.isNone_some]
  exact ⟨rfl, rfl, rfl, hl⟩

/-! ### Transactions that are ready -/

theorem run_isPrefix (next : ℕ) (txs : List Transaction) : TxSortedMap.run next txs <+: txs := by
  induction txs generalizing next with
  | nil => exact prefix_refl _
  | cons tx _ ih =>
    rw [TxSortedMap.run]
    split_ifs
    · exact prefix_cons_inj tx |>.mpr (ih _)
    · exact nil_prefix

theorem ready_append (l : TxList) (start : ℕ) : (l.ready start).1 ++ (l.ready start).2.flatten = l.flatten := by
  show (l.txs.ready start).1 ++ (l.txs.ready start).2.txs = l.txs.txs
  rw [TxSortedMap.ready]
  split
  · rfl
  · split_ifs
    · rfl
    · exact prefix_iff_eq_append.mp (run_isPrefix _ _)

/-- The nonces of the transactions count up from `s`. -/
def Consecutive (s : ℕ) (txs : List Transaction) : Prop := txs.map (·.nonce) = List.range' s txs.length

theorem consecutive_cons {s : ℕ} {txs : List Transaction} :
    Consecutive s (tx :: txs) ↔ tx.nonce = s ∧ Consecutive (s + 1) txs := by
  rw [Consecutive, Consecutive, map_cons, length_cons, List.range'_succ, List.cons.injEq]

theorem consecutive_run {txs : List Transaction} (hbound : ∀ tx ∈ txs, tx.nonce + 1 < 2 ^ 64) (next : ℕ) :
    Consecutive next (TxSortedMap.run next txs) := by
  induction txs generalizing next with
  | nil => rfl
  | cons tx _ ih =>
    rw [TxSortedMap.run]
    split_ifs with hnonce
    · have hlt : next + 1 < 2 ^ 64 := hnonce ▸ hbound tx mem_cons_self
      rw [Nat.mod_eq_of_lt hlt, consecutive_cons]
      exact ⟨hnonce, ih (fun t ht => hbound t (mem_cons_of_mem _ ht)) _⟩
    · rfl

theorem nonce_ne_of_run {txs : List Transaction} (hs : txs.Pairwise fun a b => a.nonce < b.nonce)
    (hbound : ∀ tx ∈ txs, tx.nonce + 1 < 2 ^ 64) {next : ℕ} (hnext : ∀ tx ∈ txs, next ≤ tx.nonce) :
    ∀ tx ∈ txs, tx.nonce ≠ next + (TxSortedMap.run next txs).length := by
  induction txs generalizing next with
  | nil => simp
  | cons first txs ih =>
    obtain ⟨hfirst, hs⟩ := pairwise_cons.mp hs
    have hbound' : ∀ tx ∈ txs, tx.nonce + 1 < 2 ^ 64 := fun tx htx => hbound tx (mem_cons_of_mem _ htx)
    have hle := hnext first mem_cons_self
    rw [TxSortedMap.run]
    split_ifs with hnonce
    · have hlt : next + 1 < 2 ^ 64 := hnonce ▸ hbound first mem_cons_self
      have hmore : ∀ tx ∈ txs, tx.nonce ≠ next + 1 + (TxSortedMap.run (next + 1) txs).length :=
        ih hs hbound' fun tx htx => hnonce ▸ hfirst tx htx
      rw [Nat.mod_eq_of_lt hlt, length_cons]
      intro tx htx
      rcases mem_cons.mp htx with rfl | htx
      · omega
      · have := hmore tx htx
        omega
    · intro tx htx
      rw [length_nil, Nat.add_zero]
      rcases mem_cons.mp htx with rfl | htx
      · exact hnonce
      · have := hfirst tx htx
        omega

/-- What is ready is a run from the first transaction, which is not above `start`. -/
theorem ready_cases (l : TxList) (start : ℕ) :
    (l.ready start).1 = [] ∨ ∃ first, l.flatten.head? = some first ∧ first.nonce ≤ start ∧
      (l.ready start).1 = TxSortedMap.run first.nonce l.flatten := by
  show (l.txs.ready start).1 = [] ∨ ∃ first, l.txs.txs.head? = some first ∧ first.nonce ≤ start ∧
    (l.txs.ready start).1 = TxSortedMap.run first.nonce l.txs.txs
  rw [TxSortedMap.ready]
  cases hfirst : l.txs.txs.head? with
  | none => exact .inl rfl
  | some first =>
    by_cases hlt : start < first.nonce
    · simp only [hlt, if_true, true_or]
    · simp only [hlt, if_false]
      exact .inr ⟨first, rfl, Nat.le_of_not_lt hlt, rfl⟩

theorem ready_from {start lo : ℕ} (hlo : ∀ tx ∈ l.flatten, lo ≤ tx.nonce) (hstart : start ≤ lo) :
    (l.ready start).1 = [] ∨
      start = lo ∧ (∃ tx ∈ l.flatten, tx.nonce = lo) ∧ (l.ready start).1 = TxSortedMap.run lo l.flatten := by
  rcases l.ready_cases start with hnil | ⟨first, hfirst, hle, hready⟩
  · exact .inl hnil
  · have hmem : first ∈ l.flatten := mem_of_mem_head? hfirst
    have hge := hlo first hmem
    obtain rfl : first.nonce = lo := by omega
    exact .inr ⟨le_antisymm hstart hle, ⟨first, hmem, rfl⟩, hready⟩

/-! ### Consecutive nonces -/

variable {s : ℕ} {txs p q : List Transaction}

theorem consecutive_append : Consecutive s (p ++ q) ↔ Consecutive s p ∧ Consecutive (s + p.length) q := by
  induction p generalizing s with
  | nil => simp [Consecutive]
  | cons _ p ih =>
    rw [cons_append, consecutive_cons, consecutive_cons, ih, length_cons, and_assoc]
    have hadd : s + 1 + p.length = s + (p.length + 1) := by omega
    rw [hadd]

theorem consecutive_congr (h : p.map Transaction.nonce = q.map Transaction.nonce) :
    Consecutive s p ↔ Consecutive s q := by
  have hlen : p.length = q.length := by simpa using congrArg List.length h
  rw [Consecutive, Consecutive, hlen]
  exact Iff.of_eq (congrArg (· = _) h)

section

variable (h : Consecutive s txs)

include h

theorem Consecutive.mem_iff : (∃ tx ∈ txs, tx.nonce = n) ↔ s ≤ n ∧ n < s + txs.length := by
  rw [← mem_range'_1, ← show txs.map (·.nonce) = _ from h, mem_map]

theorem Consecutive.bounds (htx : tx ∈ txs) : s ≤ tx.nonce ∧ tx.nonce < s + txs.length :=
  h.mem_iff.mp ⟨tx, htx, rfl⟩

theorem Consecutive.sorted : txs.Pairwise fun a b => a.nonce < b.nonce := by
  have hrange : (txs.map (·.nonce)).Pairwise (· < ·) := by
    rw [show txs.map (·.nonce) = _ from h]
    exact pairwise_lt_range'
  exact pairwise_map.mp hrange

theorem Consecutive.filter_lt (n : ℕ) : txs.filter (·.nonce < n) = txs.take (n - s) := by
  induction txs generalizing s with
  | nil => simp
  | cons tx _ ih =>
    obtain ⟨rfl, htxs⟩ := consecutive_cons.mp h
    rw [filter_cons]
    split_ifs with hlt
    · have hlt : tx.nonce < n := by simpa using hlt
      rw [ih htxs, show n - tx.nonce = (n - (tx.nonce + 1)) + 1 by omega, take_succ_cons]
    · have hge : n ≤ tx.nonce := by simpa using hlt
      rw [ih htxs, show n - (tx.nonce + 1) = 0 by omega, show n - tx.nonce = 0 by omega, take_zero, take_zero]

theorem Consecutive.take (m : ℕ) : Consecutive s (txs.take m) := by
  rw [← take_append_drop m txs, consecutive_append] at h
  exact h.1

end

theorem eq_of_perm (h : p.Perm q) (hp : p.Pairwise fun a b => a.nonce < b.nonce)
    (hq : q.Pairwise fun a b => a.nonce < b.nonce) : p = q :=
  h.eq_of_pairwise (fun _ _ _ _ hab hba => absurd hab hba.le.not_gt) hp hq

theorem Consecutive.next (h : Consecutive s txs) (hbound : ∀ tx ∈ txs, tx.nonce + 1 < 2 ^ 64) (hne : txs ≠ []) (n : ℕ) :
    (txs.getLast?.map fun tx => (tx.accountNonce + 1).toNat).getD n = s + txs.length := by
  obtain ⟨init, last, rfl⟩ := (eq_nil_or_concat' txs).resolve_left hne
  obtain ⟨-, hlast⟩ := consecutive_append.mp h
  have hnonce := (consecutive_cons.mp hlast).1
  have hlt := hbound last (by simp)
  rw [List.getLast?_concat, Option.map_some, Option.getD_some, UInt64.toNat_add, length_append, length_singleton]
  show (last.nonce + 1) % 2 ^ 64 = _
  rw [Nat.mod_eq_of_lt hlt, hnonce, Nat.add_assoc]

/-! ### Runs of a list -/

section Runs

variable [Keccak] [Crypto]

inductive Op
  | add (tx : Transaction) (priceBump : ℕ)
  | forward (threshold : ℕ)
  | filter (costLimit gasLimit : ℤ)
  | invalidPrivacyTx (db : StateDB) (signer : Signer) (gasLimit : ℤ)
  | cap (threshold : ℕ)
  | remove (tx : Transaction)
  | ready (start : ℕ)

def step (l : TxList) : Op → TxList
  | .add tx priceBump => (l.add tx priceBump).elim l (·.2)
  | .forward threshold => (l.forward threshold).2
  | .filter costLimit gasLimit => (l.filter costLimit gasLimit).2.2
  | .invalidPrivacyTx db signer gasLimit => (l.invalidPrivacyTx db signer gasLimit).2
  | .cap threshold => (l.cap threshold).2
  | .remove tx => (l.remove tx).2.2
  | .ready start => (l.ready start).2

theorem strict_step (l : TxList) (op : Op) : (l.step op).strict = l.strict := by
  cases op with
  | add tx priceBump =>
    rw [step, add]
    split
    · rfl
    · split_ifs <;> rfl
  | filter costLimit gasLimit => exact (l.filter_spec costLimit gasLimit).2.2.2
  | invalidPrivacyTx => exact l.strict_removeAll _
  | remove tx =>
    rw [step, remove]
    split_ifs <;> rfl
  | forward | cap | ready => rfl

theorem strict_run (l : TxList) (ops : List Op) : (Run.run step l ops).strict = l.strict := by
  induction ops generalizing l with
  | nil => rfl
  | cons op _ ih => exact (ih _).trans (l.strict_step op)

end Runs

/-- What is invalidated beside the transactions that are removed: those above the lowest of them. -/
theorem mem_invalids_removeAll (l : TxList) (p : Transaction → Bool) : tx ∈ (l.removeAll p).2.1 ↔
    l.strict = true ∧ tx ∈ l.flatten ∧ p tx = false ∧ ∃ t ∈ (l.removeAll p).1, t.nonce < tx.nonce := by
  have habove : (∃ t ∈ (l.txs.filter p).1, t.nonce < tx.nonce) ↔
      (l.txs.filter p).1 ≠ [] ∧ lowest (l.txs.filter p).1 < tx.nonce := by
    cases hremoved : (l.txs.filter p).1 with
    | nil => simp
    | cons f rest =>
      have hsorted := l.txs.sorted.filter p
      rw [show l.txs.txs.filter p = f :: rest from hremoved, pairwise_cons] at hsorted
      have hle : ∀ t ∈ f :: rest, f.nonce ≤ t.nonce := by
        rintro t (_ | ⟨_, ht⟩)
        · exact le_rfl
        · exact (hsorted.1 t ht).le
      rw [lowest_eq mem_cons_self hle]
      constructor
      · rintro ⟨t, ht, hlt⟩
        exact ⟨cons_ne_nil _ _, (hle t ht).trans_lt hlt⟩
      · rintro ⟨-, hlt⟩
        exact ⟨f, mem_cons_self, hlt⟩
  rw [removed_removeAll]
  show _ ↔ _ ∧ _ ∧ _ ∧ ∃ t ∈ (l.txs.filter p).1, _
  rw [habove, removeAll]
  split_ifs with hc
  · simp only [Bool.and_eq_true, Bool.not_eq_true', isEmpty_eq_false_iff] at hc
    simp only [TxSortedMap.filter, mem_filter, flatten, hc.1, Bool.not_eq_true', true_and, and_assoc]
    refine and_congr_right fun _ => and_congr_right fun _ => ?_
    exact decide_eq_true_iff.trans (and_iff_right hc.2).symm
  · simp only [Bool.and_eq_true, Bool.not_eq_true', isEmpty_eq_false_iff] at hc
    simp only [not_mem_nil, false_iff]
    rintro ⟨hl, -, -, hne, -⟩
    exact hc ⟨hl, hne⟩

/-- In every list that operations lead to, whether or not its caps let it return early, `Filter` removes the normal
transactions above the limits, from a strict list also those above the lowest of these, and no other. -/
theorem filter_exact [Keccak] [Crypto] (strict : Bool) (ops : List Op) (costLimit gasLimit : ℤ) :
    let l := Run.run step (newTxList strict) ops
    let r := l.filter costLimit gasLimit
    (∀ tx, tx ∈ r.1 ↔ tx ∈ l.flatten ∧ isNormalTransaction tx.txtype = true ∧
      (costLimit < tx.cost ∨ gasLimit < tx.gasLimit)) ∧
    (∀ tx, tx ∈ r.2.1 ↔ strict = true ∧ tx ∈ l.flatten ∧ tx ∉ r.1 ∧ ∃ t ∈ r.1, t.nonce < tx.nonce) ∧
    (r.1 ++ (r.2.1 ++ r.2.2.flatten)).Perm l.flatten := by
  intro l r
  have hstrict : l.strict = strict := strict_run _ ops
  obtain ⟨hremoved, hinvalids, hkept, -⟩ := l.filter_spec costLimit gasLimit
  have hmem (tx : Transaction) : tx ∈ r.1 ↔ tx ∈ l.flatten ∧ ¬ Payable costLimit gasLimit tx := by
    rw [hremoved, removed_removeAll, mem_filter, decide_eq_true_eq]
  refine ⟨fun tx => ?_, fun tx => ?_, ?_⟩
  · rw [hmem, Payable, Classical.not_imp, not_and_or, not_le, not_le]
  · rw [hmem, hinvalids, mem_invalids_removeAll, hstrict, ← hremoved]
    simp only [decide_eq_false_iff_not, not_not, not_and]
    exact and_congr_right fun _ => and_congr_right fun htx => and_congr_left fun _ => (imp_iff_right htx).symm
  · show (r.1 ++ (r.2.1 ++ (l.filter costLimit gasLimit).2.2.flatten)).Perm l.flatten
    rw [hremoved, hinvalids, hkept]
    exact l.removeAll_perm _

end TxList

end GoWanchain.Core
