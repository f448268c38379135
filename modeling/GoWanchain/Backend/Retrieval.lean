import GoWanchain.Backend.Checkpoint
import GoWanchain.Istanbul.Sample

/-!
# Finding the snapshot of a block

`snapshot` of `consensus/istanbul/backend/engine.go`. It walks back from a block to the nearest snapshot
that it has in memory, finds on disk or can build from the genesis block, and applies the headers on the
way, taken from the batch of `parents` as long as there are any and from the chain after that.
-/

namespace GoWanchain.Backend

open Types List Function
open State (Keccak keccak256)
open Istanbul (Primitives ValidatorSet ProposerPolicy)
open Snapshot (tip tip_concat SameAs KnowsSigners HashFixesSigner)

structure Config where
  blockPeriod : ℕ
  proposerPolicy : ProposerPolicy
  epoch : ℕ

/-- `consensus.ChainReader`: the headers by hash and number, and the genesis header, `GetHeaderByNumber(0)`.
The number is only a hint, which a header that is found in memory need not have. -/
structure Chain [Keccak] where
  getHeader : Hash → ℕ → Option Header
  hash_getHeader : ∀ {hash : Hash} {number : ℕ} {header : Header},
    getHeader hash number = some header → header.hash = hash
  genesis : Header
  genesis_number : uint64 genesis.number = 0

/-- What the engine remembers: snapshots in memory and on disk, and the signers of headers. -/
structure Caches where
  recents : Hash → Option Snapshot
  db : SnapshotDb
  recentAddresses : AddressCache

def checkpointInterval : ℕ := 1024

/-- `types.CalcUncleHash(nil)`: the hash of the empty list. -/
def nilUncleHash [Keccak] : Hash := keccak256 [0xC0]

/-- The checks of `verifyHeader` that look at the header alone; `now` is the clock in seconds. -/
def verifyStandalone [Keccak] (now : ℤ) (header : Header) : Except Err Unit := do
  ensure (header.time ≤ now) .futureBlock
  let _ ← relabel (fun _ => Err.invalidExtraDataFormat) (extractIstanbulExtra header)
  ensure (header.nonce = 0 ∨ header.nonce = 0xffffffffffffffff ∨ header.nonce = 0) .invalidNonce
  ensure (header.mixDigest = istanbulDigest) .invalidMixDigest
  ensure (header.uncleHash = nilUncleHash) .invalidUncleHash
  ensure (header.difficulty = 1) .invalidDifficulty

section Retrieval

variable [Keccak] (P : Primitives) (config : Config) (now : ℤ) (chain : Chain)

/-- The snapshot that is made at block zero. `verifyHeader` of a header with number 0 ends after its
standalone checks. -/
def genesisSnapshot : Except Err Snapshot := do
  verifyStandalone now chain.genesis
  let istanbulExtra ← relabel Err.extra (extractIstanbulExtra chain.genesis)
  return newSnapshot config.epoch 0 chain.genesis.hash
    (ValidatorSet.newSet P istanbulExtra.validators config.proposerPolicy)

/-- The header of the block and the parents that are left, from which it is taken if there are any. -/
def gather (number : ℕ) (hash : Hash) (parents : List Header) : Option (Header × List Header) :=
  match parents.getLast? with
  | some header =>
    if header.hash ≠ hash ∨ uint64 header.number ≠ number then none else some (header, parents.dropLast)
  | none => (chain.getHeader hash number).map fun header => (header, [])

/-- The loop of `snapshot`: where it starts from, the headers to apply, the latest first, and the database. -/
def locate (c : Caches) (number : ℕ) (hash : Hash) (parents headers : List Header) :
    Except Err (Snapshot × List Header × SnapshotDb) :=
  match c.recents hash with
  | some s => .ok (s, headers, c.db)
  | none =>
    match (if number % checkpointInterval = 0 then loadSnapshot P config.epoch c.db hash else none) with
    | some s => .ok (s, headers, c.db)
    | none =>
      match number with
      | 0 =>
        match genesisSnapshot P config now chain with
        | .error err => .error err
        | .ok s => .ok (s, headers, s.store c.db)
      | number + 1 =>
        match gather chain (number + 1) hash parents with
        | none => .error .unknownAncestor
        | some (header, parents) => locate c number header.parentHash parents (headers ++ [header])

def snapshot (c : Caches) (number : ℕ) (hash : Hash) (parents : List Header) : Except Err Snapshot × Caches :=
  match locate P config now chain c number hash parents [] with
  | .error err => (.error err, c)
  | .ok (base, headers, db) =>
    match base.apply P c.recentAddresses headers.reverse with
    | (.error err, recentAddresses) => (.error err, { c with db, recentAddresses })
    | (.ok snap, recentAddresses) =>
      (.ok snap, {
        recents := update c.recents snap.hash (some snap)
        db := if snap.number % checkpointInterval = 0 ∧ headers ≠ [] then snap.store db else db
        recentAddresses })

/-! ### What the snapshot of a block is -/

def snapshotOf (headers : List Header) : Except Err Snapshot := do
  let genesis ← genesisSnapshot P config now chain
  (genesis.apply P (fun _ => none) headers).1

/-- The headers follow one another above the genesis block. -/
def Linked (headers : List Header) : Prop :=
  ∀ below header, below ++ [header] <+: headers →
    uint64 header.number = below.length + 1 ∧ header.parentHash = tip chain.genesis.hash below

/-- The chain finds the headers. -/
def Stored (headers : List Header) : Prop :=
  ∀ below header, below ++ [header] <+: headers → chain.getHeader header.hash (below.length + 1) = some header

/-- The snapshot is that of the last of the headers. -/
def IsSnapshotOf (headers : List Header) (s : Snapshot) : Prop :=
  ∃ t, snapshotOf P config now chain headers = .ok t ∧ s.SameAs t

/-- Every entry under the hash of one of the blocks is the snapshot, or the signer, of that block. -/
structure Caches.Sound (c : Caches) (headers : List Header) : Prop where
  recents : ∀ below, below <+: headers → ∀ s, c.recents (tip chain.genesis.hash below) = some s →
    IsSnapshotOf P config now chain below s
  db : ∀ below, below <+: headers → below.length % checkpointInterval = 0 →
    ∀ s, loadSnapshot P config.epoch c.db (tip chain.genesis.hash below) = some s →
      IsSnapshotOf P config now chain below s
  signers : KnowsSigners P {h | h ∈ headers} c.recentAddresses

variable {P config now chain} {headers : List Header}

/-! ### The chain -/

variable {below : List Header} {header : Header} {s : Snapshot} {db : SnapshotDb}

theorem Linked.number_getElem (h : Linked chain headers) {i : ℕ} (hi : i < headers.length) :
    uint64 headers[i].number = i + 1 := by
  have hlen : (headers.take i).length = i := by simp [hi.le]
  have hpre : headers.take i ++ [headers[i]] <+: headers := by
    rw [take_append_getElem hi]
    exact take_prefix ..
  rw [(h _ _ hpre).1, hlen]

theorem Linked.isChain (h : Linked chain headers) : headers.IsChain Snapshot.Follows := by
  rw [isChain_iff_getElem]
  intro i hi
  have hlt : uint64 headers[i + 1].number < 2 ^ 64 := Nat.mod_lt _ (by norm_num)
  rw [h.number_getElem hi] at hlt
  rw [Snapshot.Follows, h.number_getElem hi, h.number_getElem (Nat.lt_of_succ_lt hi), Nat.mod_eq_of_lt hlt]

theorem linked_nil : Linked chain [] := by
  intro below header h
  simp at h

theorem Linked.concat (h : Linked chain headers) (hnumber : uint64 header.number = headers.length + 1)
    (hparent : header.parentHash = tip chain.genesis.hash headers) : Linked chain (headers ++ [header]) := by
  intro below next hbelow
  rcases prefix_concat_iff.mp hbelow with heq | hbelow
  · obtain ⟨rfl, hlast⟩ := append_inj' heq rfl
    obtain rfl := singleton_inj.mp hlast
    exact ⟨hnumber, hparent⟩
  · exact h below next hbelow

theorem stored_nil : Stored chain [] := by
  intro below header h
  simp at h

theorem Stored.concat (h : Stored chain headers)
    (hget : chain.getHeader header.hash (headers.length + 1) = some header) : Stored chain (headers ++ [header]) := by
  intro below next hbelow
  rcases prefix_concat_iff.mp hbelow with heq | hbelow
  · obtain ⟨rfl, hlast⟩ := append_inj' heq rfl
    obtain rfl := singleton_inj.mp hlast
    exact hget
  · exact h below next hbelow

theorem sound_empty : Caches.Sound P config now chain ⟨fun _ => none, fun _ => none, fun _ => none⟩ headers where
  recents _ _ _ hs := by cases hs
  db _ _ _ _ hs := by cases hs
  signers := Snapshot.knowsSigners_empty

/-! ### The walk -/

theorem genesisSnapshot_eq_ok {g : Snapshot} (h : genesisSnapshot P config now chain = .ok g) :
    g.valSet.Canonical P ∧ g.number = 0 ∧ g.hash = chain.genesis.hash ∧ g.epoch = config.epoch := by
  rw [genesisSnapshot, bind_eq_ok] at h
  obtain ⟨-, -, h⟩ := h
  rw [bind_eq_ok] at h
  obtain ⟨ist, -, h⟩ := h
  cases h
  exact ⟨ValidatorSet.canonical_newSet P _ _, rfl, rfl, rfl⟩

/-- The fold of `step` over the headers above the genesis block. -/
def foldOf (P : Primitives) (config : Config) (now : ℤ) (chain : Chain) (headers : List Header) : Except Err Snapshot :=
  genesisSnapshot P config now chain >>= headers.foldlM (Snapshot.step P)

theorem foldOf_append (below above : List Header) : foldOf P config now chain (below ++ above) =
    foldOf P config now chain below >>= above.foldlM (Snapshot.step P) := by
  rw [foldOf, foldOf, bind_assoc]
  congr 1
  funext g
  rw [foldlM_append]

theorem foldOf_eq_ok (h : foldOf P config now chain headers = .ok s) :
    s.valSet.Canonical P ∧ s.number = headers.length % 2 ^ 64 ∧
      s.hash = tip chain.genesis.hash headers ∧ s.epoch = config.epoch := by
  rw [foldOf, bind_eq_ok] at h
  obtain ⟨g, hg, hfold⟩ := h
  obtain ⟨hcanon, hnumber, hhash, hepoch⟩ := genesisSnapshot_eq_ok hg
  obtain ⟨hepoch', hnumber', hhash', hcanon'⟩ :=
    Snapshot.foldlM_step_eq_ok (by rw [hnumber]; norm_num) hfold
  refine ⟨hcanon' hcanon, ?_, hhash'.trans (by rw [hhash]), hepoch'.trans hepoch⟩
  rw [hnumber', hnumber, Nat.zero_add]

theorem apply_above {above : List Header} (hlinked : Linked chain (below ++ above))
    (hfix : HashFixesSigner P {h | h ∈ below ++ above}) {cache : AddressCache}
    (hknows : KnowsSigners P {h | h ∈ below ++ above} cache) {t : Snapshot}
    (ht : foldOf P config now chain below = .ok t) (hst : s.SameAs t) :
    Outcomes SameAs (s.apply P cache above).1 (foldOf P config now chain (below ++ above)) := by
  obtain ⟨hcanon, hnumber, -, -⟩ := foldOf_eq_ok ht
  have hlt : s.number < 2 ^ 64 := by
    rw [hst.number, hnumber]
    exact Nat.mod_lt _ (by norm_num)
  have happly := Snapshot.apply_agrees (s := s) hknows hfix (fun h hh => mem_append_right _ hh)
    (hcanon.congr hst.validators) hlt (isChain_append.mp hlinked.isChain).2.1 ?_
  · rw [foldOf_append, ht]
    exact happly.trans (hst.foldlM above)
  · intro first hfirst
    have hpre : below ++ [first] <+: below ++ above := by
      obtain ⟨rest, rfl⟩ := head?_eq_some_iff.mp hfirst
      exact ⟨rest, by simp⟩
    have hnum := (hlinked below first hpre).1
    have hbound : uint64 first.number < 2 ^ 64 := Nat.mod_lt _ (by norm_num)
    rw [hst.number, hnumber, hnum]
    omega

theorem snapshotOf_agrees (hlinked : Linked chain headers) (hfix : HashFixesSigner P {h | h ∈ headers}) :
    Outcomes SameAs (snapshotOf P config now chain headers) (foldOf P config now chain headers) := by
  rw [snapshotOf]
  cases hg : genesisSnapshot P config now chain with
  | error err =>
    rw [foldOf, hg]
    exact .error err
  | ok g =>
    have hnil : foldOf P config now chain [] = .ok g := by
      rw [foldOf, hg]
      rfl
    exact apply_above (show Linked chain ([] ++ headers) from hlinked) hfix Snapshot.knowsSigners_empty hnil (.refl g)

theorem gather_of_linked {known parents : List Header}
    (hlinked : Linked chain (known ++ parents)) (hstored : Stored chain known)
    (hbelow : below ++ [header] <+: known ++ parents) :
    gather chain (below.length + 1) (tip chain.genesis.hash (below ++ [header]))
      ((below ++ [header]).drop known.length) = some (header, below.drop known.length) := by
  rw [tip_concat, gather]
  by_cases hk : known.length ≤ below.length
  · rw [drop_append_of_le_length hk, getLast?_concat, dropLast_concat]
    simp only [(hlinked below header hbelow).1, ne_eq, not_true_eq_false, or_self, if_false]
  · have hnil : (below ++ [header]).drop known.length = [] := by
      rw [drop_eq_nil_iff, length_append, length_singleton]
      omega
    have hnil' : below.drop known.length = [] := by
      rw [drop_eq_nil_iff]
      omega
    have hknown : below ++ [header] <+: known := by
      refine prefix_of_prefix_length_le hbelow (prefix_append known parents) ?_
      rw [length_append, length_singleton]
      omega
    rw [hnil, hnil', getLast?_nil, hstored below header hknown]
    rfl

/-- The walk ends at the snapshot of a block below, with the headers above that block, or it fails as the
genesis block does. -/
theorem locate_spec {c : Caches} {known parents : List Header} (hsound : c.Sound P config now chain (known ++ parents))
    (hlinked : Linked chain (known ++ parents)) (hstored : Stored chain known)
    (hbelow : below <+: known ++ parents) (headers : List Header) :
    (∃ err, genesisSnapshot P config now chain = .error err ∧
      locate P config now chain c below.length (tip chain.genesis.hash below) (below.drop known.length)
        headers = .error err) ∨
    ∃ xs ys s db, below = xs ++ ys ∧ IsSnapshotOf P config now chain xs s ∧
      (db = c.db ∨ ∃ g, genesisSnapshot P config now chain = .ok g ∧ db = g.store c.db) ∧
      locate P config now chain c below.length (tip chain.genesis.hash below) (below.drop known.length)
        headers = .ok (s, headers ++ ys.reverse, db) := by
  induction below using reverseRecOn generalizing headers with
  | nil =>
    rw [length_nil, locate]
    cases hrecent : c.recents (tip chain.genesis.hash []) with
    | some s => exact .inr ⟨[], [], s, c.db, rfl, hsound.recents [] hbelow s hrecent, .inl rfl, by simp⟩
    | none =>
      simp only [Nat.zero_mod, if_true]
      cases hload : loadSnapshot P config.epoch c.db (tip chain.genesis.hash []) with
      | some s => exact .inr ⟨[], [], s, c.db, rfl, hsound.db [] hbelow rfl s hload, .inl rfl, by simp⟩
      | none =>
        cases hgenesis : genesisSnapshot P config now chain with
        | error err => exact .inl ⟨err, rfl, rfl⟩
        | ok g =>
          have hnil : snapshotOf P config now chain [] = .ok g := by
            rw [snapshotOf, hgenesis]
            rfl
          exact .inr ⟨[], [], g, g.store c.db, rfl, ⟨g, hnil, .refl g⟩, .inr ⟨g, rfl, rfl⟩, by simp⟩
  | append_singleton below header ih =>
    have hpre : below <+: known ++ parents := (prefix_append below [header]).trans hbelow
    have hparent := (hlinked below header hbelow).2
    rw [length_append, length_singleton, locate]
    cases hrecent : c.recents (tip chain.genesis.hash (below ++ [header])) with
    | some s =>
      exact .inr ⟨below ++ [header], [], s, c.db, by simp, hsound.recents _ hbelow s hrecent, .inl rfl, by simp⟩
    | none =>
      simp only []
      split
      · next s hload =>
        split_ifs at hload with hmod
        have hentry := hsound.db _ hbelow (by simpa using hmod) s hload
        exact .inr ⟨below ++ [header], [], s, c.db, by simp, hentry, .inl rfl, by simp⟩
      · rw [gather_of_linked hlinked hstored hbelow]
        simp only [hparent]
        rcases ih hpre (headers ++ [header]) with herr | ⟨xs, ys, s, db, heq, hs, hdb, hok⟩
        · exact .inl herr
        · refine .inr ⟨xs, ys ++ [header], s, db, by rw [heq, append_assoc], hs, hdb, ?_⟩
          rw [hok]
          simp

/-! ### Transparency -/

section Transparency

variable {known parents : List Header} {c : Caches} (hlinked : Linked chain (known ++ parents))
  (hfix : HashFixesSigner P {h | h ∈ known ++ parents})

include hlinked hfix

variable {xs : List Header} {s : Snapshot}

theorem snapshotOf_prefix (config : Config) (now : ℤ) (hxs : xs <+: known ++ parents) :
    Outcomes SameAs (snapshotOf P config now chain xs) (foldOf P config now chain xs) :=
  snapshotOf_agrees (fun l header hl => hlinked l header (hl.trans hxs)) (hfix.mono fun _ hh => hxs.subset hh)

theorem IsSnapshotOf.fold (hxs : xs <+: known ++ parents) (hs : IsSnapshotOf P config now chain xs s) :
    ∃ t, foldOf P config now chain xs = .ok t ∧ s.SameAs t := by
  obtain ⟨t, ht, hst⟩ := hs
  have hfold := snapshotOf_prefix hlinked hfix config now hxs
  rw [ht] at hfold
  obtain ⟨t', ht', htt'⟩ := hfold.of_ok
  exact ⟨t', ht', hst.trans htt'⟩

theorem IsSnapshotOf.apply {ys : List Header} (heq : known ++ parents = xs ++ ys)
    (hs : IsSnapshotOf P config now chain xs s) {cache : AddressCache}
    (hknows : KnowsSigners P {h | h ∈ known ++ parents} cache) :
    Outcomes SameAs (s.apply P cache ys).1 (snapshotOf P config now chain (known ++ parents)) := by
  obtain ⟨t, ht, hst⟩ := hs.fold hlinked hfix ⟨ys, heq.symm⟩
  have hall := snapshotOf_prefix hlinked hfix config now (prefix_refl _)
  rw [heq] at hlinked hfix hknows hall ⊢
  exact (apply_above hlinked hfix hknows ht hst).trans hall.symm

theorem snapshot_agrees (hstored : Stored chain known) (hsound : c.Sound P config now chain (known ++ parents)) :
    Outcomes SameAs (snapshot P config now chain c (known ++ parents).length
        (tip chain.genesis.hash (known ++ parents)) parents).1
      (snapshotOf P config now chain (known ++ parents)) := by
  have hwalk := locate_spec hsound hlinked hstored (prefix_refl _) []
  rw [drop_left] at hwalk
  rcases hwalk with ⟨err, hgenesis, herr⟩ | ⟨xs, ys, s, db, heq, hs, -, hok⟩
  · rw [snapshot, herr, snapshotOf, hgenesis]
    exact .error err
  · have happly := hs.apply hlinked hfix heq hsound.signers
    rw [snapshot, hok]
    simp only [nil_append, reverse_reverse]
    rcases hrun : s.apply P c.recentAddresses ys with ⟨err | snap, cache⟩
    · rw [hrun] at happly
      exact happly
    · rw [hrun] at happly
      exact happly

theorem IsSnapshotOf.facts (hxs : xs <+: known ++ parents) (hs : IsSnapshotOf P config now chain xs s) :
    s.valSet.Canonical P ∧ s.hash = tip chain.genesis.hash xs ∧ s.epoch = config.epoch := by
  obtain ⟨t, ht, hst⟩ := hs.fold hlinked hfix hxs
  obtain ⟨hcanon, -, hhash, hepoch⟩ := foldOf_eq_ok ht
  exact ⟨hcanon.congr hst.validators, hst.hash.trans hhash, hst.epoch.trans hepoch⟩

variable (hinj : Injective P.addressString) (hdistinct : ∀ xs ys, xs <+: known ++ parents →
  ys <+: known ++ parents → tip chain.genesis.hash xs = tip chain.genesis.hash ys → xs = ys)

include hinj hdistinct

theorem IsSnapshotOf.store_sound (hxs : xs <+: known ++ parents) (hs : IsSnapshotOf P config now chain xs s)
    {db : SnapshotDb} {below : List Header} (hbelow : below <+: known ++ parents)
    (hdb : ∀ u, loadSnapshot P config.epoch db (tip chain.genesis.hash below) = some u →
      IsSnapshotOf P config now chain below u) {u : Snapshot}
    (hload : loadSnapshot P config.epoch (s.store db) (tip chain.genesis.hash below) = some u) :
    IsSnapshotOf P config now chain below u := by
  obtain ⟨hcanon, hhash, hepoch⟩ := hs.facts hlinked hfix hxs
  by_cases heq : tip chain.genesis.hash below = s.hash
  · obtain rfl := hdistinct below xs hbelow hxs (heq.trans hhash)
    obtain ⟨v, hv, hvs⟩ := loadSnapshot_store hinj hcanon db
    rw [heq, ← hepoch, hv, Option.some.injEq] at hload
    obtain ⟨t, ht, hst⟩ := hs
    exact ⟨t, ht, hload ▸ hvs.trans hst⟩
  · rw [loadSnapshot_store_of_ne P config.epoch s db heq] at hload
    exact hdb u hload

end Transparency

/-- **Cache transparency.** Whatever part of the chain comes in the batch of parents, and whatever snapshots of
its blocks are in memory or on disk, `snapshot` has the result of applying all headers to the genesis
snapshot. Applying headers in two goes is applying them in one, and a snapshot that is stored and
loaded is the same. -/
theorem snapshot_transparent (P : Primitives) (hstring : Injective P.addressString) (config : Config)
    (now : ℤ) (chain : Chain) (known parents : List Header) (hlinked : Linked chain (known ++ parents))
    (hstored : Stored chain known) (hfix : HashFixesSigner P {h | h ∈ known ++ parents}) :
    (∀ c : Caches, c.Sound P config now chain (known ++ parents) → Outcomes SameAs
        (snapshot P config now chain c (known ++ parents).length (tip chain.genesis.hash (known ++ parents)) parents).1
        (snapshotOf P config now chain (known ++ parents))) ∧
    (∀ xs ys cache, known ++ parents = xs ++ ys → KnowsSigners P {h | h ∈ known ++ parents} cache →
      Outcomes SameAs (snapshotOf P config now chain xs >>= fun s => (s.apply P cache ys).1)
        (snapshotOf P config now chain (xs ++ ys))) ∧
    (∀ s db, snapshotOf P config now chain (known ++ parents) = .ok s →
      ∃ t, loadSnapshot P config.epoch (s.store db) s.hash = some t ∧ t.SameAs s) := by
  refine ⟨fun c hsound => snapshot_agrees hlinked hfix hstored hsound, fun xs ys cache heq hknows => ?_,
    fun s db hs => ?_⟩
  · cases hxs : snapshotOf P config now chain xs with
    | ok s =>
      rw [← heq]
      exact IsSnapshotOf.apply hlinked hfix heq ⟨s, hxs, .refl s⟩ hknows
    | error =>
      have hxs' := snapshotOf_prefix hlinked hfix config now ⟨ys, heq.symm⟩
      have hall := snapshotOf_prefix hlinked hfix config now (prefix_refl _)
      rw [hxs] at hxs'
      rw [heq, foldOf_append, hxs'.of_error] at hall
      exact hall.symm
  · obtain ⟨hcanon, -, hepoch⟩ := IsSnapshotOf.facts hlinked hfix (prefix_refl _) ⟨s, hs, .refl s⟩
    rw [← hepoch]
    exact loadSnapshot_store hstring hcanon db

/-! ### Any caches

What holds of `snapshot` whatever the caches hold: a second call finds what the first one found, and the
headers that it reads are among those of the batch and of the chain. -/

variable {c : Caches} {number : ℕ} {hash : Hash} {parents : List Header}

theorem gather_eq_some {rest : List Header} (h : gather chain number hash parents = some (header, rest)) :
    header.hash = hash ∧ (header ∈ parents ∨ ∃ k, chain.getHeader hash k = some header) ∧ ∀ x ∈ rest, x ∈ parents := by
  rw [gather] at h
  cases hlast : parents.getLast? with
  | some =>
    rw [hlast] at h
    simp only [] at h
    split_ifs at h with hbad
    obtain ⟨rfl, rfl⟩ := Prod.mk.inj (Option.some.inj h)
    rw [not_or, not_not] at hbad
    exact ⟨hbad.1, .inl (mem_of_getLast? hlast), fun x hx => mem_of_mem_dropLast hx⟩
  | none =>
    rw [hlast] at h
    obtain ⟨found, hfound, heq⟩ := Option.map_eq_some_iff.mp h
    cases heq
    exact ⟨chain.hash_getHeader hfound, .inr ⟨_, hfound⟩, by simp⟩

/-- The headers that `snapshot` may read. -/
def Readable (chain : Chain) (parents : List Header) : Set Header :=
  {h | h ∈ parents ∨ ∃ hash k, chain.getHeader hash k = some h}

/-- The walk ends where it is, in memory, on disk or at block zero. -/
inductive Ends (P : Primitives) (config : Config) (now : ℤ) (chain : Chain) (c : Caches) (number : ℕ) (hash : Hash) :
    Snapshot → SnapshotDb → Prop
  | recent {s : Snapshot} : c.recents hash = some s → Ends P config now chain c number hash s c.db
  | checkpoint {s : Snapshot} : c.recents hash = none → number % checkpointInterval = 0 →
    loadSnapshot P config.epoch c.db hash = some s → Ends P config now chain c number hash s c.db
  | genesis {s : Snapshot} : c.recents hash = none → number = 0 → loadSnapshot P config.epoch c.db hash = none →
    genesisSnapshot P config now chain = .ok s → Ends P config now chain c number hash s (s.store c.db)

theorem Ends.locate_eq (h : Ends P config now chain c number hash s db) (parents headers : List Header) :
    locate P config now chain c number hash parents headers = .ok (s, headers, db) := by
  rw [locate.eq_def]
  cases h with
  | recent hrecent => rw [hrecent]
  | checkpoint hrecent hmod hload =>
    rw [hrecent]
    simp only [hmod, if_true, hload]
  | genesis hrecent hzero hload hgenesis =>
    subst hzero
    rw [hrecent]
    simp only [Nat.zero_mod, if_true, hload, hgenesis]

theorem locate_cases {headers headers' : List Header}
    (h : locate P config now chain c number hash parents headers = .ok (s, headers', db)) :
    (headers' = headers ∧ Ends P config now chain c number hash s db) ∨
    ∃ k header rest, number = k + 1 ∧ gather chain number hash parents = some (header, rest) ∧
      locate P config now chain c k header.parentHash rest (headers ++ [header]) = .ok (s, headers', db) := by
  rw [locate.eq_def] at h
  cases hrecent : c.recents hash with
  | some =>
    rw [hrecent] at h
    obtain ⟨rfl, heq⟩ := Prod.mk.inj (Except.ok.inj h)
    cases heq
    exact .inl ⟨rfl, .recent hrecent⟩
  | none =>
    rw [hrecent] at h
    simp only [] at h
    split at h
    · next t hload =>
      split_ifs at hload with hmod
      obtain ⟨rfl, heq⟩ := Prod.mk.inj (Except.ok.inj h)
      cases heq
      exact .inl ⟨rfl, .checkpoint hrecent hmod hload⟩
    · next hload =>
      cases number with
      | zero =>
        simp only [Nat.zero_mod, if_true] at hload
        cases hgenesis : genesisSnapshot P config now chain with
        | error =>
          rw [hgenesis] at h
          cases h
        | ok =>
          rw [hgenesis] at h
          obtain ⟨rfl, heq⟩ := Prod.mk.inj (Except.ok.inj h)
          cases heq
          exact .inl ⟨rfl, .genesis hrecent rfl hload hgenesis⟩
      | succ k =>
        cases hgather : gather chain (k + 1) hash parents with
        | none =>
          simp only [hgather] at h
          cases h
        | some p =>
          simp only [hgather] at h
          exact .inr ⟨k, p.1, p.2, rfl, rfl, h⟩

theorem locate_gathers {headers headers' : List Header}
    (h : locate P config now chain c number hash parents headers = .ok (s, headers', db)) :
    ∃ more, headers' = headers ++ more ∧ (∀ x ∈ more, x ∈ Readable chain parents) ∧
      (more = [] ∧ Ends P config now chain c number hash s db ∨ ∃ first, more.head? = some first ∧ first.hash = hash) := by
  induction number generalizing hash parents headers with
  | zero =>
    rcases locate_cases h with ⟨rfl, hends⟩ | ⟨k, header, rest, hk, -⟩
    · exact ⟨[], by simp, by simp, .inl ⟨rfl, hends⟩⟩
    · omega
  | succ _ ih =>
    rcases locate_cases h with ⟨rfl, hends⟩ | ⟨k, header, rest, hk, hgather, hloc⟩
    · exact ⟨[], by simp, by simp, .inl ⟨rfl, hends⟩⟩
    · obtain rfl := Nat.succ_injective hk
      obtain ⟨hhash, hread, hrest⟩ := gather_eq_some hgather
      obtain ⟨more, rfl, hmore, -⟩ := ih hloc
      refine ⟨header :: more, by simp, ?_, .inr ⟨header, rfl, hhash⟩⟩
      intro x hx
      rcases mem_cons.mp hx with rfl | hx
      · rcases hread with hread | ⟨k, hread⟩
        · exact .inl hread
        · exact .inr ⟨hash, k, hread⟩
      · rcases hmore x hx with hx | hx
        · exact .inl (hrest x hx)
        · exact .inr hx

theorem snapshot_ends {c' : Caches}
    (h : snapshot P config now chain c number hash parents = (.ok s, c')) (recentAddresses : AddressCache) :
    ∃ db, Ends P config now chain { c' with recentAddresses } number hash s db := by
  rw [snapshot] at h
  cases hloc : locate P config now chain c number hash parents [] with
  | error =>
    rw [hloc] at h
    cases (Prod.mk.inj h).1
  | ok r =>
    obtain ⟨base, headers, db⟩ := r
    rw [hloc] at h
    simp only [] at h
    obtain ⟨more, hmore, -, hends⟩ := locate_gathers hloc
    obtain rfl : headers = more := by simpa using hmore
    rcases hrun : base.apply P c.recentAddresses headers.reverse with ⟨err | snap, cache⟩
    · rw [hrun] at h
      cases (Prod.mk.inj h).1
    rw [hrun] at h
    obtain ⟨hok, rfl⟩ := Prod.mk.inj h
    obtain rfl := Except.ok.inj hok
    rcases hends with ⟨rfl, hends⟩ | ⟨first, hfirst, rfl⟩
    · -- nothing was applied, and the entry is the one that was found
      obtain rfl := Except.ok.inj (Prod.mk.inj hrun).1
      by_cases heq : hash = base.hash
      · subst heq
        exact ⟨_, .recent (update_self ..)⟩
      · have hrecents : ∀ r, c.recents hash = r → update c.recents base.hash (some base) hash = r :=
          fun r hr => (update_of_ne heq ..).trans hr
        simp only [ne_eq, not_true_eq_false, and_false, if_false]
        cases hends with
        | recent hrecent => exact ⟨_, .recent (hrecents _ hrecent)⟩
        | checkpoint hrecent hmod hload => exact ⟨_, .checkpoint (hrecents _ hrecent) hmod hload⟩
        | genesis hrecent hzero hload hgenesis =>
          have hload' := (loadSnapshot_store_of_ne P config.epoch base c.db heq).trans hload
          exact ⟨_, .genesis (hrecents _ hrecent) hzero hload' hgenesis⟩
    · -- the entry is stored under the hash of the first header that was gathered
      have hhash : snap.hash = first.hash := by
        rcases Snapshot.apply_eq_ok hrun with ⟨hnil, -⟩ | ⟨hne, -, -, u, -, rfl⟩
        · rw [reverse_eq_nil_iff.mp hnil] at hfirst
          cases hfirst
        · rw [← getLast?_reverse, getLast?_eq_some_getLast hne, Option.some.injEq] at hfirst
          rw [hfirst]
      refine ⟨_, .recent ?_⟩
      show update c.recents snap.hash (some snap) first.hash = some snap
      rw [hhash, update_self]

theorem snapshot_of_recent (h : c.recents hash = some s) : snapshot P config now chain c number hash parents =
      (.ok s, { c with recents := update c.recents s.hash (some s) }) := by
  rw [snapshot, (Ends.recent h).locate_eq parents []]
  simp [Snapshot.apply]

theorem snapshot_again {c' : Caches}
    (h : snapshot P config now chain c number hash parents = (.ok s, c')) (recentAddresses : AddressCache) :
    ∃ c'', snapshot P config now chain { c' with recentAddresses } number hash parents = (.ok s, c'') ∧
      c''.recentAddresses = recentAddresses := by
  obtain ⟨db, hends⟩ := snapshot_ends h recentAddresses
  rw [snapshot, hends.locate_eq parents []]
  exact ⟨_, rfl, rfl⟩

theorem knowsSigners_snapshot {S : Set Header} (hknows : KnowsSigners P S c.recentAddresses)
    (hfix : HashFixesSigner P S) (hread : Readable chain parents ⊆ S) :
    KnowsSigners P S (snapshot P config now chain c number hash parents).2.recentAddresses := by
  rw [snapshot]
  cases hloc : locate P config now chain c number hash parents [] with
  | error => exact hknows
  | ok r =>
    obtain ⟨base, headers, db⟩ := r
    obtain ⟨more, hmore, hmem, -⟩ := locate_gathers hloc
    obtain rfl : headers = more := by simpa using hmore
    have hsigners := hknows.apply (s := base) hfix fun h hh => hread (hmem h (mem_reverse.mp hh))
    simp only []
    rcases hrun : base.apply P c.recentAddresses headers.reverse with ⟨err | snap, cache⟩
    · rw [hrun] at hsigners
      exact hsigners
    · rw [hrun] at hsigners
      exact hsigners

end Retrieval

namespace Sample

attribute [local instance] keccak

/-- Validators are sorted by their checksummed text. -/
def primitives : Primitives := { Istanbul.Sample.primitives with addressString := addressHex }

def config : Config := ⟨1, .roundRobin, 30000⟩

def signed (signer : Address) (h : Header) : Header :=
  (writeSeal h (Istanbul.Sample.sign signer (Istanbul.hashBytes (sigHash h)))).toOption.getD h

def genesisHeader : Header := { header 0 0 [1, 2, 3, 4] with uncleHash := nilUncleHash }

def first : Header := signed 1 { header genesisHeader.hash 1 [1, 2, 3, 4] with
  uncleHash := nilUncleHash, time := 1, coinbase := 5, nonce := 0xffffffffffffffff }

def second : Header := signed 2 { header first.hash 2 [1, 2, 3, 4] with
  uncleHash := nilUncleHash, time := 2, coinbase := 5, nonce := 0xffffffffffffffff }

def chain : Chain where
  getHeader hash _ := [genesisHeader, first].find? fun h => h.hash = hash
  hash_getHeader h := by simpa using find?_some h
  genesis := genesisHeader
  genesis_number := rfl

theorem snapshot_transparent_second :
    ∃ s, snapshotOf primitives config 5 chain [first, second] = .ok s ∧ s.votes.length = 2 ∧ Outcomes SameAs
        (snapshot primitives config 5 chain ⟨fun _ => none, fun _ => none, fun _ => none⟩ 2 second.hash [second]).1
        (.ok s) := by
  have hfirst : Linked chain ([] ++ [first]) := linked_nil.concat (by decide +kernel) (by decide +kernel)
  have hlinked : Linked chain ([first] ++ [second]) := hfirst.concat (by decide +kernel) (by decide +kernel)
  have hstored : Stored chain ([] ++ [first]) := stored_nil.concat (by decide +kernel)
  have hfix : HashFixesSigner primitives {h | h ∈ [first] ++ [second]} := by
    have hne : first.hash ≠ second.hash := by decide +kernel
    intro h hh h' hh' heq
    replace hh : h = first ∨ h = second := mem_pair.mp hh
    replace hh' : h' = first ∨ h' = second := mem_pair.mp hh'
    rcases hh with hh | hh <;> rcases hh' with hh' | hh' <;> rw [hh, hh'] at heq ⊢
    · exact absurd heq hne
    · exact absurd heq.symm hne
  have hok : (snapshotOf primitives config 5 chain [first, second]).map (·.votes.length) = .ok 2 := by
    decide +kernel
  cases hs : snapshotOf primitives config 5 chain [first, second] with
  | error =>
    rw [hs] at hok
    cases hok
  | ok s =>
    rw [hs] at hok
    have hsame := (snapshot_transparent primitives addressHex_injective config 5 chain [first] [second] hlinked
      hstored hfix).1 _ sound_empty
    rw [tip_concat, singleton_append, hs] at hsame
    exact ⟨s, rfl, Except.ok.inj hok, hsame⟩

end Sample

end GoWanchain.Backend
