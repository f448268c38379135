import GoWanchain.Backend.Retrieval
import GoWanchain.Istanbul.Seals

/-!
# Verifying headers

`verifyHeader` of `consensus/istanbul/backend/engine.go`. Numbers are unbounded integers in a header and are
compared as `uint64`: a header whose number is a multiple of `2 ^ 64` passes for the genesis block and is
accepted as it is, and the number of a parent may be off by a multiple of `2 ^ 64`. The list of validators
in the extra-data is compared with nothing (`validators_true_iff`).
-/

namespace GoWanchain.Backend

open Types List
open State (Keccak keccak256)
open Istanbul (Primitives ValidatorSet SealErr SealedBy countSeals prepareCommittedSeal)

/-- `number - 1` of a `uint64`. -/
def pred (number : ℕ) : ℕ := (number + (2 ^ 64 - 1)) % 2 ^ 64

theorem pred_uint64 {n : ℤ} (h : uint64 n ≠ 0) : pred (uint64 n) + 1 = uint64 n := by
  have hlt : uint64 n < 2 ^ 64 := Nat.mod_lt _ (by norm_num)
  rw [pred]
  omega

/-! ### Prepared extra-data -/

/-- The extra-data was written by `prepareExtra` for these validators, and nothing but seals after that. -/
def PreparedFor (vals : List Address) (header : Header) : Prop :=
  ∃ (h : Header) (proposerSeal : Bytes) (committedSeal : List Bytes),
    header = Header.withExtra { h with extra := prepareExtra h vals } ⟨vals, proposerSeal, committedSeal⟩

theorem length_prepareExtra (h : Header) (vals : List Address) :
    istanbulExtraVanity ≤ (prepareExtra h vals).length := by
  simp only [prepareExtra, length_append, length_take, length_replicate]
  omega

theorem take_prepareExtra {h : Header} (hlen : istanbulExtraVanity ≤ h.extra.length) (vals : List Address) :
    (prepareExtra h vals).take istanbulExtraVanity = h.extra.take istanbulExtraVanity := by
  have hzero : istanbulExtraVanity - h.extra.length = 0 := by omega
  rw [prepareExtra, hzero, replicate_zero, append_nil]
  have htake : (h.extra.take istanbulExtraVanity).length = istanbulExtraVanity := by simp [hlen]
  rw [take_append_of_le_length (by rw [htake]), take_take, Nat.min_self]

theorem preparedFor_iff {vals : List Address} {header : Header} {ist : IstanbulExtra}
    (hext : extractIstanbulExtra header = .ok ist) (hfits : header.extra.length < 2 ^ 64) :
    PreparedFor vals header ↔ ist.validators = vals := by
  constructor
  · rintro ⟨h, proposerSeal, committedSeal, rfl⟩
    rw [extract_withExtra (length_prepareExtra h vals) hfits, Except.ok.injEq] at hext
    rw [← hext]
  · rintro rfl
    refine ⟨header, ist.proposerSeal, ist.committedSeal, ?_⟩
    have hlen := (extractIstanbulExtra_eq_ok.mp hext).1
    have hback := withExtra_of_extract hext
    rw [Header.withExtra] at hback ⊢
    simp only [take_prepareExtra hlen]
    exact hback.symm

section Engine

variable [Keccak] (P : Primitives) (config : Config) (now : ℤ) (chain : Chain)

/-! ### The checks -/

/-- The snapshot of the parent, as all of the checks retrieve it. -/
def parentSnapshot (c : Caches) (header : Header) (parents : List Header) : Except Err Snapshot × Caches :=
  snapshot P config now chain c (pred (uint64 header.number)) header.parentHash parents

def verifySigner (c : Caches) (header : Header) (parents : List Header) : Except Err Unit × Caches :=
  if uint64 header.number = 0 then (.error .unknownBlock, c)
  else
    thread (parentSnapshot P config now chain c header parents) fun snap c =>
      let (signer, recentAddresses) := ecrecover P c.recentAddresses header
      thread (signer, { c with recentAddresses }) fun signer c =>
        match snap.valSet.getByAddress signer with
        | none => (.error .unauthorized, c)
        | some _ => (.ok (), c)

/-- `verifyCommittedSeals` once it has the snapshot. -/
def checkCommittedSeals (valSet : ValidatorSet) (header : Header) : Except Err Unit :=
  match extractIstanbulExtra header with
  | .error err => .error (.extra err)
  | .ok extra =>
    if extra.committedSeal = [] then .error .emptyCommittedSeals
    else
      match countSeals P (prepareCommittedSeal header.hash) (valSet.copy P) 0 extra.committedSeal with
      | .error .invalidSignature => .error .invalidSignature
      | .error _ => .error .invalidCommittedSeals
      | .ok validSeal => if (validSeal : ℤ) ≤ 2 * valSet.F then .error .invalidCommittedSeals else .ok ()

def verifyCommittedSeals (c : Caches) (header : Header) (parents : List Header) : Except Err Unit × Caches :=
  if uint64 header.number = 0 then (.ok (), c)
  else
    thread (parentSnapshot P config now chain c header parents) fun snap c =>
      (checkCommittedSeals P snap.valSet header, c)

def parentOf (header : Header) (parents : List Header) : Option Header :=
  match parents.getLast? with
  | some parent => some parent
  | none => chain.getHeader header.parentHash (pred (uint64 header.number))

/-- The part of `verifyCascadingFields` that looks at the parent. -/
def checkParent (header : Header) (parents : List Header) : Except Err Unit :=
  match parentOf chain header parents with
  | none => .error .unknownAncestor
  | some parent =>
    if uint64 parent.number ≠ pred (uint64 header.number) ∨ parent.hash ≠ header.parentHash then
      .error .unknownAncestor
    else if (uint64 parent.time + config.blockPeriod) % 2 ^ 64 > uint64 header.time then .error .invalidTimestamp
    else .ok ()

/-- `verifyCascadingFields`. The validators of the snapshot are copied into a buffer, which nothing reads. -/
def verifyCascadingFields (c : Caches) (header : Header) (parents : List Header) : Except Err Unit × Caches :=
  if uint64 header.number = 0 then (.ok (), c)
  else
    thread (checkParent config chain header parents, c) fun _ c =>
      thread (parentSnapshot P config now chain c header parents) fun _ c =>
        thread (verifySigner P config now chain c header parents) fun _ c =>
          verifyCommittedSeals P config now chain c header parents

def verifyHeader (c : Caches) (header : Header) (parents : List Header) : Except Err Unit × Caches :=
  thread (verifyStandalone now header, c) fun _ c => verifyCascadingFields P config now chain c header parents

variable {P config now chain} {c : Caches} {header : Header} {parents : List Header}

/-! ### Committed seals -/

theorem checkCommittedSeals_eq_ok {vs : ValidatorSet} (hnodup : vs.addresses.Nodup) :
    checkCommittedSeals P vs header = .ok () ↔ ∃ ist, extractIstanbulExtra header = .ok ist ∧
      ist.committedSeal ≠ [] ∧ SealedBy P vs header.hash ist.committedSeal := by
  rw [checkCommittedSeals]
  cases hext : extractIstanbulExtra header with
  | error => simp
  | ok ist =>
    simp only [Except.ok.injEq, exists_eq_left']
    by_cases hne : ist.committedSeal = []
    · simp [hne]
    rw [if_neg hne]
    have hcopy := vs.copy_addresses P
    constructor
    · intro h
      cases hcount : countSeals P (prepareCommittedSeal header.hash) (vs.copy P) 0 ist.committedSeal with
      | error err =>
        rw [hcount] at h
        cases err <;> cases h
      | ok =>
        obtain ⟨hn, hsigned, hdistinct⟩ := Istanbul.of_countSeals_eq_ok (hcopy.nodup_iff.mpr hnodup) hcount
        simp only [hcount] at h
        split_ifs at h with hquorum
        refine ⟨hne, fun s hs => ?_, hdistinct, by omega⟩
        obtain ⟨a, ha, hrecover⟩ := hsigned s hs
        exact ⟨a, hcopy.mem_iff.mp ha, hrecover⟩
    · rintro ⟨-, hsealed⟩
      have hsigned : ∀ s ∈ ist.committedSeal, ∃ a ∈ (vs.copy P).addresses,
          P.recover (prepareCommittedSeal header.hash) s = some a := by
        intro s hs
        obtain ⟨a, ha, hrecover⟩ := hsealed.signed s hs
        exact ⟨a, hcopy.mem_iff.mpr ha, hrecover⟩
      have hquorum := hsealed.quorum
      simp only [Istanbul.countSeals_eq_ok 0 hsigned hsealed.distinct, Nat.zero_add]
      rw [if_neg (by omega)]

theorem checkCommittedSeals_iff {vs : ValidatorSet} {ist : IstanbulExtra}
    (hext : extractIstanbulExtra header = .ok ist) {number : ℕ} (hz : Istanbul.uint64 number ≠ 0) :
    checkCommittedSeals P vs header = .ok () ↔
      Istanbul.verifyCommittedSeals P (.ok vs) ⟨number, header.hash, .ok ist.committedSeal⟩ = .ok () := by
  rw [checkCommittedSeals, hext, Istanbul.verifyCommittedSeals, if_neg hz]
  simp only []
  by_cases hne : ist.committedSeal = []
  · simp [hne]
  rw [if_neg hne, if_neg hne]
  cases countSeals P (prepareCommittedSeal header.hash) (vs.copy P) 0 ist.committedSeal with
  | error err => cases err <;> simp
  | ok =>
    simp only []
    split_ifs <;> simp

/-- **Committed seals.** For headers of number `n` the check accepts exactly the committed seals of more than
`2 F` distinct validators of the parent's snapshot, unless `n` is a multiple of `2 ^ 64`. -/
theorem committed_seals_exact_iff (P : Primitives) (config : Config) (now : ℤ) (chain : Chain) (n : ℤ) (hn : 0 < n) :
    (∀ c header parents snap c', header.number = n →
      parentSnapshot P config now chain c header parents = (.ok snap, c') → snap.valSet.addresses.Nodup →
        ((verifyCommittedSeals P config now chain c header parents).1 = .ok () ↔
          ∃ ist, extractIstanbulExtra header = .ok ist ∧ ist.committedSeal ≠ [] ∧
            SealedBy P snap.valSet header.hash ist.committedSeal)) ↔
      n % 2 ^ 64 ≠ 0 := by
  have hzero : uint64 n = 0 ↔ n % 2 ^ 64 = 0 := by
    rw [uint64]
    omega
  constructor
  · intro hlaw hmod
    -- no extra-data, and a snapshot in memory
    obtain ⟨snap, hsnap⟩ : ∃ snap, snap = newSnapshot 0 0 0 (ValidatorSet.newSet P [] .roundRobin) := ⟨_, rfl⟩
    obtain ⟨header, hheader⟩ : ∃ header : Header, header = { chain.genesis with number := n, extra := [] } := ⟨_, rfl⟩
    have hnumber : header.number = n := by rw [hheader]
    have hiff := hlaw ⟨fun _ => some snap, fun _ => none, fun _ => none⟩ header [] snap _ hnumber
      (snapshot_of_recent rfl) (by rw [hsnap]; exact nodup_nil)
    rw [verifyCommittedSeals, if_pos (by rw [hnumber, hzero]; exact hmod)] at hiff
    obtain ⟨ist, hext, -⟩ := hiff.mp rfl
    have hextra : header.extra = [] := by rw [hheader]
    have hlen := (extractIstanbulExtra_eq_ok.mp hext).1
    rw [hextra] at hlen
    exact absurd hlen (by decide)
  · intro hmod c header parents snap c' hnumber hsnap hnodup
    rw [verifyCommittedSeals, if_neg (by rw [hnumber, hzero]; exact hmod), hsnap, thread_ok]
    exact checkCommittedSeals_eq_ok hnodup

theorem verifyStandalone_eq_ok : verifyStandalone now header = .ok () ↔
    header.time ≤ now ∧ (∃ ist, extractIstanbulExtra header = .ok ist) ∧
      (header.nonce = 0 ∨ header.nonce = 0xffffffffffffffff ∨ header.nonce = 0) ∧
      header.mixDigest = istanbulDigest ∧ header.uncleHash = nilUncleHash ∧ header.difficulty = 1 := by
  simp only [verifyStandalone, bind_eq_ok, ensure_eq_ok, relabel_eq_ok]
  constructor
  · rintro ⟨-, htime, ist, hext, -, hnonce, -, hmix, -, huncle, hdifficulty⟩
    exact ⟨htime, ⟨ist, hext⟩, hnonce, hmix, huncle, hdifficulty⟩
  · rintro ⟨htime, ⟨ist, hext⟩, hnonce, hmix, huncle, hdifficulty⟩
    exact ⟨(), htime, ist, hext, (), hnonce, (), hmix, (), huncle, hdifficulty⟩

/-! ### Only the committed seals are reported missing

`Verify` goes on after `errEmptyCommittedSeals`, so no other check may return it. -/

theorem ecrecover_ne_empty (cache : AddressCache) (header : Header) :
    (ecrecover P cache header).1 ≠ .error .emptyCommittedSeals := by
  have hrecover : recoverSigner P header ≠ .error .emptyCommittedSeals := by
    rw [recoverSigner]
    cases extractIstanbulExtra header with
    | error => simp
    | ok ist =>
      simp only []
      cases P.recover (Istanbul.hashBytes (sigHash header)) ist.proposerSeal <;> simp
  rw [ecrecover]
  cases cache header.hash with
  | some => simp
  | none =>
    cases hsigner : recoverSigner P header with
    | error =>
      rw [hsigner] at hrecover
      exact hrecover
    | ok => simp

theorem applyHeader_ne_empty (s : Snapshot) (cache : AddressCache) (header : Header) :
    (s.applyHeader P cache header).1 ≠ .error .emptyCommittedSeals := by
  have hsigner := ecrecover_ne_empty (P := P) cache header
  rw [Snapshot.applyHeader_eq, Snapshot.applySigned.eq_def]
  split_ifs
  · simp
  cases hrecover : (ecrecover P cache header).1 with
  | error err =>
    rw [hrecover] at hsigner
    have herr : err ≠ .emptyCommittedSeals := by simpa using hsigner
    simpa using herr
  | ok validator =>
    simp only []
    cases s.valSet.getByAddress validator with
    | none => simp
    | some =>
      simp only [Snapshot.recordVote]
      cases voteOfNonce header.nonce <;> simp

theorem applyHeaders_ne_empty (s : Snapshot) (cache : AddressCache) (headers : List Header) :
    (Snapshot.applyHeaders P s cache headers).1 ≠ .error .emptyCommittedSeals := by
  induction headers generalizing s cache with
  | nil => simp [Snapshot.applyHeaders]
  | cons header _ ih =>
    have hheader := applyHeader_ne_empty (P := P) s cache header
    rw [Snapshot.applyHeaders]
    rcases hrun : s.applyHeader P cache header with ⟨err | mid, cache'⟩
    · rw [hrun] at hheader
      exact hheader
    · exact ih mid cache'

theorem apply_ne_empty (s : Snapshot) (cache : AddressCache) (headers : List Header) :
    (s.apply P cache headers).1 ≠ .error .emptyCommittedSeals := by
  cases headers with
  | nil => simp [Snapshot.apply]
  | cons first rest =>
    have hloop := applyHeaders_ne_empty (P := P) (s.copy P) cache (first :: rest)
    rw [Snapshot.apply]
    rcases hrun : Snapshot.applyHeaders P (s.copy P) cache (first :: rest) with ⟨err | mid, cache'⟩
    · rw [hrun] at hloop
      split_ifs <;> first | exact hloop | simp
    · split_ifs <;> simp

theorem verifyStandalone_ne_empty (now : ℤ) (header : Header) :
    verifyStandalone now header ≠ .error .emptyCommittedSeals := by
  refine bind_ne_error (ensure_ne_error (by decide)) fun _ => ?_
  refine bind_ne_error (relabel_ne_error (by simp)) fun _ => ?_
  refine bind_ne_error (ensure_ne_error (by decide)) fun _ => ?_
  refine bind_ne_error (ensure_ne_error (by decide)) fun _ => ?_
  refine bind_ne_error (ensure_ne_error (by decide)) fun _ => ?_
  exact ensure_ne_error (by decide)

theorem genesisSnapshot_ne_empty (P : Primitives) (config : Config) (now : ℤ) (chain : Chain) :
    genesisSnapshot P config now chain ≠ .error .emptyCommittedSeals := by
  refine bind_ne_error (verifyStandalone_ne_empty now chain.genesis) fun _ => ?_
  exact bind_ne_error (relabel_ne_error (by simp)) fun _ => by simp [pure, Except.pure]

theorem locate_ne_empty (P : Primitives) (config : Config) (now : ℤ) (chain : Chain) (c : Caches) (number : ℕ)
    (hash : Hash) (parents headers : List Header) :
    locate P config now chain c number hash parents headers ≠ .error .emptyCommittedSeals := by
  have hgenesis := genesisSnapshot_ne_empty P config now chain
  induction number generalizing hash parents headers with
  | zero =>
    rw [locate.eq_def]
    cases c.recents hash with
    | some => simp
    | none =>
      simp only []
      split
      · simp
      · cases hg : genesisSnapshot P config now chain with
        | error =>
          rw [hg] at hgenesis
          simpa using hgenesis
        | ok => simp
  | succ number ih =>
    rw [locate.eq_def]
    cases c.recents hash with
    | some => simp
    | none =>
      simp only []
      split
      · simp
      · cases gather chain (number + 1) hash parents with
        | none => simp
        | some p => exact ih p.1.parentHash p.2 (headers ++ [p.1])

theorem parentSnapshot_ne_empty (P : Primitives) (config : Config) (now : ℤ) (chain : Chain) (c : Caches)
    (header : Header) (parents : List Header) :
    (parentSnapshot P config now chain c header parents).1 ≠ .error .emptyCommittedSeals := by
  rw [parentSnapshot, snapshot]
  cases hloc : locate P config now chain c (pred (uint64 header.number)) header.parentHash parents [] with
  | error =>
    have hwalk := locate_ne_empty P config now chain c (pred (uint64 header.number)) header.parentHash parents []
    rw [hloc] at hwalk
    simpa using hwalk
  | ok r =>
    obtain ⟨base, headers, db⟩ := r
    have happly := apply_ne_empty (P := P) base c.recentAddresses headers.reverse
    simp only []
    rcases hrun : base.apply P c.recentAddresses headers.reverse with ⟨err | snap, cache⟩
    · rw [hrun] at happly
      exact happly
    · simp

theorem checkParent_ne_empty (config : Config) (chain : Chain) (header : Header) (parents : List Header) :
    checkParent config chain header parents ≠ .error .emptyCommittedSeals := by
  rw [checkParent]
  cases parentOf chain header parents with
  | none => simp
  | some =>
    simp only []
    split_ifs <;> simp

/-! ### Accepted headers -/

/-- All checks pass, but perhaps that of the committed seals. -/
structure Passes (P : Primitives) (config : Config) (now : ℤ) (chain : Chain) (c : Caches) (header : Header)
    (parents : List Header) (snap : Snapshot) (c' : Caches) (signer : Address) : Prop where
  standalone : verifyStandalone now header = .ok ()
  parent : checkParent config chain header parents = .ok ()
  snapshot : parentSnapshot P config now chain c header parents = (.ok snap, c')
  signed : (ecrecover P c'.recentAddresses header).1 = .ok signer
  signer_mem : signer ∈ snap.valSet.addresses

theorem verifySigner_again {snap : Snapshot} {c' : Caches} (hz : uint64 header.number ≠ 0)
    (h : parentSnapshot P config now chain c header parents = (.ok snap, c')) :
    ∃ c₁ c₂, verifySigner P config now chain c' header parents =
        ((ecrecover P c'.recentAddresses header).1 >>= fun signer =>
          ensure (signer ∈ snap.valSet.addresses) .unauthorized, c₁) ∧
      parentSnapshot P config now chain c₁ header parents = (.ok snap, c₂) := by
  obtain ⟨c'', hagain, haddresses⟩ := snapshot_again h c'.recentAddresses
  obtain ⟨c₂, hlast, -⟩ := snapshot_again hagain (ecrecover P c'.recentAddresses header).2
  refine ⟨_, c₂, ?_, hlast⟩
  rw [verifySigner, if_neg hz, parentSnapshot]
  replace hagain : snapshot P config now chain c' (pred (uint64 header.number)) header.parentHash parents
    = (.ok snap, c'') := hagain
  rw [hagain, thread_ok, haddresses]
  rcases ecrecover P c'.recentAddresses header with ⟨err | signer, cache⟩
  · rfl
  · simp only [thread_ok]
    cases hget : snap.valSet.getByAddress signer with
    | none =>
      have hmem := ValidatorSet.getByAddress_eq_none.mp hget
      simp [bind, Except.bind, ensure, hmem]
    | some =>
      have hmem := ValidatorSet.mem_of_getByAddress hget
      simp [bind, Except.bind, ensure, hmem]

theorem Passes.verifyHeader_fst {snap : Snapshot} {c' : Caches} {signer : Address}
    (h : Passes P config now chain c header parents snap c' signer) (hz : uint64 header.number ≠ 0) :
    (verifyHeader P config now chain c header parents).1 = checkCommittedSeals P snap.valSet header := by
  obtain ⟨c₁, c₂, hsigner, hlast⟩ := verifySigner_again hz h.snapshot
  have hok : ((ecrecover P c'.recentAddresses header).1 >>= fun signer =>
      ensure (signer ∈ snap.valSet.addresses) Err.unauthorized) = .ok () := by
    rw [bind_eq_ok]
    exact ⟨signer, h.signed, ensure_eq_ok.mpr h.signer_mem⟩
  rw [hok] at hsigner
  rw [verifyHeader, h.standalone, thread_ok, verifyCascadingFields, if_neg hz, h.parent, thread_ok, h.snapshot,
    thread_ok, hsigner, thread_ok, verifyCommittedSeals, if_neg hz, hlast, thread_ok]

theorem passes_of_accepted (hz : uint64 header.number ≠ 0)
    (h : (verifyHeader P config now chain c header parents).1 = .ok () ∨
      (verifyHeader P config now chain c header parents).1 = .error .emptyCommittedSeals) :
    ∃ snap c' signer, Passes P config now chain c header parents snap c' signer := by
  rw [verifyHeader] at h
  cases hstandalone : verifyStandalone now header with
  | error =>
    have hne := verifyStandalone_ne_empty now header
    rw [hstandalone, thread_error] at h
    rcases h with h | h
    · cases h
    · exact absurd (hstandalone.trans h) hne
  | ok =>
  rw [hstandalone, thread_ok, verifyCascadingFields, if_neg hz] at h
  cases hparent : checkParent config chain header parents with
  | error =>
    have hne := checkParent_ne_empty config chain header parents
    rw [hparent, thread_error] at h
    rcases h with h | h
    · cases h
    · exact absurd (hparent.trans h) hne
  | ok =>
  rw [hparent, thread_ok] at h
  rcases hsnap : parentSnapshot P config now chain c header parents with ⟨err | snap, c'⟩
  · have hne := parentSnapshot_ne_empty P config now chain c header parents
    rw [hsnap] at h hne
    rcases h with h | h
    · cases h
    · exact absurd (congrArg Except.error (Except.error.inj h)) hne
  · rw [hsnap, thread_ok] at h
    obtain ⟨c₁, c₂, hsigner, -⟩ := verifySigner_again hz hsnap
    rw [hsigner] at h
    have hne := ecrecover_ne_empty (P := P) c'.recentAddresses header
    cases hrecover : (ecrecover P c'.recentAddresses header).1 with
    | error =>
      rw [hrecover] at h hne
      rcases h with h | h
      · cases h
      · exact absurd (congrArg Except.error (Except.error.inj h)) hne
    | ok signer =>
      rw [hrecover] at h
      by_cases hmem : signer ∈ snap.valSet.addresses
      · exact ⟨snap, c', signer, hstandalone, hparent, hsnap, hrecover, hmem⟩
      · simp [bind, Except.bind, ensure, hmem] at h

/-- The headers that play a part when `header` is verified. -/
def Involved (chain : Chain) (header : Header) (parents : List Header) : Set Header :=
  insert header (Readable chain parents)

/-- A header of number `n` that is not the genesis header is accepted, in a batch or alone; alone it may lack the
committed seals, as `Verify` tolerates that. Its parent, if there is one, has number `p`. No two of the
headers that play a part have the same hash and different signers, and the cache knows the signers. -/
structure Accepted (P : Primitives) (n p : ℤ) (config : Config) (now : ℤ) (chain : Chain) (c : Caches)
    (header : Header) (parents : List Header) : Prop where
  number : header.number = n
  parent : ∀ parent, parentOf chain header parents = some parent → parent.number = p
  ne_genesis : header ≠ chain.genesis
  fixes : Snapshot.HashFixesSigner P (Involved chain header parents)
  knows : Snapshot.KnowsSigners P (Involved chain header parents) c.recentAddresses
  accepts : (verifyHeader P config now chain c header parents).1 = .ok () ∨
    parents = [] ∧ (verifyHeader P config now chain c header parents).1 = .error .emptyCommittedSeals

theorem Passes.recoverSigner_eq {snap : Snapshot} {c' : Caches} {signer : Address}
    (h : Passes P config now chain c header parents snap c' signer)
    (hfix : Snapshot.HashFixesSigner P (Involved chain header parents))
    (hknows : Snapshot.KnowsSigners P (Involved chain header parents) c.recentAddresses) :
    recoverSigner P header = .ok signer := by
  have hafter : Snapshot.KnowsSigners P (Involved chain header parents)
      (parentSnapshot P config now chain c header parents).2.recentAddresses :=
    knowsSigners_snapshot hknows hfix (Set.subset_insert ..)
  rw [h.snapshot] at hafter
  rw [← hafter.ecrecover_fst (Set.mem_insert ..)]
  exact h.signed

theorem checkParent_eq_ok : checkParent config chain header parents = .ok () ↔
    ∃ parent, parentOf chain header parents = some parent ∧ uint64 parent.number = pred (uint64 header.number) ∧
      parent.hash = header.parentHash ∧
      (uint64 parent.time + config.blockPeriod) % 2 ^ 64 ≤ uint64 header.time := by
  rw [checkParent]
  cases parentOf chain header parents with
  | none => simp
  | some =>
    simp only [Option.some.injEq, exists_eq_left']
    split_ifs with hbad htime
    · simp only [false_iff]
      rintro ⟨hnumber, hhash, -⟩
      exact hbad.elim (· hnumber) (· hhash)
    · simp only [false_iff]
      rintro ⟨-, -, hle⟩
      exact absurd hle (not_le.mpr htime)
    · rw [not_or, not_not, not_not] at hbad
      simp only [true_iff]
      exact ⟨hbad.1, hbad.2, not_lt.mp htime⟩

/-! A header of any number, on top of any block, that one validator has signed. -/

def bareHeader (number : ℤ) (parentHash : Hash) : Header where
  parentHash := parentHash
  uncleHash := nilUncleHash
  coinbase := 0
  root := 0
  txHash := 0
  receiptHash := 0
  bloom := 0
  difficulty := 1
  number := number
  gasLimit := 0
  gasUsed := 0
  time := 0
  extra := replicate istanbulExtraVanity 0 ++ IstanbulExtra.encodeRLP ⟨[], [], []⟩
  mixDigest := istanbulDigest
  nonce := 0

def signedHeader (P : Primitives) (a : Address) (number : ℤ) (parentHash : Hash) : Header :=
  (bareHeader number parentHash).withExtra
    ⟨[], P.sign a (Istanbul.hashBytes (sigHash (bareHeader number parentHash))), []⟩

section Signed

variable (P) (a : Address) (number : ℤ) (parentHash : Hash)

theorem length_signedHeader : (signedHeader P a number parentHash).extra.length < 2 ^ 64 := by
  have hzeros : (replicate istanbulExtraSeal (0 : UInt8)).length = istanbulExtraSeal := length_replicate
  have hlen := IstanbulExtra.length_encodeRLP_congr []
    (P.length_sign a (Istanbul.hashBytes (sigHash (bareHeader number parentHash)))) hzeros
  have hconst : (IstanbulExtra.encodeRLP ⟨[], replicate istanbulExtraSeal 0, []⟩).length = 71 := by
    decide +kernel
  rw [hconst] at hlen
  have htake : ((bareHeader number parentHash).extra.take istanbulExtraVanity).length ≤ 32 := by
    rw [length_take]
    exact Nat.min_le_left ..
  rw [signedHeader, Header.withExtra, length_append, hlen]
  omega

theorem extract_bareHeader : extractIstanbulExtra (bareHeader number parentHash) = .ok ⟨[], [], []⟩ := by
  have hlen : istanbulExtraVanity ≤
      (replicate istanbulExtraVanity (0 : UInt8) ++ IstanbulExtra.encodeRLP ⟨[], [], []⟩).length := by
    simp
  have hdec : IstanbulExtra.decodeRLP
      ((replicate istanbulExtraVanity 0 ++ IstanbulExtra.encodeRLP ⟨[], [], []⟩).drop istanbulExtraVanity)
      = some ⟨[], [], []⟩ := by
    decide +kernel
  exact extractIstanbulExtra_eq_ok.mpr ⟨hlen, hdec⟩

theorem extract_signedHeader : extractIstanbulExtra (signedHeader P a number parentHash) =
    .ok ⟨[], P.sign a (Istanbul.hashBytes (sigHash (bareHeader number parentHash))), []⟩ :=
  extract_withExtra (extractIstanbulExtra_eq_ok.mp (extract_bareHeader number parentHash)).1
    (length_signedHeader P a number parentHash)

theorem recoverSigner_signedHeader : recoverSigner P (signedHeader P a number parentHash) = .ok a := by
  have hsig : sigHash (signedHeader P a number parentHash) = sigHash (bareHeader number parentHash) :=
    congrArg keccak256 (sigPreimage_withExtra (extract_bareHeader number parentHash) rfl
      (length_signedHeader P a number parentHash))
  rw [recoverSigner, extract_signedHeader, hsig]
  simp only [P.recover_sign]

theorem verifyStandalone_signedHeader : verifyStandalone 0 (signedHeader P a number parentHash) = .ok () := by
  rw [verifyStandalone_eq_ok]
  exact ⟨le_refl _, ⟨_, extract_signedHeader P a number parentHash⟩, .inl rfl, rfl, rfl, rfl⟩

def unsignedGenesis : Header := { bareHeader 0 0 with coinbase := 1 }

theorem signedHeader_ne_genesis : signedHeader P a number parentHash ≠ unsignedGenesis := by
  intro heq
  have hcoinbase : (0 : Address) = 1 := congrArg Header.coinbase heq
  exact absurd hcoinbase (by decide)

def chainOf (header : Header) : Chain where
  getHeader hash _ := if header.hash = hash then some header else none
  hash_getHeader h := by
    split_ifs at h with hhash
    rw [← Option.some.inj h, hhash]
  genesis := unsignedGenesis
  genesis_number := rfl

theorem fixes_signedHeader (k : ℤ) (hash : Hash) {parents : List Header}
    (hparents : ∀ h ∈ parents, h = signedHeader P a k hash) : Snapshot.HashFixesSigner P
      (Involved (chainOf (signedHeader P a k hash)) (signedHeader P a number parentHash) parents) := by
  have hsigner : ∀ h ∈ Involved (chainOf (signedHeader P a k hash)) (signedHeader P a number parentHash) parents,
      recoverSigner P h = .ok a := by
    rintro h (rfl | hread | ⟨hash', i, hread⟩)
    · exact recoverSigner_signedHeader P a number parentHash
    · rw [hparents h hread]
      exact recoverSigner_signedHeader P a k hash
    · replace hread : (if (signedHeader P a k hash).hash = hash' then some (signedHeader P a k hash) else none)
        = some h := hread
      split_ifs at hread
      rw [← Option.some.inj hread]
      exact recoverSigner_signedHeader P a k hash
  exact fun h hh h' hh' _ => (hsigner h hh).trans (hsigner h' hh').symm

theorem accepted_multiple {n : ℤ} (hz : uint64 n = 0) (p : ℤ) :
    Accepted P n p ⟨0, .roundRobin, 1⟩ 0 (chainOf (signedHeader P a p 0))
      ⟨fun _ => none, fun _ => none, fun _ => none⟩ (signedHeader P a n parentHash) [signedHeader P a p 0] where
  number := rfl
  parent parent hparent := by rw [← Option.some.inj hparent]; rfl
  ne_genesis := signedHeader_ne_genesis P a n parentHash
  fixes := fixes_signedHeader P a n parentHash p 0 (by simp)
  knows := Snapshot.knowsSigners_empty
  accepts := by
    left
    rw [verifyHeader, verifyStandalone_signedHeader, thread_ok, verifyCascadingFields, if_pos (by exact hz)]

theorem passes_signedHeader {p n : ℤ} (hnext : uint64 p + 1 = uint64 n) {snap : Snapshot}
    (hsnap : snap.valSet = ValidatorSet.newSet P [a] .roundRobin) :
    ∃ c', Passes P ⟨0, .roundRobin, 1⟩ 0 (chainOf (signedHeader P a p 0))
      ⟨fun _ => some snap, fun _ => none, fun _ => none⟩
      (signedHeader P a n (signedHeader P a p 0).hash) [] snap c' a := by
  have hpred : pred (uint64 n) = uint64 p := by
    have hlt : uint64 n < 2 ^ 64 := Nat.mod_lt _ (by norm_num)
    rw [pred]
    omega
  refine ⟨_, verifyStandalone_signedHeader .., ?_, snapshot_of_recent rfl, ?_, ?_⟩
  · refine checkParent_eq_ok.mpr ⟨signedHeader P a p 0, if_pos rfl, hpred.symm, rfl, ?_⟩
    show (0 % 2 ^ 64 + 0) % 2 ^ 64 ≤ _
    exact Nat.zero_le _
  · exact (Snapshot.knowsSigners_empty.ecrecover_fst (Set.mem_univ _)).trans (recoverSigner_signedHeader ..)
  · rw [hsnap]
    exact mem_singleton.mpr rfl

theorem accepted_offset {p n : ℤ} (hz : uint64 n ≠ 0) (hnext : uint64 p + 1 = uint64 n) {snap : Snapshot}
    (hsnap : snap.valSet = ValidatorSet.newSet P [a] .roundRobin) :
    Accepted P n p ⟨0, .roundRobin, 1⟩ 0 (chainOf (signedHeader P a p 0))
      ⟨fun _ => some snap, fun _ => none, fun _ => none⟩
      (signedHeader P a n (signedHeader P a p 0).hash) [] where
  number := rfl
  parent parent hparent := by
    replace hparent : (if (signedHeader P a p 0).hash = (signedHeader P a p 0).hash then
      some (signedHeader P a p 0) else none) = some parent := hparent
    rw [if_pos rfl] at hparent
    rw [← Option.some.inj hparent]
    rfl
  ne_genesis := signedHeader_ne_genesis P a n _
  fixes := fixes_signedHeader P a n _ p 0 (by simp)
  knows := Snapshot.knowsSigners_empty
  accepts := by
    right
    obtain ⟨c', hpasses⟩ := passes_signedHeader P a hnext hsnap
    rw [hpasses.verifyHeader_fst hz, checkCommittedSeals, extract_signedHeader]
    exact ⟨rfl, rfl⟩

end Signed

/-- **Links and signatures.** Headers of number `n` whose parent has number `p` are accepted only if they are
linked to the parent and signed by a validator of its snapshot, exactly if `n` is no multiple of
`2 ^ 64` and is `p + 1` where it is so modulo `2 ^ 64`. -/
theorem accepted_linked_iff (P : Primitives) (n p : ℤ) :
    (∀ config now chain c header parents, Accepted P n p config now chain c header parents →
      ∃ parent snap signer, parentOf chain header parents = some parent ∧ header.number = parent.number + 1 ∧
        header.parentHash = parent.hash ∧ (parentSnapshot P config now chain c header parents).1 = .ok snap ∧
        recoverSigner P header = .ok signer ∧ signer ∈ snap.valSet.addresses) ↔
      uint64 n ≠ 0 ∧ (uint64 p + 1 = uint64 n → p + 1 = n) := by
  constructor
  · intro hlaw
    constructor
    · -- in a batch behind a header that is not its parent
      intro hz
      obtain ⟨parent, -, -, hfound, -, hhash, -⟩ := hlaw _ _ _ _ _ _
        (accepted_multiple P 0 ((signedHeader P 0 p 0).hash + 1) hz p)
      rw [← Option.some.inj hfound] at hhash
      replace hhash : (signedHeader P 0 p 0).hash + 1 = (signedHeader P 0 p 0).hash := hhash
      bv_omega
    · intro hnext
      by_cases hz : uint64 n = 0
      · omega
      · have haccepted := accepted_offset P 0 hz hnext
          (show (newSnapshot 1 0 0 (ValidatorSet.newSet P [0] .roundRobin)).valSet = _ from rfl)
        obtain ⟨parent, -, -, hfound, hnumber, -⟩ := hlaw _ _ _ _ _ _ haccepted
        rw [haccepted.number, haccepted.parent parent hfound] at hnumber
        exact hnumber.symm
  · rintro ⟨hz, hnext⟩ config now chain c header parents h
    obtain rfl := h.number
    obtain ⟨snap, c', signer, hpasses⟩ := passes_of_accepted hz (h.accepts.imp_right And.right)
    obtain ⟨parent, hfound, hnumber, hhash, -⟩ := checkParent_eq_ok.mp hpasses.parent
    have hp := h.parent parent hfound
    have hpred := pred_uint64 hz
    rw [← hnumber, hp] at hpred
    refine ⟨parent, snap, signer, hfound, ?_, hhash.symm, by rw [hpasses.snapshot],
      hpasses.recoverSigner_eq h.fixes h.knows, hpasses.signer_mem⟩
    rw [hp]
    exact (hnext hpred).symm

end Engine

namespace Sample

attribute [local instance] keccak

def committed (signers : List Address) (h : Header) : Header :=
  (writeCommittedSeals h (signers.map fun a => Istanbul.Sample.sign a (prepareCommittedSeal h.hash))).toOption.getD h

def noCaches : Caches := ⟨fun _ => none, fun _ => none, fun _ => none⟩

/-- Three of the four validators have sealed the header of block one. -/
theorem committed_seals_exact_iff_first :
    (verifyCommittedSeals primitives config 5 chain noCaches (committed [1, 2, 3] first) []).1 = .ok () := by
  have hok : (parentSnapshot primitives config 5 chain noCaches (committed [1, 2, 3] first) []).1.map
      (fun s => s.valSet.addresses) = .ok [1, 2, 3, 4] := by decide +kernel
  have hext : extractIstanbulExtra (committed [1, 2, 3] first) = .ok
      ⟨[1, 2, 3, 4], Istanbul.Sample.sign 1 (Istanbul.hashBytes (sigHash first)),
        [1, 2, 3].map fun a => Istanbul.Sample.sign a (prepareCommittedSeal first.hash)⟩ := by decide +kernel
  rcases hsnap : parentSnapshot primitives config 5 chain noCaches (committed [1, 2, 3] first) [] with ⟨err | snap, c'⟩
  · rw [hsnap] at hok
    cases hok
  · rw [hsnap] at hok
    have haddresses : snap.valSet.addresses = [1, 2, 3, 4] := Except.ok.inj hok
    have hiff := (committed_seals_exact_iff primitives config 5 chain 1 (by decide)).mpr (by decide) noCaches
      (committed [1, 2, 3] first) [] snap c' (by decide +kernel) hsnap (by rw [haddresses]; decide)
    have hhash : (committed [1, 2, 3] first).hash = first.hash := by decide +kernel
    refine hiff.mpr ⟨_, hext, by simp, ?_, by decide +kernel, ?_⟩
    · intro s hs
      obtain ⟨a, ha, rfl⟩ := mem_map.mp hs
      rw [haddresses, hhash]
      exact ⟨a, mem_append_left [4] ha, primitives.recover_sign a _⟩
    · rw [ValidatorSet.F_eq, ← ValidatorSet.length_addresses, haddresses]
      decide

/-- A header of number `2 ^ 64` without committed seals. -/
theorem multiple_needs_no_seals : let h := { first with number := 2 ^ 64 }
    (verifyCommittedSeals primitives config 5 chain noCaches h []).1 = .ok () ∧
      (extractIstanbulExtra h).map (·.committedSeal) = .ok [] := by
  decide +kernel

/-- The number is one more only modulo `2 ^ 64`, and the committed seals are all that is missing. -/
theorem accepts_offset_number : let h := signed 1 { header genesisHeader.hash (1 + 2 ^ 64) [1, 2, 3, 4] with
      uncleHash := nilUncleHash, time := 1 }
    (verifyHeader primitives config 5 chain noCaches h []).1 = .error .emptyCommittedSeals ∧
      parentOf chain h [] = some genesisHeader ∧ h.number ≠ genesisHeader.number + 1 := by
  decide +kernel

end Sample

end GoWanchain.Backend
