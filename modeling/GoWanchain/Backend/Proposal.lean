import GoWanchain.Backend.Engine

/-!
# What a validator proposes

`Prepare`, `Finalize` and `Seal` of `consensus/istanbul/backend/engine.go`, and `Verify` of `backend.go`, which
another node runs on what they make. Nothing but the committed seals is missing there
(`honest_proposal_iff`), as long as the timestamp that follows from the period does not wrap: `Prepare`
reads it as an `int64` when it compares it with the clock, and takes the clock instead of a time that is
in the far future.
-/

namespace GoWanchain.Backend

open Types List
open State (Keccak keccak256)
open Istanbul (Primitives ValidatorSet)

/-- `types.Block`, with the receiver's cached values left out. -/
structure Block (Tx : Type) where
  header : Header
  transactions : List Tx
  uncles : List Header

/-- `DeriveSha` of transactions and of receipts, and `CreateBloom`. -/
structure Derivations (Tx Receipt : Type) where
  txSha : List Tx → Hash
  receiptSha : List Receipt → Hash
  createBloom : List Receipt → BitVec 2048

section Blocks

variable [Keccak] {Tx Receipt : Type} (D : Derivations Tx Receipt)

def Derivations.emptyRootHash : Hash := D.txSha []

def calcUncleHash (uncles : List Header) : Hash :=
  keccak256 (if ∀ h ∈ uncles, h.Encodable then headerCodec.many.list.enc (uncles.map Header.fields) else [])

def newBlock (header : Header) (txs : List Tx) (uncles : List Header) (receipts : List Receipt) : Block Tx where
  header := { header with
    txHash := if txs.isEmpty then D.emptyRootHash else D.txSha txs
    receiptHash := if receipts.isEmpty then D.emptyRootHash else D.receiptSha receipts
    bloom := if receipts.isEmpty then header.bloom else D.createBloom receipts
    uncleHash := if uncles.isEmpty then calcUncleHash [] else calcUncleHash uncles }
  transactions := txs
  uncles := uncles

/-- `Finalize`; `root` is the intermediate root of the state. -/
def finalize (header : Header) (root : Hash) (txs : List Tx) (receipts : List Receipt) : Block Tx :=
  newBlock D { header with root, uncleHash := nilUncleHash } txs [] receipts

end Blocks

/-! ### The vote and the timestamp -/

/-- The vote for one of the candidates that the snapshot has a use for. `pick` is the random number. -/
def pickCandidate (snap : Snapshot) (candidates : GoMap Address Bool) (pick : ℕ) (header : Header) : Header :=
  let votes := (GoMap.toList candidates).filter fun v => snap.checkVote v.1 v.2
  match votes[pick % votes.length]? with
  | none => header
  | some (address, authorize) =>
    { header with coinbase := address, nonce := if authorize then 0xffffffffffffffff else 0 }

theorem pickCandidate_eq (snap : Snapshot) (candidates : GoMap Address Bool) (pick : ℕ) {header : Header}
    (hnonce : header.nonce = 0) : ∃ coinbase nonce, (nonce = 0 ∨ nonce = 0xffffffffffffffff) ∧
      pickCandidate snap candidates pick header = { header with coinbase, nonce } := by
  simp only [pickCandidate]
  split
  · exact ⟨header.coinbase, header.nonce, .inl hnonce, rfl⟩
  · rename_i address authorize _
    refine ⟨address, _, ?_, rfl⟩
    cases authorize
    · exact .inl rfl
    · exact .inr rfl

/-- The timestamp of the block after `parent`. The clock shows `now` when it is compared and `now'` when it is
taken. -/
def nextTime (config : Config) (now now' : ℤ) (parent : Header) : ℤ :=
  let time := parent.time + config.blockPeriod
  if int64 time < now then now' else time

theorem le_nextTime {config : Config} {now now' : ℤ} (hnow : now ≤ now') {parent : Header}
    (hparent : 0 ≤ parent.time) : now ≤ nextTime config now now' parent := by
  simp only [nextTime, int64, Int.bmod]
  split_ifs <;> omega

theorem nextTime_valid_iff {config : Config} {now now' : ℤ} (h0 : 0 ≤ now) (hnow : now ≤ now')
    (hint64 : now' < 2 ^ 63) {parent : Header} (hparent : 0 ≤ parent.time) :
    (uint64 parent.time + config.blockPeriod) % 2 ^ 64 ≤ uint64 (nextTime config now now' parent) ↔
      0 ≤ int64 (parent.time + config.blockPeriod) := by
  simp only [nextTime, uint64, int64, Int.bmod]
  split_ifs <;> omega

/-! ### Extra-data that fits

The extra-data of a header with these validators and a seal has less bytes than a slice can have. -/

def Fitting (vals : List Address) : Prop :=
  istanbulExtraVanity + (IstanbulExtra.encodeRLP ⟨vals, replicate istanbulExtraSeal 0, []⟩).length < 2 ^ 64

theorem extract_prepareExtra {h : Header} (g : Header) {vals : List Address} (hfits : Fitting vals)
    (hextra : h.extra = prepareExtra g vals) : extractIstanbulExtra h = .ok ⟨vals, [], []⟩ := by
  have hle := IstanbulExtra.length_encodeRLP_le ⟨vals, replicate istanbulExtraSeal 0, []⟩ [] (.inr rfl)
  have htake : ((g.extra ++ replicate (istanbulExtraVanity - g.extra.length) 0).take
      istanbulExtraVanity).length = istanbulExtraVanity := by
    rw [length_take, length_append, length_replicate]
    omega
  rw [extractIstanbulExtra_eq_ok, hextra]
  refine ⟨length_prepareExtra g vals, ?_⟩
  rw [prepareExtra, drop_left' htake]
  refine IstanbulExtra.decodeRLP_encodeRLP _ ?_
  rw [Fitting] at hfits
  exact hle.trans_lt (by omega)

theorem length_sealed {h : Header} (hlen : istanbulExtraVanity ≤ h.extra.length) {vals : List Address}
    (hfits : Fitting vals) {proposerSeal : Bytes} (hseal : proposerSeal.length = istanbulExtraSeal) :
    (h.withExtra ⟨vals, proposerSeal, []⟩).extra.length < 2 ^ 64 := by
  have hzeros : (replicate istanbulExtraSeal (0 : UInt8)).length = istanbulExtraSeal := length_replicate
  rw [Header.withExtra, length_append, length_take, min_eq_left hlen,
    IstanbulExtra.length_encodeRLP_congr vals hseal hzeros]
  exact hfits

/-! ### Making a block -/

section Proposal

variable [Keccak] {Tx Receipt : Type} (D : Derivations Tx Receipt) (P : Primitives) (config : Config) (chain : Chain)

def prepare (now now' : ℤ) (candidates : GoMap Address Bool) (pick : ℕ) (c : Caches) (header : Header) :
    Except Err Header × Caches :=
  let number := uint64 header.number
  let header := { header with coinbase := 0, nonce := 0, mixDigest := istanbulDigest }
  match chain.getHeader header.parentHash (pred number) with
  | none => (.error .unknownAncestor, c)
  | some parent =>
    let header := { header with difficulty := 1 }
    thread (snapshot P config now chain c (pred number) header.parentHash []) fun snap c =>
      let header := pickCandidate snap candidates pick header
      let header := { header with extra := prepareExtra header snap.validators }
      (.ok { header with time := nextTime config now now' parent }, c)

/-- `updateBlock` of the validator `address`. -/
def updateBlock (address : Address) (block : Block Tx) : Except Err (Block Tx) := do
  let header ← writeSeal block.header (P.sign address (Istanbul.hashBytes (sigHash block.header)))
  return { block with header }

/-- `Seal` of the validator `address`, up to the block that it posts. -/
def sealBlock (now : ℤ) (address : Address) (c : Caches) (block : Block Tx) : Except Err (Block Tx) × Caches :=
  let number := uint64 block.header.number
  thread (snapshot P config now chain c (pred number) block.header.parentHash []) fun snap c =>
    match snap.valSet.getByAddress address with
    | none => (.error .unauthorized, c)
    | some _ =>
      match chain.getHeader block.header.parentHash (pred number) with
      | none => (.error .unknownAncestor, c)
      | some _ => (updateBlock P address block, c)

/-- `Verify` of a node that knows of bad blocks. The time to wait for a block of the future is left out. -/
def verify (now : ℤ) (hasBadProposal : Hash → Bool) (c : Caches) (block : Block Tx) : Except Err Unit × Caches :=
  if hasBadProposal block.header.hash then (.error .blacklistedHash, c)
  else if D.txSha block.transactions ≠ block.header.txHash then (.error .mismatchTxhashes, c)
  else if calcUncleHash block.uncles ≠ nilUncleHash then (.error .invalidUncleHash, c)
  else
    match verifyHeader P config now chain c block.header [] with
    | (.error .emptyCommittedSeals, c) => (.ok (), c)
    | r => r

variable {D P config chain}

/-! ### What comes out -/

/-- The chain, with the headers above the genesis block, ends with `parent`. -/
structure EndsWith (P : Primitives) (chain : Chain) (headers : List Header) (parent : Header) : Prop where
  linked : Linked chain headers
  stored : Stored chain headers
  fixes : Snapshot.HashFixesSigner P {h | h ∈ headers}
  known : chain.getHeader (Snapshot.tip chain.genesis.hash headers) headers.length = some parent
  number : uint64 parent.number = headers.length
  number_nonneg : 0 ≤ parent.number
  time_nonneg : 0 ≤ parent.time

theorem genesisSnapshot_later {now later : ℤ} (hle : now ≤ later) {g : Snapshot}
    (h : genesisSnapshot P config now chain = .ok g) : genesisSnapshot P config later chain = .ok g := by
  rw [genesisSnapshot, bind_eq_ok] at h ⊢
  obtain ⟨u, hstandalone, hrest⟩ := h
  refine ⟨u, ?_, hrest⟩
  obtain ⟨htime, hchecks⟩ := verifyStandalone_eq_ok.mp hstandalone
  exact verifyStandalone_eq_ok.mpr ⟨htime.trans hle, hchecks⟩

theorem snapshotOf_later {now later : ℤ} (hle : now ≤ later) {headers : List Header} {s : Snapshot}
    (h : snapshotOf P config now chain headers = .ok s) : snapshotOf P config later chain headers = .ok s := by
  rw [snapshotOf, bind_eq_ok] at h ⊢
  obtain ⟨g, hg, happly⟩ := h
  exact ⟨g, genesisSnapshot_later hle hg, happly⟩

section Made

variable {headers : List Header} {parent : Header}

section

variable (h : EndsWith P chain headers parent)

include h

theorem EndsWith.hash : parent.hash = Snapshot.tip chain.genesis.hash headers :=
  chain.hash_getHeader h.known

theorem EndsWith.pred_number : pred (uint64 (parent.number + 1)) = headers.length := by
  have hnumber := h.number
  have hnonneg := h.number_nonneg
  simp only [pred, uint64] at hnumber ⊢
  omega

theorem EndsWith.getHeader : chain.getHeader parent.hash (pred (uint64 (parent.number + 1))) = some parent := by
  rw [h.pred_number, h.hash]
  exact h.known

end

variable {now : ℤ} {c : Caches} {s : Snapshot} {header : Header} {a : Address}

theorem EndsWith.snapshot (h : EndsWith P chain headers parent) (hsound : c.Sound P config now chain headers)
    (hs : snapshotOf P config now chain headers = .ok s) :
    ∃ snap c', snapshot P config now chain c (pred (uint64 (parent.number + 1))) parent.hash [] = (.ok snap, c') ∧
      snap.SameAs s := by
  have happ := append_nil headers
  have hagree := snapshot_agrees (show Linked chain (headers ++ []) from happ.symm ▸ h.linked)
    (happ.symm ▸ h.fixes) h.stored (happ.symm ▸ hsound)
  rw [happ, hs, ← h.hash, ← h.pred_number] at hagree
  rcases hrun : Backend.snapshot P config now chain c (pred (uint64 (parent.number + 1))) parent.hash []
    with ⟨err | snap, c'⟩
  · rw [hrun] at hagree
    cases hagree
  · rw [hrun] at hagree
    cases hagree with
    | ok hsame => exact ⟨snap, c', rfl, hsame⟩

/-- A header that the worker begins on top of `parent`. -/
structure Begun (parent header : Header) : Prop where
  parentHash : header.parentHash = parent.hash
  number : header.number = parent.number + 1

theorem prepare_eq (h : EndsWith P chain headers parent) {now' : ℤ} {c' : Caches}
    (hbegun : Begun parent header) {snap : Snapshot}
    (hsnap : snapshot P config now chain c (pred (uint64 (parent.number + 1))) parent.hash [] = (.ok snap, c'))
    (candidates : GoMap Address Bool) (pick : ℕ) : ∃ coinbase nonce, (nonce = 0 ∨ nonce = 0xffffffffffffffff) ∧
      prepare P config chain now now' candidates pick c header = (.ok { header with
        coinbase, nonce, mixDigest := istanbulDigest, difficulty := 1,
        extra := prepareExtra header snap.validators, time := nextTime config now now' parent }, c') := by
  obtain ⟨coinbase, nonce, hnonce, hpick⟩ := pickCandidate_eq snap candidates pick
    (show ({ header with coinbase := 0, nonce := 0, mixDigest := istanbulDigest, difficulty := 1 } : Header).nonce = 0
      from rfl)
  have hget := h.getHeader
  rw [← hbegun.number, ← hbegun.parentHash] at hget hsnap
  refine ⟨coinbase, nonce, hnonce, ?_⟩
  simp only [prepare, hget, hsnap, thread_ok, hpick]
  rfl

theorem sealBlock_eq (h : EndsWith P chain headers parent) {c' : Caches} {block : Block Tx}
    (hbegun : Begun parent block.header) {snap : Snapshot}
    (hsnap : snapshot P config now chain c (pred (uint64 (parent.number + 1))) parent.hash [] = (.ok snap, c'))
    (ha : a ∈ snap.valSet.addresses) {ist : IstanbulExtra} (hext : extractIstanbulExtra block.header = .ok ist) :
    sealBlock P config chain now a c block = (.ok { block with
      header := (block.header.withExtra
        { ist with proposerSeal := P.sign a (Istanbul.hashBytes (sigHash block.header)) }) }, c') := by
  have hlen : (P.sign a (Istanbul.hashBytes (sigHash block.header))).length % istanbulExtraSeal = 0 := by
    rw [P.length_sign]
    rfl
  have hget : snap.valSet.getByAddress a ≠ none := fun hnone => ValidatorSet.getByAddress_eq_none.mp hnone ha
  obtain ⟨p, hget⟩ := Option.ne_none_iff_exists'.mp hget
  simp only [sealBlock, hbegun.parentHash, hbegun.number, hsnap, thread_ok, hget, h.getHeader, updateBlock, writeSeal]
  rw [if_neg (not_not.mpr hlen), hext]
  rfl

/-- A header on top of `parent` that `a` has signed and that lacks the committed seals only. -/
structure Proposed (P : Primitives) (parent : Header) (a : Address) (header : Header) : Prop where
  begun : Begun parent header
  extra : ∃ vals proposerSeal, extractIstanbulExtra header = .ok ⟨vals, proposerSeal, []⟩
  signer : recoverSigner P header = .ok a
  nonce : header.nonce = 0 ∨ header.nonce = 0xffffffffffffffff
  mixDigest : header.mixDigest = istanbulDigest
  uncleHash : header.uncleHash = nilUncleHash
  difficulty : header.difficulty = 1

theorem Proposed.standalone (h : Proposed P parent a header)
    (hnow : header.time ≤ now) : verifyStandalone now header = .ok () := by
  obtain ⟨vals, proposerSeal, hext⟩ := h.extra
  exact verifyStandalone_eq_ok.mpr ⟨hnow, ⟨_, hext⟩, h.nonce.imp_right Or.inl, h.mixDigest, h.uncleHash, h.difficulty⟩

theorem Proposed.verifyHeader_iff (hp : Proposed P parent a header)
    (h : EndsWith P chain headers parent) (hsound : c.Sound P config now chain headers)
    (hfix : Snapshot.HashFixesSigner P (Involved chain header []))
    (hknows : Snapshot.KnowsSigners P (Involved chain header []) c.recentAddresses) (hnow : header.time ≤ now)
    (hs : snapshotOf P config now chain headers = .ok s) (ha : a ∈ s.valSet.addresses) :
    ((verifyHeader P config now chain c header []).1 = .ok () ∨
        (verifyHeader P config now chain c header []).1 = .error .emptyCommittedSeals) ↔
      ((uint64 parent.time + config.blockPeriod) % 2 ^ 64 ≤ uint64 header.time ∨ uint64 (parent.number + 1) = 0) := by
  by_cases hz : uint64 header.number = 0
  · rw [verifyHeader, hp.standalone hnow, thread_ok, verifyCascadingFields, if_pos hz]
    rw [hp.begun.number] at hz
    exact ⟨fun _ => .inr hz, fun _ => .inl rfl⟩
  have hparent : checkParent config chain header [] = .ok () ↔
      (uint64 parent.time + config.blockPeriod) % 2 ^ 64 ≤ uint64 header.time := by
    have hof : parentOf chain header [] = some parent := by
      rw [parentOf, hp.begun.number, hp.begun.parentHash]
      exact h.getHeader
    rw [checkParent_eq_ok]
    constructor
    · rintro ⟨p, hfound, -, -, htime⟩
      rw [hof] at hfound
      rwa [Option.some.inj hfound]
    · intro htime
      refine ⟨parent, hof, ?_, hp.begun.parentHash.symm, htime⟩
      rw [hp.begun.number, h.pred_number, h.number]
  constructor
  · intro haccepted
    obtain ⟨snap, c', signer, hpasses⟩ := passes_of_accepted hz haccepted
    exact .inl (hparent.mp hpasses.parent)
  · rintro (htime | hz')
    · obtain ⟨snap, c', hsnap, hsame⟩ := h.snapshot hsound hs
      rw [← hp.begun.number, ← hp.begun.parentHash] at hsnap
      have hafter : Snapshot.KnowsSigners P (Involved chain header [])
          (parentSnapshot P config now chain c header []).2.recentAddresses :=
        knowsSigners_snapshot hknows hfix (Set.subset_insert ..)
      rw [parentSnapshot, hsnap] at hafter
      have hpasses : Passes P config now chain c header [] snap c' a := {
        standalone := hp.standalone hnow
        parent := hparent.mpr htime
        snapshot := hsnap
        signed := (hafter.ecrecover_fst (Set.mem_insert ..)).trans hp.signer
        signer_mem := hsame.addresses ▸ ha }
      obtain ⟨vals, proposerSeal, hext⟩ := hp.extra
      right
      rw [hpasses.verifyHeader_fst hz, checkCommittedSeals, hext]
      rfl
    · exact absurd (hp.begun.number ▸ hz') hz

theorem proposed_withExtra {g : Header} (hbegun : Begun parent g) {vals : List Address} (hfits : Fitting vals)
    (hext : extractIstanbulExtra g = .ok ⟨vals, [], []⟩) (hnonce : g.nonce = 0 ∨ g.nonce = 0xffffffffffffffff)
    (hmix : g.mixDigest = istanbulDigest) (huncle : g.uncleHash = nilUncleHash) (hdifficulty : g.difficulty = 1)
    (a : Address) : Proposed P parent a (g.withExtra ⟨vals, P.sign a (Istanbul.hashBytes (sigHash g)), []⟩) := by
  have hlen := (extractIstanbulExtra_eq_ok.mp hext).1
  have hsize := length_sealed hlen hfits (P.length_sign a (Istanbul.hashBytes (sigHash g)))
  have hsealed := extract_withExtra hlen hsize
  refine ⟨⟨hbegun.parentHash, hbegun.number⟩, ⟨_, _, hsealed⟩, ?_, hnonce, hmix, huncle, hdifficulty⟩
  have hsig : sigHash (g.withExtra ⟨vals, P.sign a (Istanbul.hashBytes (sigHash g)), []⟩) = sigHash g :=
    congrArg keccak256 (sigPreimage_withExtra hext rfl hsize)
  rw [recoverSigner, hsealed, hsig]
  simp only [P.recover_sign]

theorem verify_eq_ok_iff {hasBadProposal : Hash → Bool} {block : Block Tx} :
    (verify D P config chain now hasBadProposal c block).1 = .ok () ↔
      hasBadProposal block.header.hash = false ∧ D.txSha block.transactions = block.header.txHash ∧
        calcUncleHash block.uncles = nilUncleHash ∧
        ((verifyHeader P config now chain c block.header []).1 = .ok () ∨
          (verifyHeader P config now chain c block.header []).1 = .error .emptyCommittedSeals) := by
  rw [verify]
  split_ifs with hbad htx huncle
  · simp [hbad]
  · simp [htx]
  · simp [huncle]
  · rw [not_not] at htx huncle
    simp only [Bool.not_eq_true] at hbad
    rcases verifyHeader P config now chain c block.header [] with ⟨err | u, c'⟩
    · cases err <;> simp [hbad, htx, huncle]
    · simp [hbad, htx, huncle]

/-- What a validator of the parent's snapshot makes on top of `parent`. -/
theorem exists_proposed (hchain : EndsWith P chain headers parent) {now' later : ℤ} (hlater : now ≤ later)
    {c₁ c₂ : Caches} (hsound₁ : c₁.Sound P config now chain headers) (hsound₂ : c₂.Sound P config later chain headers)
    (hs : snapshotOf P config now chain headers = .ok s) (ha : a ∈ s.valSet.addresses)
    (hfits : Fitting s.validators) (hbegun : Begun parent header)
    (candidates : GoMap Address Bool) (pick : ℕ) (root : Hash) (txs : List Tx) (receipts : List Receipt) :
    ∃ prepared block c₁' c₂', prepare P config chain now now' candidates pick c₁ header = (.ok prepared, c₁') ∧
      sealBlock P config chain later a c₂ (finalize D prepared root txs receipts) = (.ok block, c₂') ∧
      Proposed P parent a block.header ∧ block.header.time = nextTime config now now' parent ∧
      D.txSha block.transactions = block.header.txHash ∧ calcUncleHash block.uncles = nilUncleHash := by
  obtain ⟨snap₁, c₁', hsnap₁, hsame₁⟩ := hchain.snapshot hsound₁ hs
  obtain ⟨snap₂, c₂', hsnap₂, hsame₂⟩ := hchain.snapshot hsound₂ (snapshotOf_later hlater hs)
  obtain ⟨coinbase, nonce, hnonce, hprepare⟩ := prepare_eq hchain hbegun hsnap₁ candidates pick
  have hvals : snap₁.validators = s.validators := by
    rw [Snapshot.validators, hsame₁.addresses, Snapshot.validators]
  rw [hvals] at hprepare
  -- the prepared header and the block without a seal, of which only some fields matter from here on
  obtain ⟨prepared, hprepared⟩ : ∃ prepared : Header, prepared = { header with
    coinbase, nonce, mixDigest := istanbulDigest, difficulty := 1,
    extra := prepareExtra header s.validators, time := nextTime config now now' parent } := ⟨_, rfl⟩
  rw [← hprepared] at hprepare
  obtain ⟨block, hblock⟩ : ∃ block, block = finalize D prepared root txs receipts := ⟨_, rfl⟩
  have hbegun' : Begun parent block.header := by
    rw [hblock, hprepared]
    exact ⟨hbegun.parentHash, hbegun.number⟩
  have hext : extractIstanbulExtra block.header = .ok ⟨s.validators, [], []⟩ := by
    rw [hblock, hprepared]
    exact extract_prepareExtra header hfits rfl
  have hseal := sealBlock_eq hchain hbegun' hsnap₂ (hsame₂.addresses ▸ ha) hext
  rw [hblock] at hseal
  refine ⟨prepared, _, c₁', c₂', hprepare, hseal, ?_, ?_, ?_, ?_⟩
  · rw [← hblock]
    refine proposed_withExtra hbegun' hfits hext ?_ ?_ ?_ ?_ a <;> rw [hblock, hprepared]
    exacts [hnonce, rfl, rfl, rfl]
  · rw [hprepared]
    rfl
  · cases txs <;> rfl
  · rfl

end Made

/-- **Honest proposals.** The block that a validator of the parent's snapshot prepares, finalizes and seals passes
every check of another node on the same chain whose clock has reached its timestamp, up to the missing
committed seals, and `Verify` accepts it unless it is blacklisted: exactly if the time that is due after
the period is no negative `int64`, or the number of the block is a multiple of `2 ^ 64`, where no check is
left to fail. -/
theorem honest_proposal_iff (D : Derivations Tx Receipt) (P : Primitives) (config : Config) (chain : Chain)
    (headers : List Header) (parent : Header) (hchain : EndsWith P chain headers parent)
    -- the clock of the proposer, and what it remembers
    (now now' later : ℤ) (h0 : 0 ≤ now) (hnow : now ≤ now') (hint64 : now' < 2 ^ 63) (hlater : now ≤ later)
    (c₁ c₂ : Caches) (hsound₁ : c₁.Sound P config now chain headers) (hsound₂ : c₂.Sound P config later chain headers)
    -- a validator of the parent's snapshot
    (s : Snapshot) (hs : snapshotOf P config now chain headers = .ok s) (a : Address) (ha : a ∈ s.valSet.addresses)
    (hfits : Fitting s.validators) (header : Header) (hbegun : Begun parent header)
    (candidates : GoMap Address Bool) (pick : ℕ) (root : Hash) (txs : List Tx) (receipts : List Receipt) :
    ∃ prepared block c₁' c₂', prepare P config chain now now' candidates pick c₁ header = (.ok prepared, c₁') ∧
      sealBlock P config chain later a c₂ (finalize D prepared root txs receipts) = (.ok block, c₂') ∧
      ∀ clock c, c.Sound P config clock chain headers → Snapshot.HashFixesSigner P (Involved chain block.header []) →
        Snapshot.KnowsSigners P (Involved chain block.header []) c.recentAddresses → block.header.time ≤ clock →
          (((verifyHeader P config clock chain c block.header []).1 = .ok () ∨
              (verifyHeader P config clock chain c block.header []).1 = .error .emptyCommittedSeals) ↔
            (0 ≤ int64 (parent.time + config.blockPeriod) ∨ uint64 (parent.number + 1) = 0)) ∧
          ∀ hasBadProposal, (verify D P config chain clock hasBadProposal c block).1 = .ok () ↔
            hasBadProposal block.header.hash = false ∧
              (0 ≤ int64 (parent.time + config.blockPeriod) ∨ uint64 (parent.number + 1) = 0) := by
  obtain ⟨prepared, block, c₁', c₂', hprepare, hseal, hproposed, htime, htx, huncle⟩ :=
    exists_proposed hchain hlater hsound₁ hsound₂ hs ha hfits hbegun candidates pick root txs receipts
  refine ⟨prepared, block, c₁', c₂', hprepare, hseal, ?_⟩
  intro clock c hsound hfix hknows hclock
  have hreached : now ≤ clock :=
    calc now ≤ nextTime config now now' parent := le_nextTime hnow hchain.time_nonneg
      _ = block.header.time := htime.symm
      _ ≤ clock := hclock
  have hvalid : (uint64 parent.time + config.blockPeriod) % 2 ^ 64 ≤ uint64 (nextTime config now now' parent) ↔
    0 ≤ int64 (parent.time + config.blockPeriod) := nextTime_valid_iff h0 hnow hint64 hchain.time_nonneg
  have hiff := hproposed.verifyHeader_iff hchain hsound hfix hknows hclock (snapshotOf_later hreached hs) ha
  rw [htime, hvalid] at hiff
  refine ⟨hiff, fun hasBadProposal => ?_⟩
  rw [verify_eq_ok_iff, hiff]
  constructor
  · rintro ⟨hbad, -, -, hcond⟩
    exact ⟨hbad, hcond⟩
  · rintro ⟨hbad, hcond⟩
    exact ⟨hbad, htx, huncle, hcond⟩

end Proposal

namespace Sample

attribute [local instance] keccak

def derivations : Derivations ℕ ℕ where
  txSha txs := BitVec.ofNat 256 (txs.foldl (fun n tx => 31 * n + tx) 7)
  receiptSha receipts := BitVec.ofNat 256 (receipts.foldl (fun n r => 37 * n + r) 11)
  createBloom receipts := BitVec.ofNat 2048 receipts.sum

def begun : Header := { header genesisHeader.hash 1 [] with gasLimit := 100, time := 1 }

/-- A vote for 5, which is no validator yet, and a vote against 9, which never was one. -/
def candidates : GoMap Address Bool := GoMap.ofList [(9, false), (5, true)]

def proposal (blockPeriod : ℕ) : Except Err (Block ℕ) := do
  let config := { config with blockPeriod }
  let prepared ← (prepare primitives config chain 3 3 candidates 4 noCaches begun).1
  (sealBlock primitives config chain 3 1 noCaches (finalize derivations prepared 8 [1, 2] [3])).1

def proposed (blockPeriod : ℕ) : Block ℕ := (proposal blockPeriod).toOption.getD ⟨begun, [], []⟩

/-- The block has a timestamp before the one that is due, and is rejected. -/
theorem wrapped_time_rejected : (proposal (2 ^ 63)).isOk ∧ (proposed (2 ^ 63)).header.time = 3 ∧
      (verify derivations primitives { config with blockPeriod := 2 ^ 63 } chain 3 (fun _ => false) noCaches
        (proposed (2 ^ 63))).1 = .error .invalidTimestamp := by
  decide +kernel

theorem endsWith_genesis : EndsWith primitives chain [] genesisHeader where
  linked := linked_nil
  stored := stored_nil
  fixes := by simp [Snapshot.HashFixesSigner]
  known := by decide +kernel
  number := by decide +kernel
  number_nonneg := by decide +kernel
  time_nonneg := by decide +kernel

theorem fixes_proposed : Snapshot.HashFixesSigner primitives (Involved chain (proposed 1).header []) := by
  have hmem : ∀ h ∈ Involved chain (proposed 1).header [], h ∈ [(proposed 1).header, genesisHeader, first] := by
    rintro h (hnew | hnone | ⟨hash, k, hget⟩)
    · rw [hnew]
      exact mem_cons_self
    · cases hnone
    · simp only [chain] at hget
      exact mem_cons_of_mem _ (mem_of_find?_eq_some hget)
  have hnodup : ([(proposed 1).header, genesisHeader, first].map Header.hash).Nodup := by decide +kernel
  intro h hh h' hh' heq
  rw [inj_on_of_nodup_map hnodup (hmem h hh) (hmem h' hh') heq]

theorem honest_proposal_iff_first : (0 : ℤ) ≤ int64 (genesisHeader.time + config.blockPeriod) ∧ (proposal 1).isOk ∧
      (verify derivations primitives config chain 3 (fun _ => false) noCaches (proposed 1)).1 = .ok () := by
  have hvals : (snapshotOf primitives config 3 chain []).map (·.validators) = .ok [1, 2, 3, 4] := by decide +kernel
  cases hs : snapshotOf primitives config 3 chain [] with
  | error =>
    rw [hs] at hvals
    cases hvals
  | ok s =>
    rw [hs] at hvals
    replace hvals : s.validators = [1, 2, 3, 4] := Except.ok.inj hvals
    have hmem : (1 : Address) ∈ s.valSet.addresses := by
      rw [← s.validators_perm.mem_iff, hvals]
      exact mem_cons_self
    have hfits : Fitting s.validators := by
      rw [hvals, Fitting]
      decide +kernel
    obtain ⟨prepared, block, c₁, c₂, hprepare, hseal, hlaw⟩ := honest_proposal_iff derivations primitives config chain
      [] genesisHeader endsWith_genesis 3 3 3 (by decide) (by decide) (by decide) (by decide) noCaches noCaches
      sound_empty sound_empty s hs 1 hmem hfits begun ⟨rfl, by decide +kernel⟩ candidates 4 8 [1, 2] [3]
    have hproposal : proposal 1 = .ok block := by
      rw [proposal, bind_eq_ok]
      refine ⟨prepared, congrArg Prod.fst hprepare, ?_⟩
      exact congrArg Prod.fst hseal
    have hblock : proposed 1 = block := by
      unfold proposed
      rw [hproposal]
      exact Option.getD_some
    have htime : (0 : ℤ) ≤ int64 (genesisHeader.time + config.blockPeriod) := by decide +kernel
    rw [← hblock] at hlaw
    have hverify := (hlaw 3 noCaches sound_empty fixes_proposed Snapshot.knowsSigners_empty (by decide +kernel)).2
      fun _ => false
    rw [hproposal]
    exact ⟨htime, rfl, hverify.mpr ⟨rfl, .inl htime⟩⟩

end Sample

end GoWanchain.Backend
