import GoWanchain.Ethash.Retrieval

/-!
# The checks of a header

`verifyHeader` of `consensus/ethash/consensus.go`, with `VerifySeal` and the difficulty rule. Two things
that its callers rely on are not checked. The signature of a header is looked at when a header on top of it
is verified, not before (`signed_by_coinbase_iff`). And the gas limits are arbitrary integers, of which the
low 64 bits are compared (`gasLimit_rule_iff`). A header whose number is a multiple of `2 ^ 64` is taken for
the genesis block, and nothing of it is checked.
-/

namespace GoWanchain.Ethash

open Types
open State (Keccak keccak256)
open Backend (Chain Linked Stored nilUncleHash)
open Backend.Snapshot (tip)

def maximumExtraDataSize : ℕ := 97

def gasLimitBoundDivisor : ℕ := 1024

def minGasLimit : ℕ := 5000

def difficultyBoundDivisor : ℤ := 2048

def minimumDifficulty : ℤ := 131072

def epochLength : ℕ := 30000

def maxEpoch : ℕ := 2048

/-- `maxUint256`. The comment in the source says `2^256-1`. -/
def maxUint256 : ℤ := 2 ^ 256

/-- `allowedFutureBlockTime`, in seconds. -/
def allowedFutureBlockTime : ℤ := 15

/-! ### The gas limit -/

/-- The gas limits of the header and its parent. The difference is an `int64`, and so is its absolute value. -/
def verifyGasLimit (header parent : Header) : Except Err Unit := do
  ensure (uint64 header.gasLimit ≤ 0x7fffffffffffffff) (.gasLimitCap header.gasLimit)
  ensure (header.gasUsed ≤ header.gasLimit) (.gasUsed header.gasUsed header.gasLimit)
  let diff := (int64 parent.gasLimit - int64 header.gasLimit).bmod (2 ^ 64)
  let diff := if diff < 0 then (-diff).bmod (2 ^ 64) else diff
  let limit := uint64 parent.gasLimit / gasLimitBoundDivisor
  ensure ((diff % 2 ^ 64).toNat < limit ∧ minGasLimit ≤ uint64 header.gasLimit)
    (.gasLimit header.gasLimit parent.gasLimit limit)

/-- The distance of the two gas limits, as it is computed. -/
def distance (p g : ℤ) : ℕ :=
  let diff := (int64 p - int64 g).bmod (2 ^ 64)
  ((if diff < 0 then (-diff).bmod (2 ^ 64) else diff) % 2 ^ 64).toNat

theorem verifyGasLimit_eq_ok {header parent : Header} : verifyGasLimit header parent = .ok () ↔
    uint64 header.gasLimit ≤ 0x7fffffffffffffff ∧ header.gasUsed ≤ header.gasLimit ∧
      distance parent.gasLimit header.gasLimit < uint64 parent.gasLimit / gasLimitBoundDivisor ∧
      minGasLimit ≤ uint64 header.gasLimit := by
  simp only [verifyGasLimit, distance, bind_eq_ok, ensure_eq_ok, exists_const]

/-- The gas limits are 64-bit words, and their difference is a signed one. -/
structure Words (p g : ℤ) : Prop where
  limit : 0 ≤ g ∧ g < 2 ^ 64
  parent : 0 ≤ p ∧ p < 2 ^ 64
  difference : -2 ^ 63 < p - g ∧ p - g < 2 ^ 63

theorem uint64_eq_zero_iff {n : ℤ} : uint64 n = 0 ↔ (2 ^ 64 : ℤ) ∣ n := by
  rw [uint64]
  omega

theorem uint64_of_word {n : ℤ} (h : 0 ≤ n ∧ n < 2 ^ 64) : (uint64 n : ℤ) = n := by
  rw [uint64]
  omega

theorem distance_of_words {p g : ℤ} (h : Words p g) : (distance p g : ℤ) = |p - g| := by
  obtain ⟨hlow, hhigh⟩ := h.difference
  have hword : ∀ n : ℤ, -2 ^ 63 < n → n < 2 ^ 63 → n.bmod (2 ^ 64) = n :=
    fun n hlow hhigh => Int.bmod_eq_of_le (by norm_num; omega) (by norm_num; omega)
  have hdiff : (int64 p - int64 g).bmod (2 ^ 64) = p - g := by
    rw [int64, int64, Int.sub_bmod_bmod, Int.bmod_sub_bmod]
    exact hword _ hlow hhigh
  simp only [distance, hdiff]
  split_ifs with hneg
  · rw [hword _ (by omega) (by omega), abs_of_neg hneg]
    omega
  · rw [abs_of_nonneg (by omega)]
    omega

/-- The rule for gas limits and numbers. -/
structure GasLimitRule (parent header : Header) : Prop where
  cap : header.gasLimit ≤ 2 ^ 63 - 1
  minimum : minGasLimit ≤ header.gasLimit
  used : header.gasUsed ≤ header.gasLimit
  bound : |header.gasLimit - parent.gasLimit| < parent.gasLimit / gasLimitBoundDivisor
  number : header.number = parent.number + 1

theorem GasLimitRule.words {parent header : Header} (h : GasLimitRule parent header) :
    Words parent.gasLimit header.gasLimit := by
  have hcap := h.cap
  have hminimum : (5000 : ℤ) ≤ header.gasLimit := h.minimum
  obtain ⟨hlow, hhigh⟩ := abs_lt.mp (show _ < parent.gasLimit / 1024 from h.bound)
  refine ⟨⟨?_, ?_⟩, ⟨?_, ?_⟩, ?_, ?_⟩ <;> omega

theorem gasLimitRule_of_words {parent header : Header} (hwords : Words parent.gasLimit header.gasLimit)
    (hcheck : verifyGasLimit header parent = .ok ()) (hnumber : header.number - parent.number = 1) :
    GasLimitRule parent header := by
  obtain ⟨hcap, hused, hbound, hminimum⟩ := verifyGasLimit_eq_ok.mp hcheck
  have hlimit := uint64_of_word hwords.limit
  have hparent := uint64_of_word hwords.parent
  have hdistance := distance_of_words hwords
  refine ⟨by omega, by omega, hused, ?_, by omega⟩
  rw [abs_sub_comm, ← hdistance]
  rw [gasLimitBoundDivisor] at hbound ⊢
  omega

section Checks

variable [Keccak] (P : Primitives) (engine : Engine) (now : ℤ) (chain : Chain)

/-- `calcDifficultyByzantium`, which is the rule for all blocks. `Div` rounds down by a positive divisor. -/
def calcDifficulty (time : ℕ) (parent : Header) : ℤ :=
  let x := ((time : ℤ) - parent.time) / 9
  let x := if parent.uncleHash = nilUncleHash then 1 - x else 2 - x
  let x := if x < -99 then -99 else x
  let x := parent.difficulty + parent.difficulty / difficultyBoundDivisor * x
  if x < minimumDifficulty then minimumDifficulty else x

/-- The proof of work proper. -/
def verifyWork (powMode : Mode) (header : Header) : Except Err Unit := do
  let number := uint64 header.number
  ensure (number / epochLength < maxEpoch) .nonceOutOfRange
  ensure (0 < header.difficulty) .invalidDifficulty
  let (digest, result) := P.hashimotoLight number (powMode = .test) (hashNoNonce header) header.nonce
  ensure (header.mixDigest = digest) .invalidMixDigest
  ensure ((result : ℤ) ≤ maxUint256 / header.difficulty) .invalidPoW

/-- `VerifySeal` of a verifier with no shared one behind it. -/
def Sealer.verifySeal (s : Sealer) (header : Header) : Except Err Unit :=
  if s.powMode = .fake ∨ s.powMode = .fullFake then ensure (s.fakeFail ≠ uint64 header.number) .invalidPoW
  else verifyWork P s.powMode header

def Engine.verifySeal (header : Header) : Except Err Unit :=
  if engine.powMode = .fake ∨ engine.powMode = .fullFake then engine.toSealer.verifySeal P header
  else
    match engine.shared with
    | some s => s.verifySeal P header
    | none => engine.toSealer.verifySeal P header

/-- The bound on the time of a header. -/
def verifyTime (header : Header) (uncle : Bool) : Except Err Unit :=
  if uncle then ensure (header.time ≤ 2 ^ 256 - 1) .largeBlockTime
  else ensure (header.time ≤ now + allowedFutureBlockTime) .futureBlock

/-- The checks of `verifyHeader` before it looks for a snapshot. -/
def verifyFields (header parent : Header) (uncle isSealed : Bool) : Except Err Unit := do
  ensure (header.extra.length ≤ maximumExtraDataSize) (.extraTooLong header.extra.length)
  ensure (header.extra.length = extraVanity + extraSeal) (.extraSize header.extra.length)
  verifyTime now header uncle
  ensure (parent.time < header.time) .zeroBlockTime
  let expected := calcDifficulty (uint64 header.time) parent
  ensure (expected = header.difficulty) (.difficulty header.difficulty expected)
  verifyGasLimit header parent
  ensure (header.number - parent.number = 1) .invalidNumber
  if isSealed then engine.verifySeal P header else .ok ()

/-- `verifyHeader`, with the caches afterwards; `now` is the clock in seconds. -/
def verifyHeader (c : Caches) (header : Header) (parents : List Header) (uncle isSealed : Bool) :
    Except Err Unit × Caches :=
  if uint64 header.number = 0 then (.ok (), c)
  else
    match parents.getLast? with
    | none => (.error .panic, c)
    | some parent =>
      match verifyFields P engine now header parent uncle isSealed with
      | .error err => (.error err, c)
      | .ok () => verifySignerIdentity P engine chain c header parents

/-- `VerifyHeader`. -/
def verifySingle (c : Caches) (header : Header) (isSealed : Bool) : Except Err Unit × Caches :=
  if engine.powMode = .fullFake then (.ok (), c)
  else
    match chain.getHeader header.hash (uint64 header.number) with
    | some _ => (.ok (), c)
    | none =>
      match chain.getHeader header.parentHash (predecessor (uint64 header.number)) with
      | none => (.error .unknownAncestor, c)
      | some parent => verifyHeader P engine now chain c header [parent] false isSealed

/-- The parent of the header behind `batch`. -/
def workerParent (batch : List Header) (header : Header) : Option Header :=
  match batch.getLast? with
  | none => chain.getHeader header.parentHash (predecessor (uint64 header.number))
  | some last => if last.hash = header.parentHash then some last else none

def verifyHeaderWorker (c : Caches) (batch : List Header) (header : Header) (isSealed : Bool) :
    Except Err Unit × Caches :=
  match workerParent chain batch header with
  | none => (.error .unknownAncestor, c)
  | some parent =>
    match chain.getHeader header.hash (uint64 header.number) with
    | some _ => (.ok (), c)
    | none => verifyHeader P engine now chain c header (if batch = [] then [parent] else batch) false isSealed

/-! ### What acceptance says -/

variable {P engine now chain} {c : Caches} {header parent : Header} {parents : List Header} {uncle isSealed : Bool}

theorem verifyHeader_of_multiple (h : uint64 header.number = 0) :
    verifyHeader P engine now chain c header parents uncle isSealed = (.ok (), c) := by
  rw [verifyHeader, if_pos h]

theorem verifyHeader_eq_ok (hz : uint64 header.number ≠ 0)
    (h : (verifyHeader P engine now chain c header parents uncle isSealed).1 = .ok ()) :
    ∃ parent, parents.getLast? = some parent ∧ verifyFields P engine now header parent uncle isSealed = .ok () ∧
      (verifySignerIdentity P engine chain c header parents).1 = .ok () := by
  rw [verifyHeader, if_neg hz] at h
  cases hlast : parents.getLast? with
  | none =>
    rw [hlast] at h
    cases h
  | some parent =>
    rw [hlast] at h
    simp only at h
    cases hfields : verifyFields P engine now header parent uncle isSealed with
    | error =>
      rw [hfields] at h
      cases h
    | ok =>
      rw [hfields] at h
      exact ⟨parent, rfl, hfields, h⟩

theorem verifySignerIdentity_eq_ok (h : (verifySignerIdentity P engine chain c header parents).1 = .ok ()) :
    ∃ s, (snapshot P engine chain c (predecessor (uint64 header.number)) header.parentHash parents).1 = .ok s ∧
      s.isLegal4Sign header.coinbase = .ok () := by
  unfold verifySignerIdentity at h
  generalize predecessor (uint64 header.number) = number at h ⊢
  rcases hsnap : snapshot P engine chain c number header.parentHash parents with ⟨err | s, c'⟩
  · rw [hsnap] at h
    cases h
  · rw [hsnap] at h
    exact ⟨s, rfl, h⟩

variable (P engine now chain) in
/-- `verifyHeader` accepts the header on top of the parent, whatever is in the caches. -/
def Accepted (header parent : Header) : Prop :=
  ∃ c above uncle isSealed, (verifyHeader P engine now chain c header (above ++ [parent]) uncle isSealed).1 = .ok ()

theorem accepted_of_multiple (h : uint64 header.number = 0) : Accepted P engine now chain header parent :=
  ⟨⟨fun _ => none, fun _ => none⟩, [], false, false, congrArg Prod.fst (verifyHeader_of_multiple h)⟩

theorem verifyFields_eq_ok (h : verifyFields P engine now header parent uncle isSealed = .ok ()) :
    verifyGasLimit header parent = .ok () ∧ header.number - parent.number = 1 := by
  simp only [verifyFields, bind_eq_ok, ensure_eq_ok, exists_const] at h
  obtain ⟨-, -, _, -, -, -, _, hgas, hnumber, -⟩ := h
  exact ⟨hgas, hnumber⟩

/-- **The gas limit rule.** Every header with the number `n` and the gas limit `g` that is accepted on top
of a parent with the gas limit `p` keeps the rule exactly if both gas limits, and the difference, are
64-bit words and `n` is not a multiple of `2 ^ 64`. -/
theorem gasLimit_rule_iff (P : Primitives) (engine : Engine) (now : ℤ) (chain : Chain) (p g n : ℤ)
    (hex : ∃ parent header, parent.gasLimit = p ∧ header.gasLimit = g ∧ header.number = n ∧
      Accepted P engine now chain header parent) :
    (∀ parent header, parent.gasLimit = p → header.gasLimit = g → header.number = n →
      Accepted P engine now chain header parent → GasLimitRule parent header) ↔
      Words p g ∧ ¬ (2 ^ 64 : ℤ) ∣ n := by
  constructor
  · intro hall
    obtain ⟨parent, header, rfl, rfl, rfl, haccepted⟩ := hex
    refine ⟨(hall parent header rfl rfl rfl haccepted).words, fun hdvd => ?_⟩
    -- A header that uses more gas than its limit.
    have hrule := hall parent { header with gasUsed := header.gasLimit + 1 } rfl rfl rfl
      (accepted_of_multiple (show uint64 header.number = 0 from uint64_eq_zero_iff.mpr hdvd))
    have hused : header.gasLimit + 1 ≤ header.gasLimit := hrule.used
    omega
  · rintro ⟨hwords, hdvd⟩ parent header rfl rfl rfl ⟨c, above, uncle, isSealed, h⟩
    obtain ⟨parent', hlast, hfields, -⟩ := verifyHeader_eq_ok (mt uint64_eq_zero_iff.mp hdvd) h
    rw [List.getLast?_concat, Option.some.injEq] at hlast
    subst hlast
    obtain ⟨hcheck, hnumber⟩ := verifyFields_eq_ok hfields
    exact gasLimitRule_of_words hwords hcheck hnumber

/-! ### The signature -/

/-- The header is that of the block behind `headers`, which are the ancestors. -/
structure OnTop (chain : Chain) (headers : List Header) (header : Header) : Prop where
  linked : Linked chain headers
  number : predecessor (uint64 header.number) = headers.length
  parentHash : header.parentHash = tip chain.genesis.hash headers

variable (P engine chain) in
/-- The snapshot at the parent allows the coinbase to sign. -/
def AllowedByParent (c : Caches) (header : Header) (parents : List Header) : Prop :=
  ∃ s, (snapshot P engine chain c (predecessor (uint64 header.number)) header.parentHash parents).1 = .ok s ∧
    s.isLegal4Sign header.coinbase = .ok ()

theorem AllowedByParent.window {known : List Header} (h : AllowedByParent P engine chain c header parents)
    (htop : OnTop chain (known ++ parents) header) (hstored : Stored chain known)
    (hsound : c.Sound P engine chain (known ++ parents)) :
    ∃ s, snapshotOf P engine chain (known ++ parents) = .ok (some s) ∧
      header.coinbase ∈ s.permissionSigners ∧ header.coinbase ∉ s.recentSignersWindow := by
  obtain ⟨s, hsnap, hlegal⟩ := h
  rw [htop.number, htop.parentHash] at hsnap
  exact ⟨s, snapshotOf_of_snapshot hsound htop.linked hstored hsnap, Snapshot.isLegal4Sign_eq_ok.mp hlegal⟩

/-- Caches in which the parent permits nobody. -/
def barren (header : Header) : Caches :=
  ⟨fun hash => if hash = header.parentHash then some (newSnapshot 0 0 []) else none, fun _ => none⟩

theorem not_allowed_barren : ¬ AllowedByParent P engine chain (barren header) header parents := by
  rintro ⟨s, hsnap, hlegal⟩
  have hlocate : locate engine chain (barren header) (predecessor (uint64 header.number)) header.parentHash parents []
      = .ok (newSnapshot 0 0 [], [], (barren header).db) := by
    rw [locate.eq_def]
    simp [barren]
  rw [snapshot, hlocate] at hsnap
  cases (settle_eq.symm.trans hsnap)
  exact Finset.notMem_empty _ (Snapshot.isLegal4Sign_eq_ok.mp hlegal).1

end Checks

namespace Sample

attribute [local instance] Backend.Sample.keccak

/-- The low bits of the gas limit are those of a good one. -/
theorem accepts_large_gasLimit :
    (verifyHeader primitives engine 1000 chain noCaches { honest with gasLimit := 2 ^ 64 + 8000000 } [genesisHeader]
      false true).1 = .ok () ∧ genesisHeader.gasLimit = 8000000 := by
  decide +kernel

theorem gasLimit_rule_iff_honest : GasLimitRule genesisHeader honest := by
  have haccepted : Accepted primitives engine 1000 chain honest genesisHeader :=
    ⟨noCaches, [], false, true, by decide +kernel⟩
  have hiff := gasLimit_rule_iff primitives engine 1000 chain 8000000 8000000 1
    ⟨genesisHeader, honest, rfl, rfl, rfl, haccepted⟩
  exact hiff.mpr ⟨⟨by decide, by decide, by decide⟩, by decide⟩ genesisHeader honest rfl rfl rfl haccepted

end Sample

end GoWanchain.Ethash
