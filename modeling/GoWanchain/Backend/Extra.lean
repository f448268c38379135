import GoWanchain.Types.Header

/-!
# Writing the extra-data

The end of `consensus/istanbul/backend/engine.go`: the extra-data of a new header, the proposer's seal and
the committed seals. The proposer signs the header without both kinds of seals (`sigHash`); the hash of the
block leaves out the committed seals only.
-/

namespace GoWanchain.Backend

open Types
open State (Keccak keccak256)

/-- The errors of the engine and of the code that it calls; only their identity is read. `panic` is a
runtime error. -/
inductive Err
  | unknownBlock
  | unauthorized
  | invalidDifficulty
  | invalidExtraDataFormat
  | invalidMixDigest
  | invalidNonce
  | invalidUncleHash
  | invalidTimestamp
  | invalidVotingChain
  | invalidVote
  | invalidCommittedSeals
  | emptyCommittedSeals
  | mismatchTxhashes
  | invalidSignature
  | unknownAncestor
  | futureBlock
  | blacklistedHash
  | extra (err : ExtraError)
  | recover
  | panic
deriving DecidableEq

/-- What `sigHash` feeds to Keccak; a nil header is written as the empty list. -/
def sigPreimage (header : Header) : Bytes :=
  match istanbulFilteredHeader header false with
  | none => [0xC0]
  | some filtered => filtered.encodeRLP

def sigHash [Keccak] (header : Header) : Hash := keccak256 (sigPreimage header)

def prepareExtra (header : Header) (vals : List Address) : Bytes :=
  let extra := header.extra ++ List.replicate (istanbulExtraVanity - header.extra.length) 0
  extra.take istanbulExtraVanity ++ IstanbulExtra.encodeRLP ⟨vals, [], []⟩

def writeSeal (h : Header) (proposerSeal : Bytes) : Except Err Header :=
  if proposerSeal.length % istanbulExtraSeal ≠ 0 then .error .invalidSignature
  else
    match extractIstanbulExtra h with
    | .error err => .error (.extra err)
    | .ok ist => .ok (h.withExtra { ist with proposerSeal := proposerSeal })

def writeCommittedSeals (h : Header) (committedSeals : List Bytes) : Except Err Header :=
  if committedSeals = [] then .error .invalidCommittedSeals
  else if ∃ s ∈ committedSeals, s.length ≠ istanbulExtraSeal then .error .invalidCommittedSeals
  else
    match extractIstanbulExtra h with
    | .error err => .error (.extra err)
    | .ok ist => .ok (h.withExtra { ist with committedSeal := committedSeals })

/-! ### What the seals leave alone -/

section Written

variable {h h' : Header} {ist : IstanbulExtra}

theorem writeSeal_eq_ok {proposerSeal : Bytes} (hw : writeSeal h proposerSeal = .ok h') :
    ∃ ist, extractIstanbulExtra h = .ok ist ∧ h' = h.withExtra { ist with proposerSeal := proposerSeal } := by
  rw [writeSeal] at hw
  split_ifs at hw
  cases hext : extractIstanbulExtra h with
  | error =>
    rw [hext] at hw
    cases hw
  | ok ist =>
    rw [hext] at hw
    exact ⟨ist, rfl, (Except.ok.inj hw).symm⟩

theorem writeCommittedSeals_of_extract {committedSeals : List Bytes}
    (hext : extractIstanbulExtra h = .ok ist) (hne : committedSeals ≠ [])
    (hlen : ∀ s ∈ committedSeals, s.length = istanbulExtraSeal) :
    writeCommittedSeals h committedSeals = .ok (h.withExtra { ist with committedSeal := committedSeals }) := by
  rw [writeCommittedSeals, if_neg hne, if_neg (by push Not; exact hlen), hext]

theorem sigPreimage_of_extract (hext : extractIstanbulExtra h = .ok ist) :
    sigPreimage h = (h.withExtra ⟨ist.validators, [], []⟩).encodeRLP := by
  rw [sigPreimage, istanbulFilteredHeader_of_extract hext]
  rfl

theorem preimage_of_extract (hmix : h.mixDigest = istanbulDigest) (hext : extractIstanbulExtra h = .ok ist) :
    h.preimage = (h.withExtra { ist with committedSeal := [] }).encodeRLP := by
  rw [Header.preimage, if_pos hmix, istanbulFilteredHeader_of_extract hext]
  rfl

theorem sigPreimage_withExtra (hext : extractIstanbulExtra h = .ok ist) {ist' : IstanbulExtra}
    (hvals : ist'.validators = ist.validators) (hfits : (h.withExtra ist').extra.length < 2 ^ 64) :
    sigPreimage (h.withExtra ist') = sigPreimage h := by
  have hlen := (extractIstanbulExtra_eq_ok.mp hext).1
  rw [sigPreimage_of_extract (extract_withExtra hlen hfits), sigPreimage_of_extract hext,
    withExtra_withExtra hlen, hvals]

theorem preimage_withExtra (hmix : h.mixDigest = istanbulDigest) (hext : extractIstanbulExtra h = .ok ist)
    (seals : List Bytes)
    (hfits : (h.withExtra { ist with committedSeal := seals }).extra.length < 2 ^ 64) :
    (h.withExtra { ist with committedSeal := seals }).preimage = h.preimage := by
  have hlen := (extractIstanbulExtra_eq_ok.mp hext).1
  rw [preimage_of_extract (by exact hmix) (extract_withExtra hlen hfits), preimage_of_extract hmix hext,
    withExtra_withExtra hlen]

end Written

/-! ### Headers of one hash -/

/-- `h'` is `h`, but for the committed seals. -/
def SealsApart (h h' : Header) : Prop :=
  h' = h ∨ ∃ ist seals, extractIstanbulExtra h = .ok ist ∧ h' = h.withExtra { ist with committedSeal := seals }

/-- Keccak does not collide on the two headers. -/
def NoCollision [Keccak] (h h' : Header) : Prop := h.hash = h'.hash → h.preimage = h'.preimage

def hashed (h : Header) : Header := (istanbulFilteredHeader h true).getD h

section Hashed

variable {h h' : Header}

theorem hashed_of_extract {ist : IstanbulExtra} (hext : extractIstanbulExtra h = .ok ist) :
    hashed h = h.withExtra { ist with committedSeal := [] } := by
  rw [hashed, istanbulFilteredHeader_of_extract hext]
  rfl

theorem hashed_of_error {err : ExtraError} (hext : extractIstanbulExtra h = .error err) : hashed h = h := by
  rw [hashed, istanbulFilteredHeader, hext]
  rfl

theorem hashed_eq (h : Header) : hashed h = { h with extra := (hashed h).extra } := by
  cases hext : extractIstanbulExtra h with
  | error => rw [hashed_of_error hext]
  | ok =>
    rw [hashed_of_extract hext]
    rfl

theorem fits_hashed (hfits : h.Fits) : (hashed h).Fits := by
  rw [hashed]
  cases hfiltered : istanbulFilteredHeader h true with
  | none => exact hfits
  | some => exact hfits.filtered hfiltered

theorem extract_hashed (hfits : (hashed h).Fits) {ist : IstanbulExtra} (hext : extractIstanbulExtra h = .ok ist) :
    extractIstanbulExtra (hashed h) = .ok { ist with committedSeal := [] } := by
  rw [hashed_of_extract hext] at hfits ⊢
  exact extract_withExtra (extractIstanbulExtra_eq_ok.mp hext).1 hfits.extra

/-- Headers that are filtered to the same header differ in their committed seals at most. -/
theorem sealsApart_of_hashed_eq (hfits : (hashed h).Fits) (heq : hashed h = hashed h') : SealsApart h h' := by
  have hfields : h' = { h with extra := h'.extra } := by
    have hback := hashed_eq h'
    rw [← heq, hashed_eq h] at hback
    exact (congrArg (fun g : Header => { g with extra := h'.extra }) hback).symm
  cases hext : extractIstanbulExtra h with
  | error =>
    cases hext' : extractIstanbulExtra h' with
    | error =>
      left
      rw [hashed_of_error hext, hashed_of_error hext'] at heq
      exact heq.symm
    | ok =>
      -- the filtered header decodes, the other one does not
      have hdec := extract_hashed (heq ▸ hfits) hext'
      rw [← heq, hashed_of_error hext, hext] at hdec
      cases hdec
  | ok ist =>
    have hdec := extract_hashed hfits hext
    cases hext' : extractIstanbulExtra h' with
    | error =>
      rw [heq, hashed_of_error hext', hext'] at hdec
      cases hdec
    | ok ist' =>
      right
      refine ⟨ist, ist'.committedSeal, hext, ?_⟩
      have hdec' := extract_hashed (heq ▸ hfits) hext'
      rw [← heq, hdec, Except.ok.injEq, IstanbulExtra.mk.injEq] at hdec'
      have hist : ist' = { ist with committedSeal := ist'.committedSeal } := by
        cases ist'
        simp only [IstanbulExtra.mk.injEq]
        exact ⟨hdec'.1.symm, hdec'.2.1.symm, trivial⟩
      have htake : h'.extra.take istanbulExtraVanity = h.extra.take istanbulExtraVanity := by
        have htake' : (h'.withExtra { ist' with committedSeal := [] }).extra.take istanbulExtraVanity
            = h'.extra.take istanbulExtraVanity := take_withExtra (extractIstanbulExtra_eq_ok.mp hext').1
        rw [← hashed_of_extract hext', ← heq, hashed_of_extract hext,
          take_withExtra (extractIstanbulExtra_eq_ok.mp hext).1] at htake'
        exact htake'.symm
      rw [← withExtra_of_extract hext', ← hist, Header.withExtra, Header.withExtra, htake]
      rw [hfields]

theorem preimage_eq (hmix : h.mixDigest = istanbulDigest) : h.preimage = (hashed h).encodeRLP := by
  rw [Header.preimage, if_pos hmix, hashed]

theorem encodable_hashed : (hashed h).Encodable ↔ h.Encodable := by
  rw [hashed_eq]
  exact Iff.rfl

theorem preimage_of_not_encodable (hmix : h.mixDigest = istanbulDigest) (he : ¬ h.Encodable) : h.preimage = [] := by
  rw [preimage_eq hmix, Header.encodeRLP, if_neg (by rwa [encodable_hashed])]

end Hashed

section

variable [Keccak]

theorem sealsApart_of_hash_eq {h h' : Header} (hmix : h.mixDigest = istanbulDigest)
    (hmix' : h'.mixDigest = istanbulDigest) (hfits : h.Fits) (he : h.Encodable) (hno : NoCollision h h')
    (hhash : h.hash = h'.hash) : SealsApart h h' := by
  have hpre := hno hhash
  rw [preimage_eq hmix, preimage_eq hmix'] at hpre
  have hfits' := fits_hashed hfits
  exact sealsApart_of_hashed_eq hfits' (Header.encodeRLP_inj (encodable_hashed.mpr he) hfits' hpre)

/-- **The seals and the hash.** Committed seals change neither the hash of a header nor what its
proposer signed, and they are read back as they were written, with the rest of the extra-data as it was;
the proposer's seal does not change what it signs. And, as far as Keccak does not collide, a header of
the same hash differs in its committed seals at most, exactly if no integer of the header is negative. -/
theorem hash_ignores_seals_iff (h : Header) (hmix : h.mixDigest = istanbulDigest) (hfits : h.Fits) :
    (∀ ist seals, extractIstanbulExtra h = .ok ist → seals ≠ [] → (∀ s ∈ seals, s.length = istanbulExtraSeal) →
        ∃ h', writeCommittedSeals h seals = .ok h' ∧ (h'.extra.length < 2 ^ 64 →
          h'.hash = h.hash ∧ sigHash h' = sigHash h ∧
          extractIstanbulExtra h' = .ok { ist with committedSeal := seals } ∧
          h'.extra.take istanbulExtraVanity = h.extra.take istanbulExtraVanity)) ∧
    (∀ proposerSeal h', writeSeal h proposerSeal = .ok h' → h'.extra.length < 2 ^ 64 → sigHash h' = sigHash h) ∧
    ((∀ h', h'.mixDigest = istanbulDigest → NoCollision h h' → h.hash = h'.hash → SealsApart h h') ↔ h.Encodable) := by
  refine ⟨?_, ?_, ?_, ?_⟩
  · intro ist seals hext hne hlen
    have hvanity := (extractIstanbulExtra_eq_ok.mp hext).1
    refine ⟨_, writeCommittedSeals_of_extract hext hne hlen, fun hfits' => ⟨?_, ?_, ?_, ?_⟩⟩
    · rw [Header.hash, preimage_withExtra hmix hext seals hfits', Header.hash]
    · rw [sigHash, sigPreimage_withExtra hext (by rfl) hfits', sigHash]
    · exact extract_withExtra hvanity hfits'
    · exact take_withExtra hvanity
  · intro proposerSeal h' hw hfits'
    obtain ⟨ist, hext, rfl⟩ := writeSeal_eq_ok hw
    rw [sigHash, sigPreimage_withExtra hext (by rfl) hfits', sigHash]
  · intro hlaw
    by_contra he
    -- another coinbase, and still nothing is hashed
    obtain ⟨h', hh'⟩ : ∃ h', h' = { h with coinbase := h.coinbase + 1 } := ⟨_, rfl⟩
    have hmix' : h'.mixDigest = istanbulDigest := by rw [hh']; exact hmix
    have he' : ¬ h'.Encodable := by rw [hh']; exact he
    have hpre : h.preimage = h'.preimage := by
      rw [preimage_of_not_encodable hmix he, preimage_of_not_encodable hmix' he']
    have hcoinbase : h'.coinbase = h.coinbase := by
      rcases hlaw h' hmix' (fun _ => hpre) (congrArg keccak256 hpre) with heq | ⟨ist, seals, -, heq⟩
      · rw [heq]
      · rw [heq]
        rfl
    rw [hh'] at hcoinbase
    have hne : h.coinbase + 1 ≠ h.coinbase := by bv_omega
    exact hne hcoinbase
  · intro he h' hmix' hno hhash
    exact sealsApart_of_hash_eq hmix hmix' hfits he hno hhash

end

namespace Sample

/-- A stand-in for the hash that tells headers apart. -/
@[reducible] def keccak : Keccak := ⟨fun b => BitVec.ofNat 256 (beNat (1 :: b) % (2 ^ 255 - 19))⟩

attribute [local instance] keccak

def header (parentHash : Hash) (number : ℤ) (vals : List Address) : Header where
  parentHash := parentHash
  uncleHash := 0
  coinbase := 0
  root := 0
  txHash := 0
  receiptHash := 0
  bloom := 0
  difficulty := 1
  number := number
  gasLimit := 0
  gasUsed := 0
  time := 0
  extra := List.replicate istanbulExtraVanity 0 ++ IstanbulExtra.encodeRLP ⟨vals, [], []⟩
  mixDigest := istanbulDigest
  nonce := 0

theorem hash_ignores_seals_iff_header : ∃ h', writeCommittedSeals (header 7 1 [1, 2]) [List.replicate 65 9] = .ok h' ∧
      h'.hash = (header 7 1 [1, 2]).hash := by
  have hext : extractIstanbulExtra (header 7 1 [1, 2]) = .ok ⟨[1, 2], [], []⟩ := by decide +kernel
  have hlaw := hash_ignores_seals_iff (header 7 1 [1, 2]) rfl
    (show (headerCodec.enc (header 7 1 [1, 2]).fields).length < 2 ^ 64 by decide +kernel)
  obtain ⟨h', hw, hwritten⟩ := hlaw.1 _ [List.replicate 65 9] hext (by decide) (by decide)
  refine ⟨h', hw, (hwritten ?_).1⟩
  rw [writeCommittedSeals_of_extract hext (by decide) (by decide), Except.ok.injEq] at hw
  rw [← hw]
  decide +kernel

/-- Two headers of difficulty -1: nothing is hashed of either of them. -/
theorem negative_headers_collide : let h : Header := { header 7 1 [1, 2] with difficulty := -1 }
    let h' : Header := { header 8 2 [3] with difficulty := -1, coinbase := 5 }
    h.mixDigest = istanbulDigest ∧ h'.mixDigest = istanbulDigest ∧ h.hash = h'.hash ∧
      h.coinbase ≠ h'.coinbase ∧ h.number ≠ h'.number ∧ h.parentHash ≠ h'.parentHash := by
  decide +kernel

end Sample

end GoWanchain.Backend
