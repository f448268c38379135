import GoWanchain.Backend.Extra
import GoWanchain.Istanbul.ValidatorSet

/-!
# Voting snapshots

`consensus/istanbul/backend/snapshot.go`: the validators, the live votes and their tally after a header.
A header is a vote of its signer on its coinbase; its nonce says whether to authorize or to drop.
`apply` folds headers into a copy of a snapshot: it resets the votes at an epoch, takes the signer's
earlier vote on the coinbase back, records the new one if it is meaningful, and changes the validators
when more than half of them want it.

The signer comes from `ecrecover` of `engine.go`, through a cache that is keyed by the hash of the header.
-/

namespace GoWanchain.Backend

open Types
open State (Keccak)
open Istanbul (Primitives ValidatorSet ProposerPolicy hashBytes)

/-! ### Signers -/

/-- `recentAddresses`. -/
abbrev AddressCache := Hash → Option Address

section Signer

variable [Keccak] (P : Primitives)

/-- The part of `ecrecover` behind the cache. -/
def recoverSigner (header : Header) : Except Err Address :=
  match extractIstanbulExtra header with
  | .error err => .error (.extra err)
  | .ok ist =>
    match P.recover (hashBytes (sigHash header)) ist.proposerSeal with
    | none => .error .recover
    | some addr => .ok addr

def ecrecover (recentAddresses : AddressCache) (header : Header) : Except Err Address × AddressCache :=
  match recentAddresses header.hash with
  | some addr => (.ok addr, recentAddresses)
  | none =>
    match recoverSigner P header with
    | .error err => (.error err, recentAddresses)
    | .ok addr => (.ok addr, Function.update recentAddresses header.hash (some addr))

end Signer

/-! ### Snapshots -/

structure Vote where
  validator : Address
  block : ℕ
  address : Address
  authorize : Bool
deriving DecidableEq

def Vote.isOf (validator address : Address) (vote : Vote) : Bool :=
  vote.validator = validator ∧ vote.address = address

structure Tally where
  authorize : Bool
  votes : ℕ
deriving DecidableEq

structure Snapshot where
  epoch : ℕ
  number : ℕ
  hash : Hash
  votes : List Vote
  tally : GoMap Address Tally
  valSet : ValidatorSet

def newSnapshot (epoch number : ℕ) (hash : Hash) (valSet : ValidatorSet) : Snapshot :=
  ⟨epoch, number, hash, [], ∅, valSet⟩

/-- The vote that a nonce stands for: `nonceAuthVote`, `nonceDropVote` or neither. -/
def voteOfNonce (nonce : BitVec 64) : Option Bool :=
  if nonce = 0xffffffffffffffff then some true
  else if nonce = 0 then some false
  else none

namespace Snapshot

def checkVote (s : Snapshot) (address : Address) (authorize : Bool) : Bool :=
  match s.valSet.getByAddress address with
  | some _ => !authorize
  | none => authorize

/-- `cast`: the snapshot afterwards, and whether the vote is meaningful. -/
def cast (s : Snapshot) (address : Address) (authorize : Bool) : Snapshot × Bool :=
  if !s.checkVote address authorize then (s, false)
  else
    match s.tally.lookup address with
    | some old => ({ s with tally := s.tally.insert address { old with votes := old.votes + 1 } }, true)
    | none => ({ s with tally := s.tally.insert address ⟨authorize, 1⟩ }, true)

/-- `uncast`: the snapshot afterwards, and whether the vote was counted. -/
def uncast (s : Snapshot) (address : Address) (authorize : Bool) : Snapshot × Bool :=
  match s.tally.lookup address with
  | none => (s, false)
  | some tally =>
    if tally.authorize ≠ authorize then (s, false)
    else if tally.votes > 1 then
      ({ s with tally := s.tally.insert address { tally with votes := tally.votes - 1 } }, true)
    else ({ s with tally := s.tally.erase address }, true)

def discardVote (s : Snapshot) (validator address : Address) : Snapshot :=
  match s.votes.find? (Vote.isOf validator address) with
  | none => s
  | some vote =>
    { (s.uncast vote.address vote.authorize).1 with votes := s.votes.eraseP (Vote.isOf validator address) }

def discardVotesOf (s : Snapshot) (validator : Address) : Snapshot :=
  let discarded := s.votes.filter (·.validator = validator)
  { discarded.foldl (fun s vote => (s.uncast vote.address vote.authorize).1) s with
    votes := s.votes.filter (·.validator ≠ validator) }

def recordVote (s : Snapshot) (validator : Address) (header : Header) : Except Err Snapshot :=
  let s := s.discardVote validator header.coinbase
  match voteOfNonce header.nonce with
  | none => .error .invalidVote
  | some authorize =>
    let (s, ok) := s.cast header.coinbase authorize
    .ok (if ok then
        { s with votes := s.votes ++ [⟨validator, uint64 header.number, header.coinbase, authorize⟩] }
      else s)

/-- If the vote passed, update the list of validators. -/
def settle (P : Primitives) (s : Snapshot) (address : Address) : Snapshot :=
  let tally := (s.tally.lookup address).getD ⟨false, 0⟩
  if tally.votes > s.valSet.size / 2 then
    let s :=
      if tally.authorize then { s with valSet := (s.valSet.addValidator P address).1 }
      else ({ s with valSet := (s.valSet.removeValidator address).1 }).discardVotesOf address
    { s with votes := s.votes.filter (·.address ≠ address), tally := s.tally.erase address }
  else s

/-- Remove any votes on checkpoint blocks. -/
def resetAt (s : Snapshot) (number : ℕ) : Snapshot :=
  if number % s.epoch = 0 then { s with votes := [], tally := ∅ } else s

def copy (P : Primitives) (s : Snapshot) : Snapshot := { s with valSet := s.valSet.copy P }

@[simp] theorem valSet_resetAt (s : Snapshot) (number : ℕ) : (s.resetAt number).valSet = s.valSet := by
  rw [resetAt]
  split_ifs <;> rfl

theorem mem_copy (P : Primitives) (s : Snapshot) (a : Address) :
    a ∈ (s.copy P).valSet.addresses ↔ a ∈ s.valSet.addresses :=
  (s.valSet.copy_addresses P).mem_iff

/-! ### What voting leaves alone -/

/-- Everything but the votes and their tally. -/
def base (s : Snapshot) : ℕ × ℕ × Hash × ValidatorSet := (s.epoch, s.number, s.hash, s.valSet)

@[simp] theorem base_resetAt (s : Snapshot) (number : ℕ) : (s.resetAt number).base = s.base := by
  rw [resetAt]
  split_ifs <;> rfl

@[simp] theorem base_cast (s : Snapshot) (a : Address) (authorize : Bool) : (s.cast a authorize).1.base = s.base := by
  rw [cast]
  split_ifs
  · rfl
  · cases s.tally.lookup a <;> rfl

@[simp] theorem base_uncast (s : Snapshot) (a : Address) (authorize : Bool) :
    (s.uncast a authorize).1.base = s.base := by
  rw [uncast]
  cases s.tally.lookup a with
  | none => rfl
  | some =>
    simp only []
    split_ifs <;> rfl

theorem base_foldl_uncast (l : List Vote) (s : Snapshot) :
    (l.foldl (fun s vote => (s.uncast vote.address vote.authorize).1) s).base = s.base := by
  induction l generalizing s with
  | nil => rfl
  | cons _ _ ih => rw [List.foldl_cons, ih, base_uncast]

@[simp] theorem base_discardVote (s : Snapshot) (validator a : Address) :
    (s.discardVote validator a).base = s.base := by
  rw [discardVote]
  cases s.votes.find? (Vote.isOf validator a) with
  | none => rfl
  | some vote => exact s.base_uncast vote.address vote.authorize

@[simp] theorem base_discardVotesOf (s : Snapshot) (validator : Address) : (s.discardVotesOf validator).base = s.base :=
  base_foldl_uncast (s.votes.filter (·.validator = validator)) s

theorem base_recordVote {s t : Snapshot} {validator : Address} {header : Header}
    (h : s.recordVote validator header = .ok t) : t.base = s.base := by
  rw [recordVote] at h
  cases hnonce : voteOfNonce header.nonce with
  | none =>
    rw [hnonce] at h
    cases h
  | some authorize =>
    rw [hnonce] at h
    have hbase := (s.discardVote validator header.coinbase).base_cast header.coinbase authorize
    rw [base_discardVote] at hbase
    simp only [] at h
    rcases hcast : (s.discardVote validator header.coinbase).cast header.coinbase authorize with ⟨u, ok⟩
    rw [hcast] at h hbase
    cases h
    cases ok <;> exact hbase

theorem settle_base (P : Primitives) (s : Snapshot) (a : Address) :
    ∃ valSet, (s.settle P a).base = (s.epoch, s.number, s.hash, valSet) ∧
      (valSet = s.valSet ∨ valSet = (s.valSet.addValidator P a).1 ∨ valSet = (s.valSet.removeValidator a).1) := by
  rw [settle]
  by_cases hpassed : ((s.tally.lookup a).getD ⟨false, 0⟩).votes > s.valSet.size / 2
  swap
  · simp only [hpassed, if_false]
    exact ⟨s.valSet, rfl, .inl rfl⟩
  cases ((s.tally.lookup a).getD ⟨false, 0⟩).authorize with
  | true =>
    simp only [hpassed, if_true]
    exact ⟨_, rfl, .inr (.inl rfl)⟩
  | false =>
    simp only [hpassed, if_true, Bool.false_eq_true, if_false]
    exact ⟨_, base_discardVotesOf { s with valSet := (s.valSet.removeValidator a).1 } a, .inr (.inr rfl)⟩

/-! ### Headers -/

variable [Keccak] (P : Primitives)

/-- One turn of the loop of `apply`; an epoch of 0 divides by zero. -/
def applyHeader (s : Snapshot) (recentAddresses : AddressCache) (header : Header) :
    Except Err Snapshot × AddressCache :=
  if s.epoch = 0 then (.error .panic, recentAddresses)
  else
    let s := s.resetAt (uint64 header.number)
    match ecrecover P recentAddresses header with
    | (.error err, recentAddresses) => (.error err, recentAddresses)
    | (.ok validator, recentAddresses) =>
      match s.valSet.getByAddress validator with
      | none => (.error .unauthorized, recentAddresses)
      | some _ =>
        match s.recordVote validator header with
        | .error err => (.error err, recentAddresses)
        | .ok s => (.ok (s.settle P header.coinbase), recentAddresses)

/-- The loop of `apply`. -/
def applyHeaders : Snapshot → AddressCache → List Header → Except Err Snapshot × AddressCache
  | s, recentAddresses, [] => (.ok s, recentAddresses)
  | s, recentAddresses, header :: headers =>
    match s.applyHeader P recentAddresses header with
    | (.error err, recentAddresses) => (.error err, recentAddresses)
    | (.ok s, recentAddresses) => applyHeaders s recentAddresses headers

/-- The number of the second header is one more, as a `uint64`. -/
def Follows (header next : Header) : Prop := uint64 next.number = (uint64 header.number + 1) % 2 ^ 64

instance (header next : Header) : Decidable (Follows header next) :=
  inferInstanceAs (Decidable (_ = _))

def apply (s : Snapshot) (recentAddresses : AddressCache) (headers : List Header) :
    Except Err Snapshot × AddressCache :=
  match headers with
  | [] => (.ok s, recentAddresses)
  | first :: rest =>
    if ¬ (first :: rest).IsChain Follows then (.error .invalidVotingChain, recentAddresses)
    else if uint64 first.number ≠ (s.number + 1) % 2 ^ 64 then (.error .invalidVotingChain, recentAddresses)
    else
      match applyHeaders P (s.copy P) recentAddresses (first :: rest) with
      | (.error err, recentAddresses) => (.error err, recentAddresses)
      | (.ok snap, recentAddresses) =>
        (.ok { snap with
          number := (snap.number + (first :: rest).length) % 2 ^ 64
          hash := ((first :: rest).getLast (by simp)).hash }, recentAddresses)

/-! ### What an accepted header did -/

variable {P} {s t : Snapshot} {recentAddresses recentAddresses' : AddressCache} {header : Header}
  {headers : List Header}

theorem applyHeader_eq_ok (h : s.applyHeader P recentAddresses header = (.ok t, recentAddresses')) :
    s.epoch ≠ 0 ∧ ∃ validator mid, ecrecover P recentAddresses header = (.ok validator, recentAddresses') ∧
      validator ∈ s.valSet.addresses ∧
      (s.resetAt (uint64 header.number)).recordVote validator header = .ok mid ∧
      t = mid.settle P header.coinbase := by
  rw [applyHeader] at h
  split_ifs at h with hepoch
  · cases (Prod.mk.inj h).1
  · simp only [valSet_resetAt] at h
    rcases hrecover : ecrecover P recentAddresses header with ⟨err | validator, cache⟩
    · rw [hrecover] at h
      cases (Prod.mk.inj h).1
    · rw [hrecover] at h
      simp only [] at h
      cases hget : s.valSet.getByAddress validator with
      | none =>
        rw [hget] at h
        cases (Prod.mk.inj h).1
      | some =>
        rw [hget] at h
        cases hrec : (s.resetAt (uint64 header.number)).recordVote validator header with
        | error =>
          rw [hrec] at h
          cases (Prod.mk.inj h).1
        | ok mid =>
          rw [hrec] at h
          obtain ⟨hok, rfl⟩ := Prod.mk.inj h
          exact ⟨hepoch, validator, mid, rfl, ValidatorSet.mem_of_getByAddress hget, hrec, (Except.ok.inj hok).symm⟩

theorem applyHeaders_cons_eq_ok (h : applyHeaders P s recentAddresses (header :: headers) = (.ok t, recentAddresses')) :
    ∃ mid cache, s.applyHeader P recentAddresses header = (.ok mid, cache) ∧
      applyHeaders P mid cache headers = (.ok t, recentAddresses') := by
  rw [applyHeaders] at h
  rcases happly : s.applyHeader P recentAddresses header with ⟨err | mid, cache⟩
  · rw [happly] at h
    cases (Prod.mk.inj h).1
  · rw [happly] at h
    exact ⟨mid, cache, rfl, h⟩

theorem applyHeaders_invariant {I : Snapshot → Prop}
    (hstep : ∀ s cache header t cache', I s → s.applyHeader P cache header = (.ok t, cache') → I t)
    (hs : I s) (h : applyHeaders P s recentAddresses headers = (.ok t, recentAddresses')) : I t := by
  induction headers generalizing s recentAddresses with
  | nil =>
    obtain rfl := Except.ok.inj (Prod.mk.inj h).1
    exact hs
  | cons header _ ih =>
    obtain ⟨mid, cache, hheader, hrest⟩ := applyHeaders_cons_eq_ok h
    exact ih (hstep s _ header mid cache hs hheader) hrest

theorem applyHeaders_append (s : Snapshot) (recentAddresses : AddressCache) (xs ys : List Header) :
    applyHeaders P s recentAddresses (xs ++ ys) = match applyHeaders P s recentAddresses xs with
      | (.error err, recentAddresses) => (.error err, recentAddresses)
      | (.ok s, recentAddresses) => applyHeaders P s recentAddresses ys := by
  induction xs generalizing s recentAddresses with
  | nil => rfl
  | cons header _ ih =>
    rw [List.cons_append, applyHeaders, applyHeaders]
    rcases s.applyHeader P recentAddresses header with ⟨err | mid, cache⟩
    · rfl
    · exact ih mid cache

theorem apply_eq_ok (h : s.apply P recentAddresses headers = (.ok t, recentAddresses')) :
    (headers = [] ∧ t = s ∧ recentAddresses' = recentAddresses) ∨ ∃ hne : headers ≠ [], headers.IsChain Follows ∧
        uint64 (headers.head hne).number = (s.number + 1) % 2 ^ 64 ∧
        ∃ u, applyHeaders P (s.copy P) recentAddresses headers = (.ok u, recentAddresses') ∧
          t = { u with number := (u.number + headers.length) % 2 ^ 64, hash := (headers.getLast hne).hash } := by
  cases headers with
  | nil =>
    obtain ⟨hok, rfl⟩ := Prod.mk.inj h
    exact .inl ⟨rfl, (Except.ok.inj hok).symm, rfl⟩
  | cons first rest =>
    right
    rw [apply] at h
    by_cases hchain : (first :: rest).IsChain Follows
    swap
    · rw [if_pos hchain] at h
      cases (Prod.mk.inj h).1
    by_cases hfirst : uint64 first.number = (s.number + 1) % 2 ^ 64
    swap
    · rw [if_neg (not_not.mpr hchain), if_pos hfirst] at h
      cases (Prod.mk.inj h).1
    · rw [if_neg (not_not.mpr hchain), if_neg (not_not.mpr hfirst)] at h
      refine ⟨by simp, hchain, hfirst, ?_⟩
      rcases hloop : applyHeaders P (s.copy P) recentAddresses (first :: rest) with ⟨err | u, cache⟩
      · rw [hloop] at h
        cases (Prod.mk.inj h).1
      · rw [hloop] at h
        obtain ⟨hok, rfl⟩ := Prod.mk.inj h
        exact ⟨u, rfl, (Except.ok.inj hok).symm⟩

theorem apply_of_loop (hne : headers ≠ []) (hchain : headers.IsChain Follows)
    (hfirst : uint64 (headers.head hne).number = (s.number + 1) % 2 ^ 64)
    (hloop : applyHeaders P (s.copy P) recentAddresses headers = (.ok t, recentAddresses')) :
    s.apply P recentAddresses headers = (.ok { t with
      number := (t.number + headers.length) % 2 ^ 64
      hash := (headers.getLast hne).hash }, recentAddresses') := by
  cases headers with
  | nil => exact absurd rfl hne
  | cons =>
    rw [List.head_cons] at hfirst
    rw [apply, if_neg (not_not.mpr hchain), if_neg (not_not.mpr hfirst), hloop]

end Snapshot

end GoWanchain.Backend
