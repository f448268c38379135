import GoWanchain.Istanbul.ValidatorSet
import GoWanchain.Lib.GoMap

/-!
# Message sets, round state and round change votes

`core/message_set.go`, `core/roundstate.go` and the `roundChangeSet` of `core/roundchange.go`. Votes
are held in maps from the sender's address to its last message; the round change votes in a map from
`Uint64` of the round to such a set.
-/

namespace GoWanchain.Istanbul

/-! ### Message sets -/

structure MessageSet where
  valSet : ValidatorSet
  messages : GoMap Address Message

namespace MessageSet

def new (valSet : ValidatorSet) : MessageSet := ⟨valSet, ∅⟩

def verify (ms : MessageSet) (msg : Message) : Option Err :=
  match ms.valSet.getByAddress msg.address with
  | none => some .unauthorizedAddress
  | some _ => none

def addVerifiedMessage (ms : MessageSet) (msg : Message) : MessageSet :=
  { ms with messages := ms.messages.insert msg.address msg }

def add (ms : MessageSet) (msg : Message) : MessageSet × Option Err :=
  match ms.verify msg with
  | some err => (ms, some err)
  | none => (ms.addVerifiedMessage msg, none)

def values (ms : MessageSet) : List Message := GoMap.values ms.messages

def size (ms : MessageSet) : ℕ := GoMap.size ms.messages

def get (ms : MessageSet) (addr : Address) : Option Message := ms.messages.lookup addr

variable {ms : MessageSet} {msg : Message}

theorem verify_eq_none : ms.verify msg = none ↔ msg.address ∈ ms.valSet.addresses := by
  rw [verify, ← ValidatorSet.getByAddress_isSome]
  cases ms.valSet.getByAddress msg.address <;> simp

theorem add_of_mem (h : msg.address ∈ ms.valSet.addresses) : ms.add msg = (ms.addVerifiedMessage msg, none) := by
  rw [add, verify_eq_none.mpr h]

theorem add_of_notMem (h : msg.address ∉ ms.valSet.addresses) : ms.add msg = (ms, some .unauthorizedAddress) := by
  have hnone := ValidatorSet.getByAddress_eq_none.mpr h
  simp [add, verify, hnone]

@[simp] theorem add_valSet (ms : MessageSet) (msg : Message) : (ms.add msg).1.valSet = ms.valSet := by
  by_cases h : msg.address ∈ ms.valSet.addresses
  · rw [add_of_mem h, addVerifiedMessage]
  · rw [add_of_notMem h]

end MessageSet

/-! ### The round state -/

structure RoundState where
  round : ℕ
  sequence : ℕ
  preprepare : Option Preprepare
  prepares : MessageSet
  commits : MessageSet
  lockedHash : Hash
  pendingRequest : Option Block

namespace RoundState

@[simps]
def new (view : View) (validatorSet : ValidatorSet) (lockedHash : Hash)
    (preprepare : Option Preprepare) (pendingRequest : Option Block) : RoundState where
  round := view.round
  sequence := view.sequence
  preprepare := preprepare
  prepares := MessageSet.new validatorSet
  commits := MessageSet.new validatorSet
  lockedHash := lockedHash
  pendingRequest := pendingRequest

def view (s : RoundState) : View := ⟨s.round, s.sequence⟩

/-- `GetPrepareOrCommitSize`: the senders of a PREPARE or a COMMIT, with those of both counted once. -/
def getPrepareOrCommitSize (s : RoundState) : ℤ :=
  s.prepares.size + s.commits.size - (s.prepares.values.filter fun m => (s.commits.get m.address).isSome).length

def subject (P : Primitives) (s : RoundState) : Option Subject :=
  s.preprepare.map fun pp => ⟨s.view, P.hash pp.proposal⟩

@[simps]
def setPreprepare (s : RoundState) (preprepare : Preprepare) : RoundState :=
  { s with preprepare := some preprepare }

def proposal (s : RoundState) : Option Block := s.preprepare.map (·.proposal)

def lockHash (P : Primitives) (s : RoundState) : RoundState :=
  match s.preprepare with
  | some pp => { s with lockedHash := P.hash pp.proposal }
  | none => s

@[simps]
def unlockHash (s : RoundState) : RoundState := { s with lockedHash := 0 }

/-- `IsHashLocked`, with the answer of `HasBadProposal` at the time of the call. -/
def isHashLocked (hasBadProposal : Hash → Bool) (s : RoundState) : Bool :=
  if s.lockedHash = 0 then false else !hasBadProposal s.lockedHash

section

variable (P : Primitives) (s : RoundState)

@[simp] theorem lockHash_view : (s.lockHash P).view = s.view := by
  unfold lockHash
  split <;> rfl

@[simp] theorem lockHash_preprepare : (s.lockHash P).preprepare = s.preprepare := by
  unfold lockHash
  split <;> simp_all

@[simp] theorem lockHash_prepares : (s.lockHash P).prepares = s.prepares := by
  unfold lockHash
  split <;> rfl

@[simp] theorem lockHash_commits : (s.lockHash P).commits = s.commits := by
  unfold lockHash
  split <;> rfl

@[simp] theorem lockHash_sequence : (s.lockHash P).sequence = s.sequence :=
  congrArg View.sequence (lockHash_view P s)

@[simp] theorem lockHash_subject : (s.lockHash P).subject P = s.subject P := by
  simp [subject]

end

variable {s : RoundState}

theorem lockHash_lockedHash {P : Primitives} {pp : Preprepare}
    (h : s.preprepare = some pp) : (s.lockHash P).lockedHash = P.hash pp.proposal := by
  rw [lockHash, h]

theorem lockedHash_ne_zero {bad : Hash → Bool} (h : s.isHashLocked bad = true) : s.lockedHash ≠ 0 := by
  intro hzero
  simp [isHashLocked, hzero] at h

theorem subject_eq_some {P : Primitives} {sub : Subject} :
    s.subject P = some sub ↔ ∃ pp, s.preprepare = some pp ∧ sub = ⟨s.view, P.hash pp.proposal⟩ := by
  simp [subject, eq_comm]

end RoundState

/-! ### Round change votes -/

structure RoundChangeSet where
  validatorSet : ValidatorSet
  roundChanges : GoMap ℕ MessageSet

namespace RoundChangeSet

def new (valSet : ValidatorSet) : RoundChangeSet := ⟨valSet, ∅⟩

/-- The set of votes kept under the word `k`. -/
def votes (rcs : RoundChangeSet) (k : ℕ) : MessageSet :=
  (rcs.roundChanges.lookup k).getD (MessageSet.new rcs.validatorSet)

/-- `Add`: the votes are kept under the low word of the round. -/
def add (rcs : RoundChangeSet) (r : ℕ) (msg : Message) : RoundChangeSet × Except Err ℕ :=
  let round := uint64 r
  match (rcs.votes round).add msg with
  | (ms, some err) => ({ rcs with roundChanges := rcs.roundChanges.insert round ms }, .error err)
  | (ms, none) => ({ rcs with roundChanges := rcs.roundChanges.insert round ms }, .ok ms.size)

/-- `Clear`: drop the empty sets and those below the round. -/
def clear (rcs : RoundChangeSet) (round : ℕ) : RoundChangeSet :=
  { rcs with
    roundChanges := GoMap.deleteWhere (fun k rms => rms.values.length == 0 || decide (k < uint64 round))
      rcs.roundChanges }

/-- `MaxRound`: the largest round, as a signed word, with at least `num` votes. -/
def maxRound (rcs : RoundChangeSet) (num : ℤ) : Option ℤ :=
  rcs.roundChanges.entries.foldl (fun maxRound e =>
    if (e.2.size : ℤ) < num then maxRound
    else match maxRound with
      | none => some (int64 e.1)
      | some m => if m < int64 e.1 then some (int64 e.1) else maxRound) none

theorem add_fst (rcs : RoundChangeSet) (r : ℕ) (msg : Message) : (rcs.add r msg).1 = { rcs with
      roundChanges := rcs.roundChanges.insert (uint64 r) ((rcs.votes (uint64 r)).add msg).1 } := by
  unfold add
  dsimp only
  rcases (rcs.votes (uint64 r)).add msg with ⟨ms, _ | err⟩ <;> rfl

variable {r k : ℕ}

theorem lookup_of_clear {rcs : RoundChangeSet} {ms : MessageSet}
    (h : (rcs.clear r).roundChanges.lookup k = some ms) : rcs.roundChanges.lookup k = some ms :=
  (GoMap.lookup_deleteWhere.mp h).1

theorem votes_add_self (rcs : RoundChangeSet) (r : ℕ) (msg : Message) :
    (rcs.add r msg).1.votes (uint64 r) = ((rcs.votes (uint64 r)).add msg).1 := by
  rw [add_fst, votes, AList.lookup_insert]
  rfl

theorem votes_add_of_ne (rcs : RoundChangeSet) (msg : Message) (hk : k ≠ uint64 r) :
    (rcs.add r msg).1.votes k = rcs.votes k := by
  have hlookup : (rcs.add r msg).1.roundChanges.lookup k = rcs.roundChanges.lookup k := by
    rw [add_fst, AList.lookup_insert_ne hk]
  rw [votes, votes, hlookup, add_fst]

theorem votes_clear_messages (rcs : RoundChangeSet) (hk : uint64 r ≤ k) :
    ((rcs.clear r).votes k).messages = (rcs.votes k).messages := by
  unfold votes
  cases hold : rcs.roundChanges.lookup k with
  | none =>
    cases hnew : (rcs.clear r).roundChanges.lookup k with
    | none => rfl
    | some => exact absurd (lookup_of_clear hnew) (by simp [hold])
  | some ms =>
    cases hnew : (rcs.clear r).roundChanges.lookup k with
    | some =>
      have heq := lookup_of_clear hnew
      rw [hold] at heq
      cases heq
      rfl
    | none =>
      -- it was dropped, so it was empty
      have hempty : ms.values.length = 0 := by
        by_contra hne
        have hkept : (rcs.clear r).roundChanges.lookup k = some ms := by
          apply GoMap.lookup_deleteWhere.mpr
          refine ⟨hold, ?_⟩
          simp only [Bool.or_eq_false_iff, beq_eq_false_iff_ne, decide_eq_false_iff_not, not_lt]
          exact ⟨hne, hk⟩
        rw [hnew] at hkept
        exact absurd hkept (by simp)
      rw [MessageSet.values, GoMap.length_values, GoMap.size, List.length_eq_zero_iff] at hempty
      exact AList.ext hempty.symm

end RoundChangeSet

end GoWanchain.Istanbul
