import GoWanchain.Istanbul.Runs

/-!
# The votes a core counts

`MessageSet.Holds` says what the messages of one set have in common; `Tallies` says it for the three counts
of a voter: the PREPAREs and COMMITs it holds are for the subject it votes on, the round change votes under
the word `k` are for its sequence and a round with the low word `k`, the senders are its validators, and all
of them satisfy `A`, whatever `A` every dispatched message satisfies.
-/

namespace GoWanchain.Istanbul

open Core

/-! ### One set of votes -/

/-- The set counts votes of the validators `addrs` that satisfy `A`, each under its sender. -/
structure MessageSet.Holds (addrs : List Address) (A : Message → Prop) (ms : MessageSet) : Prop where
  valSet : ms.valSet.addresses = addrs
  mem : ∀ {a m}, ms.messages.lookup a = some m → m.address = a ∧ a ∈ addrs ∧ A m

namespace MessageSet

variable {addrs : List Address} {A A' : Message → Prop} {ms : MessageSet}

theorem holds_of_empty (hvalSet : ms.valSet.addresses = addrs) (h : ms.messages = ∅) : ms.Holds addrs A :=
  ⟨hvalSet, fun hm => absurd hm (by simp [h])⟩

theorem Holds.add (h : ms.Holds addrs A) {msg : Message} (hA : msg.address ∈ addrs → A msg) :
    (ms.add msg).1.Holds addrs A := by
  refine ⟨(add_valSet ms msg).symm ▸ h.valSet, fun {a m} hm => ?_⟩
  by_cases hmem : msg.address ∈ ms.valSet.addresses
  · rw [add_of_mem hmem] at hm
    rcases GoMap.lookup_insert_cases hm with ⟨rfl, rfl⟩ | ⟨-, hold⟩
    · exact ⟨rfl, h.valSet ▸ hmem, hA (h.valSet ▸ hmem)⟩
    · exact h.mem hold
  · rw [add_of_notMem hmem] at hm
    exact h.mem hm

theorem Holds.mono (h : ms.Holds addrs A) (hA : ∀ m, A m → A' m) : ms.Holds addrs A' :=
  ⟨h.valSet, fun hm => ⟨(h.mem hm).1, (h.mem hm).2.1, hA _ (h.mem hm).2.2⟩⟩

def senders (ms : MessageSet) : Finset Address := GoMap.support ms.messages

theorem card_senders (ms : MessageSet) : ms.senders.card = ms.size := GoMap.card_support _

theorem mem_senders {a : Address} : a ∈ ms.senders ↔ ∃ m, ms.messages.lookup a = some m := by
  rw [senders, GoMap.mem_support, ← AList.lookup_isSome, Option.isSome_iff_exists]

theorem Holds.senders_subset (h : ms.Holds addrs A) : ms.senders ⊆ addrs.toFinset := by
  intro a ha
  obtain ⟨m, hm⟩ := mem_senders.mp ha
  exact List.mem_toFinset.mpr (h.mem hm).2.1

theorem mem_values_iff {m : Message} : m ∈ ms.values ↔ ∃ a, ms.messages.lookup a = some m :=
  GoMap.mem_values

theorem Holds.card_inter_senders (h : ms.Holds addrs A) (ms' : MessageSet) :
    (ms.values.filter fun m => (ms'.get m.address).isSome).length = (ms.senders ∩ ms'.senders).card := by
  have hkeys : ms.values.map (fun m => (ms'.get m.address).isSome)
      = ms.messages.keys.map fun a => (ms'.get a).isSome := by
    apply GoMap.map_values_eq
    intro a m hm
    rw [(h.mem hm).1]
  have hinter : ms.senders ∩ ms'.senders = (ms.messages.keys.filter fun a => (ms'.get a).isSome).toFinset := by
    ext a
    simp [senders, get, GoMap.support, AList.mem_keys, AList.lookup_isSome]
  rw [hinter, List.toFinset_card_of_nodup ((AList.keys_nodup _).filter _),
    ← List.countP_eq_length_filter, ← List.countP_eq_length_filter]
  have hcount := congrArg (List.countP id) hkeys
  rwa [List.countP_map, List.countP_map, Function.id_comp, Function.id_comp] at hcount

end MessageSet

theorem RoundState.getPrepareOrCommitSize_eq {addrs : List Address} {A : Message → Prop} {r : RoundState}
    (h : r.prepares.Holds addrs A) : r.getPrepareOrCommitSize = (r.prepares.senders ∪ r.commits.senders).card := by
  have hunion := Finset.card_union_add_card_inter r.prepares.senders r.commits.senders
  rw [getPrepareOrCommitSize, h.card_inter_senders, ← MessageSet.card_senders, ← MessageSet.card_senders]
  omega

/-! ### The counts of a voter -/

variable {P : Primitives} {B : Backend} {v₀ : Voter} {inp : Option (Message × Validator)}
  {v v' : Voter} {A A' : Message → Prop}

/-- A vote of this code for the subject the voter votes on. -/
def Voter.IsVote (P : Primitives) (v : Voter) (code : UInt64) (m : Message) : Prop :=
  m.code = code ∧ P.decodeSubject m.msg = v.current.subject P

/-- A round change vote for the voter's sequence, counted under the word `k`. -/
def Voter.IsRoundChange (P : Primitives) (v : Voter) (k : ℕ) (m : Message) : Prop :=
  m.code = msgRoundChange ∧ ∃ rc, P.decodeSubject m.msg = some rc ∧ uint64 rc.view.round = k
    ∧ rc.view.sequence = v.current.sequence

/-- A round change vote of a validator that the voter accepts. -/
def Voter.Accepts (P : Primitives) (v : Voter) (m : Message) : Prop :=
  m.code = msgRoundChange ∧ m.address ∈ v.valSet.addresses
    ∧ ∃ rc, P.decodeSubject m.msg = some rc ∧ v.checkMessage msgRoundChange rc.view = none

/-- A vote that the voter would count. -/
def Voter.Counts (P : Primitives) (v : Voter) (m : Message) : Prop :=
  v.IsVote P msgPrepare m ∨ v.IsVote P msgCommit m ∨ v.Accepts P m

structure Voter.Tallies (P : Primitives) (A : Message → Prop) (v : Voter) : Prop where
  prepares : v.current.prepares.Holds v.valSet.addresses fun m => v.IsVote P msgPrepare m ∧ A m
  commits : v.current.commits.Holds v.valSet.addresses fun m => v.IsVote P msgCommit m ∧ A m
  idle : v.state = .acceptRequest ∨ v.waitingForRoundChange = true →
    v.current.prepares.messages = ∅ ∧ v.current.commits.messages = ∅
  validatorSet : v.roundChangeSet.validatorSet.addresses = v.valSet.addresses
  roundChanges : ∀ {k ms}, v.roundChangeSet.roundChanges.lookup k = some ms →
    ms.Holds v.valSet.addresses fun m => v.IsRoundChange P k m ∧ A m

namespace Voter.Tallies

theorem mono (H : v.Tallies P A) (hA : ∀ m, A m → A' m) : v.Tallies P A' where
  prepares := H.prepares.mono fun m h => ⟨h.1, hA m h.2⟩
  commits := H.commits.mono fun m h => ⟨h.1, hA m h.2⟩
  idle := H.idle
  validatorSet := H.validatorSet
  roundChanges h := (H.roundChanges h).mono fun m h => ⟨h.1, hA m h.2⟩

open MessageSet (holds_of_empty)

theorem new (a : Address) : (Core.new a).toVoter.Tallies P A where
  prepares := holds_of_empty rfl rfl
  commits := holds_of_empty rfl rfl
  idle _ := ⟨rfl, rfl⟩
  validatorSet := rfl
  roundChanges h := absurd h (by simp [Core.new, RoundChangeSet.new])

theorem fresh (vs : ValidatorSet) (hprepares : v.current.prepares = MessageSet.new vs)
    (hcommits : v.current.commits = MessageSet.new vs) (hvs : vs.addresses = v.valSet.addresses)
    (hvalidatorSet : v.roundChangeSet.validatorSet.addresses = v.valSet.addresses)
    (hroundChanges : ∀ {k ms}, v.roundChangeSet.roundChanges.lookup k = some ms →
      ms.Holds v.valSet.addresses fun m => v.IsRoundChange P k m ∧ A m) : v.Tallies P A where
  prepares := holds_of_empty (by rw [hprepares]; exact hvs) (by rw [hprepares]; rfl)
  commits := holds_of_empty (by rw [hcommits]; exact hvs) (by rw [hcommits]; rfl)
  idle _ := ⟨by rw [hprepares]; rfl, by rw [hcommits]; rfl⟩
  validatorSet := hvalidatorSet
  roundChanges := hroundChanges

section

variable (H : v.Tallies P A)

include H

theorem congr (hprepares : v'.current.prepares = v.current.prepares)
    (hcommits : v'.current.commits = v.current.commits)
    (hsubject : v'.current.subject P = v.current.subject P)
    (hsequence : v'.current.sequence = v.current.sequence)
    (hvalSet : v'.valSet = v.valSet) (hrcs : v'.roundChangeSet = v.roundChangeSet)
    (hidle : v'.state = .acceptRequest ∨ v'.waitingForRoundChange = true →
      v.state = .acceptRequest ∨ v.waitingForRoundChange = true) : v'.Tallies P A where
  prepares := by
    simp only [Voter.IsVote, hprepares, hsubject, hvalSet]
    exact H.prepares
  commits := by
    simp only [Voter.IsVote, hcommits, hsubject, hvalSet]
    exact H.commits
  idle h := by
    rw [hprepares, hcommits]
    exact H.idle (hidle h)
  validatorSet := by
    rw [hrcs, hvalSet]
    exact H.validatorSet
  roundChanges := by
    intro k ms h
    simp only [Voter.IsRoundChange, hsequence, hvalSet]
    exact H.roundChanges (hrcs ▸ h)

theorem votes (k : ℕ) :
    (v.roundChangeSet.votes k).Holds v.valSet.addresses fun m => v.IsRoundChange P k m ∧ A m := by
  unfold RoundChangeSet.votes
  cases h : v.roundChangeSet.roundChanges.lookup k with
  | none => exact holds_of_empty H.validatorSet rfl
  | some => exact H.roundChanges h

theorem accept {pp : Preprepare} (hstate : v.state = .acceptRequest)
    (hwait : v.waitingForRoundChange = false) {s : State} (hs : s ≠ .acceptRequest) :
    ({ v.acceptPreprepare pp with state := s } : Voter).Tallies P A := by
  obtain ⟨hprepares, hcommits⟩ := H.idle (.inl hstate)
  refine ⟨holds_of_empty H.prepares.valSet hprepares,
    holds_of_empty H.commits.valSet hcommits, ?_, H.validatorSet, H.roundChanges⟩
  rintro (h | h)
  · exact absurd h hs
  · exact absurd (hwait.symm.trans h) (by decide)

theorem move (hA : ∀ msg src, inp = some (msg, src) → v₀.Counts P msg → A msg)
    (h : Move P B v₀ inp v v') : v'.Tallies P A := by
  have hbroadcast : ∀ {u : Voter} {code msg}, u.Tallies P A → (u.broadcast P B code msg).Tallies P A := by
    intro u code msg hu
    exact hu.congr (by simp) (by simp) (by simp) (by simp) (by simp) (by simp) (by simp)
  cases h with
  | gossip | request | unlock => exact H.congr rfl rfl rfl rfl rfl rfl id
  | propose | oldCommit => exact hbroadcast H
  | accept _ _ _ _ _ _ _ _ hwait hstate | acceptLocked _ _ _ _ _ _ _ _ hwait hstate =>
    exact hbroadcast (H.accept hstate hwait (by decide))
  | addPrepare hgiven msg src _ hinp hcode hdec hsub hwait hstate =>
    have hvote : v.IsVote P msgPrepare msg := ⟨hcode, hdec.trans hsub.symm⟩
    subst hgiven
    refine ⟨H.prepares.add fun _ => ⟨hvote, hA msg src hinp (.inl hvote)⟩, H.commits, ?_,
      H.validatorSet, H.roundChanges⟩
    rintro (h | h)
    · exact absurd h hstate
    · exact absurd (hwait.symm.trans h) (by decide)
  | lock =>
    refine hbroadcast (H.congr (by simp) (by simp) (by simp) (by simp) rfl rfl ?_)
    rintro (h | h)
    · exact absurd h (by simp)
    · exact .inr h
  | addCommit hgiven msg src _ hinp hcode hdec hsub hwait hstate =>
    have hvote : v.IsVote P msgCommit msg := ⟨hcode, hdec.trans hsub.symm⟩
    subst hgiven
    refine ⟨H.prepares, H.commits.add fun _ => ⟨hvote, hA msg src hinp (.inr (.inl hvote))⟩, ?_,
      H.validatorSet, H.roundChanges⟩
    rintro (h | h)
    · exact absurd h hstate
    · exact absurd (hwait.symm.trans h) (by decide)
  | commit =>
    refine H.congr (by simp) (by simp) (by simp) (by simp) rfl rfl ?_
    rintro (h | h)
    · exact absurd h (by simp)
    · exact .inr h
  | catchUp r =>
    have hsequence : (v.catchUp B ⟨r, v.current.sequence⟩).current.sequence = v.current.sequence :=
      congrArg View.sequence (Voter.catchUp_currentView v _)
    refine hbroadcast (fresh v.valSet (by simp) (by simp) rfl H.validatorSet fun hms => ?_)
    simp only [Voter.IsRoundChange, hsequence]
    exact H.roundChanges (RoundChangeSet.lookup_of_clear hms)
  | addRoundChange hgiven msg src rc hinp hcode hdec hcheck =>
    obtain ⟨hsequence, -⟩ := Voter.roundChange_of_checkMessage hcheck
    have hvote : v.IsRoundChange P (uint64 rc.view.round) msg := ⟨hcode, rc, hdec, rfl, hsequence⟩
    subst hgiven
    refine ⟨H.prepares, H.commits, H.idle, ?_, fun {k ms} hms => ?_⟩
    · rw [RoundChangeSet.add_fst]
      exact H.validatorSet
    · rw [RoundChangeSet.add_fst] at hms
      rcases GoMap.lookup_insert_cases hms with ⟨rfl, rfl⟩ | ⟨-, hold⟩
      · refine (H.votes _).add fun hmem => ⟨hvote, hA msg src hinp (.inr (.inr ?_))⟩
        exact ⟨hcode, hmem, rc, hdec, hcheck⟩
      · exact H.roundChanges hold
  | newRound =>
    exact fresh v.valSet (by simp) (by simp) rfl rfl fun hms => absurd hms (by simp [RoundChangeSet.new])
  | newSequence =>
    exact fresh (B.validators (B.lastProposal .startNewRound).1) (by simp) (by simp) rfl rfl
      fun hms => absurd hms (by simp [RoundChangeSet.new])

end

end Voter.Tallies

end GoWanchain.Istanbul
