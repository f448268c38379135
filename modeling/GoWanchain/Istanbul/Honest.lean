import GoWanchain.Istanbul.Conduct

/-!
# A core among honest ones

What a single core keeps to when no proposal is reported bad, no commit fails and every PRE-PREPARE it
is given proposes a block of its view's height, as those of an honest proposer do. Then a lock is
never lost or exchanged within a sequence (`lockedHash_stable`), so all COMMITs that the core sends in
their own views of one sequence are for one block (`Voter.Honest`).
-/

namespace GoWanchain.Istanbul

open Core

variable {P : Primitives} {B : Backend} {v₀ : Voter} {inp : Option (Message × Validator)}
  {v v' : Voter} {s : ℕ} {V : List Address}

/-- A backend that reports no bad proposal and commits without errors; `V` are the validators on top
of any block of height `s - 1`. -/
structure Backend.Reliable (s : ℕ) (V : List Address) (B : Backend) : Prop where
  noBad : ∀ call h, B.hasBadProposal call h = false
  commits : ∀ p seals, B.commitFails p seals = false
  validators : ∀ head, head.number + 1 = s → (B.validators head).addresses = V

/-- The condition on one event. -/
structure Calm (P : Primitives) (s : ℕ) (V : List Address) (B : Backend)
    (inp : Option (Message × Validator)) : Prop extends B.Reliable s V where
  heights : ∀ {msg src pp}, inp = some (msg, src) → msg.code = msgPreprepare →
    P.decodePreprepare msg.msg = some pp → pp.proposal.number = pp.view.sequence

theorem Calm.heightMatches (hC : Calm P s V B inp) : HeightMatches P B v₀ inp := by
  rintro ⟨msg, src⟩ hinp hcode pp hdec hview
  rw [hC.heights hinp hcode hdec, hview]
  rfl

theorem Calm.lockedHash_eq_zero (hC : Calm P s V B inp) {call : LockCall} {r : RoundState}
    (h : r.isHashLocked (B.hasBadProposal call) = false) : r.lockedHash = 0 := by
  simpa [RoundState.isHashLocked, hC.noBad] using h

/-! ### Locks -/

/-- The lock is on the proposal that is kept. -/
def Voter.LockCoherent (P : Primitives) (v : Voter) : Prop :=
  v.current.lockedHash ≠ 0 → ∃ pp, v.current.preprepare = some pp ∧ P.hash pp.proposal = v.current.lockedHash

theorem lockCoherent_lockHash {pp : Preprepare} (hpp : v.current.preprepare = some pp) :
    (v.lockHash P).LockCoherent P :=
  fun _ => ⟨pp, by simpa using hpp, by simpa using (RoundState.lockHash_lockedHash hpp).symm⟩

theorem lockCoherent_updateRoundState (H : v.LockCoherent P) (view : View) :
    (v.updateRoundState B view true).LockCoherent P := by
  intro hlock
  rcases v.updateRoundState_lock view with ⟨-, hkeep, hpp⟩ | ⟨-, hdrop, -⟩
  · rw [hkeep] at hlock ⊢
    rw [hpp]
    exact H hlock
  · exact absurd hdrop hlock

theorem Voter.LockCoherent.move (H : v.LockCoherent P) (hC : Calm P s V B inp)
    (h : Move P B v₀ inp v v') : v'.LockCoherent P := by
  have hbroadcast : ∀ {u : Voter} {code msg}, u.LockCoherent P → (u.broadcast P B code msg).LockCoherent P := by
    intro u code msg hu
    simpa [Voter.LockCoherent] using hu
  cases h with
  | gossip | request | addPrepare | addCommit | addRoundChange => exact H
  | propose | oldCommit => exact hbroadcast H
  | accept _ _ _ _ _ _ _ _ _ _ hlock =>
    -- the core is not locked, since no proposal is bad
    have hzero := hC.lockedHash_eq_zero hlock
    exact hbroadcast fun hlocked => absurd hzero hlocked
  | acceptLocked _ _ _ pp _ _ _ _ _ _ _ hhash =>
    exact hbroadcast fun _ => ⟨pp, rfl, hhash⟩
  | lock _ hsub =>
    obtain ⟨pp, hpp, -⟩ := RoundState.subject_eq_some.mp hsub
    exact hbroadcast (lockCoherent_lockHash hpp)
  | commit _ _ hpp => exact lockCoherent_lockHash hpp
  | unlock _ _ hfail => exact absurd hfail (by simp [hC.commits])
  | catchUp => exact hbroadcast (lockCoherent_updateRoundState H _)
  | newRound => exact lockCoherent_updateRoundState H _
  | newSequence => exact fun hlock => absurd rfl hlock

theorem Move.lockedHash_stable (h : Move P B v₀ inp v v') (hC : Calm P s V B inp)
    (H : v.LockCoherent P) (hlock : v.current.lockedHash ≠ 0)
    (hsequence : v'.current.sequence = v.current.sequence) : v'.current.lockedHash = v.current.lockedHash := by
  obtain ⟨pp, hpp, hhash⟩ := H hlock
  have hlockHash : (v.current.lockHash P).lockedHash = v.current.lockedHash :=
    (RoundState.lockHash_lockedHash hpp).trans hhash
  have hkeep : ∀ view, (v.updateRoundState B view true).current.lockedHash = v.current.lockedHash := by
    intro view
    rcases v.updateRoundState_lock view with ⟨-, hkeep, -⟩ | ⟨hfree, -⟩
    · exact hkeep
    · exact absurd (hC.lockedHash_eq_zero hfree) hlock
  cases h with
  | gossip | request | addPrepare | addCommit | addRoundChange => rfl
  | propose | oldCommit | acceptLocked => simp
  | accept _ _ _ _ _ _ _ _ _ _ hfree =>
    exact absurd (hC.lockedHash_eq_zero hfree) hlock
  | lock | commit => simpa using hlockHash
  | unlock _ _ hfail => exact absurd hfail (by simp [hC.commits])
  | catchUp => simpa using hkeep _
  | newRound => exact hkeep _
  | newSequence =>
    have hnew : (B.lastProposal .startNewRound).1.number + 1 = v.current.sequence := hsequence
    omega

/-! ### One block a sequence -/

/-- The voter at `a`, in a run all of whose events are `Calm`. -/
structure Voter.Honest (P : Primitives) (s : ℕ) (V : List Address) (a : Address) (v : Voter) : Prop where
  address : v.address = a
  signed : ∀ {w m}, (w, Effect.broadcast m) ∈ v.log → m.SignedBy P a
  preprepares : ∀ {w m pp}, (w, Effect.broadcast m) ∈ v.log → m.code = msgPreprepare →
    P.decodePreprepare m.msg = some pp → pp.proposal.number = pp.view.sequence
  history : v.History P
  heights : v.Heights
  validators : v.current.sequence = s → v.valSet.addresses = V
  lockCoherent : v.LockCoherent P
  commit_locked : ∀ {w sub}, v.Sent P msgCommit w sub → sub.view = w →
    w.sequence = v.current.sequence → v.current.lockedHash = sub.digest ∧ sub.digest ≠ 0
  commit_unique : ∀ {w w' sub sub'}, v.Sent P msgCommit w sub → v.Sent P msgCommit w' sub' →
    sub.view = w → sub'.view = w' → w.sequence = w'.sequence → sub.digest = sub'.digest

namespace Voter.Honest

theorem start (hB : B.Reliable s V) (a : Address) : (Core.start P B a).toVoter.Honest P s V a where
  address := rfl
  signed hm := absurd hm (by simp [start_log])
  preprepares hm := absurd hm (by simp [start_log])
  history := run_historyOf P B a []
  heights := run_heights (l := []) trivial
  validators h := hB.validators _ h
  lockCoherent hlock := absurd rfl hlock
  commit_locked hs := absurd hs (Voter.not_sent (by simp [start_log]))
  commit_unique hs := absurd hs (Voter.not_sent (by simp [start_log]))

variable {a : Address} (H : v.Honest P s V a) (hC : Calm P s V B inp) (h : Move P B v₀ inp v v')

include H h

theorem preprepares_move {w : View} {m : Message} {pp : Preprepare}
    (hm : (w, Effect.broadcast m) ∈ v'.log) (hcode : m.code = msgPreprepare)
    (hdec : P.decodePreprepare m.msg = some pp) : pp.proposal.number = pp.view.sequence := by
  rcases h.sends hm with hold | ⟨-, -, hsends⟩
  · exact H.preprepares hold hcode hdec
  · cases hsends with
    | preprepare _ _ hmsg hnumber =>
      rw [hmsg, P.decode_encodePreprepare] at hdec
      cases hdec
      exact hnumber.symm
    | prepare _ hcode' | commit _ hcode' | oldCommit _ _ _ _ hcode' | roundChange hcode' =>
      exact absurd (hcode.symm.trans hcode') (by decide)

include hC

/-- COMMITs of the current sequence were for the lock before the move, which is still there. -/
theorem commit_locked_move {w : View} {sub : Subject} (hs : v'.Sent P msgCommit w sub)
    (hview : sub.view = w) (hsequence : w.sequence = v'.current.sequence) :
    v'.current.lockedHash = sub.digest ∧ sub.digest ≠ 0 := by
  rcases h.sent_commit hs with hold | ⟨-, -, -, hlocked, hvotes⟩ | ⟨hw, heq, hlt, -⟩
  · have hwle : w ≤ v.currentView := by
      obtain ⟨m, hm, -⟩ := hold
      exact H.history.stamp_le hm
    have hvle := h.view_le
    rw [View.le_iff] at hwle hvle
    have hold' : v.current.sequence = v'.current.sequence := by
      simp only [Voter.view_eq] at hwle hvle
      omega
    obtain ⟨hlock, hne⟩ := H.commit_locked hold hview (hsequence.trans hold'.symm)
    rw [h.lockedHash_stable hC H.lockCoherent (hlock ▸ hne) hold'.symm]
    exact ⟨hlock, hne⟩
  · obtain ⟨pp, -, rfl⟩ := RoundState.subject_eq_some.mp hvotes.subject
    exact ⟨hlocked, P.hash_ne_zero _⟩
  · exact absurd (hview.trans (hw.trans heq)) hlt.ne

theorem commit_unique_move {w w' : View} {sub sub' : Subject} (hs : v'.Sent P msgCommit w sub)
    (hs' : v'.Sent P msgCommit w' sub') (hview : sub.view = w) (hview' : sub'.view = w')
    (hsequence : w.sequence = w'.sequence) : sub.digest = sub'.digest := by
  have hnew : ∀ {w w' sub sub'}, v'.Sent P msgCommit w sub → v'.Sent P msgCommit w' sub' →
      sub.view = w → sub'.view = w' → w.sequence = w'.sequence → w = v'.currentView →
      sub.digest = sub'.digest := by
    intro w w' sub sub' hs hs' hview hview' hsequence hw
    have hcurrent : w.sequence = v'.current.sequence := by
      rw [hw]
      rfl
    rw [← (H.commit_locked_move hC h hs hview hcurrent).1,
      ← (H.commit_locked_move hC h hs' hview' (hsequence.symm.trans hcurrent)).1]
  rcases h.sent_commit hs with hold | ⟨hw, -⟩ | ⟨hw, -⟩
  · rcases h.sent_commit hs' with hold' | ⟨hw', -⟩ | ⟨hw', -⟩
    · exact H.commit_unique hold hold' hview hview' hsequence
    · exact (hnew hs' hs hview' hview hsequence.symm hw').symm
    · exact (hnew hs' hs hview' hview hsequence.symm hw').symm
  · exact hnew hs hs' hview hview' hsequence hw
  · exact hnew hs hs' hview hview' hsequence hw

theorem move : v'.Honest P s V a where
  address := h.address_eq.trans H.address
  signed hm := by
    rcases h.sends hm with hold | ⟨-, hsigned, -⟩
    · exact H.signed hold
    · exact H.address ▸ hsigned
  preprepares := H.preprepares_move h
  history := H.history.move h
  heights := H.heights.move hC.heightMatches h
  validators hs := by
    rcases h.valSet_cases with ⟨haddr, hsequence⟩ | ⟨-, head, hhead, haddr⟩
    · exact haddr.trans (H.validators (hsequence.symm.trans hs))
    · exact haddr.trans (hC.validators head (hhead.trans hs))
  lockCoherent := H.lockCoherent.move hC h
  commit_locked := H.commit_locked_move hC h
  commit_unique := H.commit_unique_move hC h

end Voter.Honest

end GoWanchain.Istanbul
