import GoWanchain.Istanbul.Network
import Mathlib.Data.Finset.Max

/-!
# Locks in a network of cores

A core locks on a block when it sees `2 F + 1` PREPAREs or COMMITs for it in one view. The votes behind a
lock are still there afterwards: a validator that sent a COMMIT is locked on the block for the rest of the
sequence, and one that sent a PREPARE can only be locked elsewhere by the votes of a later round
(`Voter.LockBacked`).
-/

namespace GoWanchain.Istanbul

open Core

variable {P : Primitives} {B : Backend} {v₀ v v' : Voter} {inp : Option (Message × Validator)}
  {net : Net} {x : NetInput} {s f : ℕ} {V : List Address}

/-! ### What a move does to the lock -/

/-- The voter takes a lock that it did not have: on the current proposal, with the votes for it. -/
structure Voter.TakesLock (P : Primitives) (v v' : Voter) : Prop where
  view : v'.currentView = v.currentView
  proposal : ∃ pp, v.current.preprepare = some pp ∧ v'.current.lockedHash = P.hash pp.proposal
  quorum : 2 * v.valSet.F < v.current.getPrepareOrCommitSize ∨ 2 * v.valSet.F < (v.current.commits.size : ℤ)

theorem Voter.updateRoundState_lockedHash (v : Voter) (view : View) :
    (v.updateRoundState B view true).current.lockedHash = v.current.lockedHash
      ∨ (v.updateRoundState B view true).current.lockedHash = 0 := by
  rcases v.updateRoundState_lock view with ⟨-, hkeep, -⟩ | ⟨-, hdrop, -⟩
  · exact .inl hkeep
  · exact .inr hdrop

theorem Move.takesLock (h : Move P B v₀ inp v v') (hzero : v.current.lockedHash = 0)
    (hlock : v'.current.lockedHash ≠ 0) : v.TakesLock P v' := by
  have hround : ∀ view, (v.updateRoundState B view true).current.lockedHash = 0 := by
    intro view
    rcases v.updateRoundState_lockedHash (B := B) view with hkeep | hdrop
    · exact hkeep.trans hzero
    · exact hdrop
  cases h with
  | gossip | request | addPrepare | addCommit | addRoundChange => exact absurd hzero hlock
  | propose | oldCommit | accept => exact absurd (by simpa using hzero) hlock
  | acceptLocked _ _ _ _ _ _ _ _ _ _ hlocked =>
    exact absurd hzero hlocked
  | lock _ hsub _ _ hquorum =>
    obtain ⟨pp, hpp, -⟩ := RoundState.subject_eq_some.mp hsub
    refine ⟨by simp [Voter.currentView], ⟨pp, hpp, ?_⟩, .inl ?_⟩
    · simpa using RoundState.lockHash_lockedHash hpp
    · exact hquorum.resolve_left fun hlocked => hlocked.1 hzero
  | commit _ pp hpp _ _ hquorum =>
    refine ⟨by simp [Voter.currentView], ⟨pp, hpp, ?_⟩, .inr hquorum⟩
    simpa using RoundState.lockHash_lockedHash hpp
  | unlock | newSequence => exact absurd rfl hlock
  | catchUp => exact absurd (by simpa using hround _) hlock
  | newRound => exact absurd (hround _) hlock

theorem Move.lockedHash_of_sequence_ne (h : Move P B v₀ inp v v')
    (hsequence : v'.current.sequence ≠ v.current.sequence) : v'.current.lockedHash = 0 := by
  have hround : ∀ r, (v.updateRoundState B ⟨r, v.current.sequence⟩ true).current.sequence = v.current.sequence :=
    fun r => congrArg View.sequence (Voter.updateRoundState_view v ⟨r, v.current.sequence⟩ true)
  cases h
  case newSequence hhead => rfl
  case catchUp r hlt =>
    rw [Voter.broadcast_current] at hsequence
    exact absurd (hround r) hsequence
  case newRound r hinp hpos hle hwait lastProposer => exact absurd (hround r) hsequence
  -- every other move stays in its sequence
  all_goals exact absurd (by simp) hsequence

/-! ### The votes behind a lock -/

/-- More than `2 f` validators voted for `h` in round `r` of sequence `s`, or sent a COMMIT for it in
some round of the sequence. -/
def LockVotes (P : Primitives) (net : Net) (s f : ℕ) (V : List Address) (r : ℕ) (h : Hash) : Prop :=
  ∃ Q ⊆ V.toFinset, 2 * f < Q.card ∧ ∀ q ∈ Q, (net q).Sent P msgPrepare ⟨r, s⟩ ⟨⟨r, s⟩, h⟩ ∨ CommitsTo P net s h q

/-- A lock rests on the votes of a round, and the voter sent no PREPARE in a later round, nor one for
another block in that round. -/
def Voter.LockBacked (P : Primitives) (s f : ℕ) (V : List Address) (net : Net) (v : Voter) : Prop :=
  v.current.sequence = s → v.current.lockedHash ≠ 0 → ∃ r, LockVotes P net s f V r v.current.lockedHash ∧
      ∀ w sub, v.Sent P msgPrepare w sub → w.sequence = s →
        w.round ≤ r ∧ (w.round = r → sub.digest = v.current.lockedHash)

theorem Backed.lockVotes {h : Hash} (hb : Backed P net s f V h) (r : ℕ) : LockVotes P net s f V r h := by
  obtain ⟨Q, hQ, hcard, hall⟩ := hb
  exact ⟨Q, hQ, hcard, fun q hq => .inr (hall q hq)⟩

theorem lockVotes_mono {r : ℕ} {h : Hash} (hv : LockVotes P net s f V r h) :
    LockVotes P (netStep P net x) s f V r h := by
  obtain ⟨Q, hQ, hcard, hall⟩ := hv
  exact ⟨Q, hQ, hcard, fun q hq => (hall q hq).imp sent_mono commitsTo_mono⟩

theorem Voter.LockBacked.mono (H : v.LockBacked P s f V net) : v.LockBacked P s f V (netStep P net x) := by
  intro hs hlock
  obtain ⟨r, hvotes, hprepares⟩ := H hs hlock
  exact ⟨r, lockVotes_mono hvotes, hprepares⟩

namespace NetInv

variable (I : NetInv P s f V net)

include I

theorem lockVotes_of_takesLock (hV : V.length = 3 * f + 1) {a : Address}
    (H : Acts P s f V net a v) (hs : v.current.sequence = s) (ht : v.TakesLock P v') :
    LockVotes P net s f V v.current.round v'.current.lockedHash := by
  obtain ⟨pp, hpp, hhash⟩ := ht.proposal
  have haddrs := H.honest.validators hs
  have hF : v.valSet.F = f := ValidatorSet.F_of_addresses (haddrs ▸ hV)
  have hsubject : v.current.subject P = some ⟨⟨v.current.round, s⟩, v'.current.lockedHash⟩ := by
    apply RoundState.subject_eq_some.mpr
    refine ⟨pp, hpp, ?_⟩
    rw [hhash, ← hs]
    rfl
  -- one that answers an old PRE-PREPARE is for a block that was committed before
  by_cases hcommitted : Committed P net s v'.current.lockedHash
  · exact (I.backed hcommitted).lockVotes _
  have hprepare : ∀ q ∈ v.current.prepares.senders,
      (net q).Sent P msgPrepare ⟨v.current.round, s⟩ ⟨⟨v.current.round, s⟩, v'.current.lockedHash⟩ := by
    intro q hq
    obtain ⟨m, hm⟩ := MessageSet.mem_senders.mp hq
    obtain ⟨rfl, -, ⟨hcode, hdec⟩, w, hlog⟩ := H.tallies.prepares.mem hm
    rw [hsubject] at hdec
    have hsent : (net m.address).Sent P msgPrepare w _ := ⟨m, hlog, hcode, hdec⟩
    rwa [← (I.honest _).history.prepare_view hsent] at hsent
  have hcommit : ∀ q ∈ v.current.commits.senders, CommitsTo P net s v'.current.lockedHash q := by
    intro q hq
    obtain ⟨m, hm⟩ := MessageSet.mem_senders.mp hq
    obtain ⟨rfl, -, ⟨hcode, hdec⟩, w, hlog⟩ := H.tallies.commits.mem hm
    rw [hsubject] at hdec
    have hsent : (net m.address).Sent P msgCommit w _ := ⟨m, hlog, hcode, hdec⟩
    by_cases hview : (⟨v.current.round, s⟩ : View) = w
    · exact ⟨w, _, hsent, hview, by rw [← hview], rfl⟩
    · exact absurd (I.oldCommits hsent hview rfl) hcommitted
  have hsubset : v.current.prepares.senders ∪ v.current.commits.senders ⊆ V.toFinset :=
    haddrs ▸ Finset.union_subset H.tallies.prepares.senders_subset H.tallies.commits.senders_subset
  refine ⟨v.current.prepares.senders ∪ v.current.commits.senders, hsubset, ?_, fun q hq => ?_⟩
  · have hle : v.current.commits.senders.card ≤ (v.current.prepares.senders ∪ v.current.commits.senders).card :=
      Finset.card_le_card Finset.subset_union_right
    rw [MessageSet.card_senders] at hle
    have hquorum := ht.quorum
    rw [RoundState.getPrepareOrCommitSize_eq H.tallies.prepares, hF] at hquorum
    omega
  · exact (Finset.mem_union.mp hq).imp (hprepare q) (hcommit q)

theorem lockBacked_move (hV : V.length = 3 * f + 1) (hC : Calm P s V B inp) {a : Address}
    (H : Acts P s f V net a v) (H' : v'.Honest P s V a) (hlocks : v.LockBacked P s f V net)
    (h : Move P B v₀ inp v v') : v'.LockBacked P s f V net := by
  intro hs hlock
  by_cases hzero : v.current.lockedHash = 0
  · have ht := h.takesLock hzero hlock
    have hsv : v.current.sequence = s := by
      rw [← hs]
      exact (congrArg View.sequence ht.view).symm
    refine ⟨v.current.round, I.lockVotes_of_takesLock hV H hsv ht, fun w sub hsent hw => ?_⟩
    have hround : v'.current.round = v.current.round := congrArg View.round ht.view
    have hle : w ≤ v'.currentView := by
      obtain ⟨m, hm, -⟩ := hsent
      exact H'.history.stamp_le hm
    rw [View.le_iff] at hle
    simp only [Voter.view_eq] at hle
    refine ⟨by omega, fun hr => ?_⟩
    -- a PREPARE of the current view is for the current proposal, which the lock is on
    have hcurrent : w = v'.currentView := by
      rw [Voter.view_eq]
      cases w
      simp_all
    have hvotes := (H'.history.prepare_current hsent hcurrent).subject
    obtain ⟨pp, hpp, rfl⟩ := RoundState.subject_eq_some.mp hvotes
    obtain ⟨pp', hpp', hhash⟩ := H'.lockCoherent hlock
    cases (hpp.symm.trans hpp')
    exact hhash
  · have hsequence : v'.current.sequence = v.current.sequence := by
      by_contra hne
      exact hlock (h.lockedHash_of_sequence_ne hne)
    have hstable := h.lockedHash_stable hC H.honest.lockCoherent hzero hsequence
    rw [hstable]
    obtain ⟨r, hvotes, hprepares⟩ := hlocks (hsequence.symm.trans hs) hzero
    refine ⟨r, hvotes, fun w sub hsent hw => ?_⟩
    rcases h.sent_prepare hsent with hold | ⟨-, -, -, hfree, -⟩
    · exact hprepares w sub hold hw
    · exact absurd (hC.lockedHash_eq_zero hfree) hzero

theorem lockBacked_step (hV : V.length = 3 * f + 1) (hx : HonestStep P s V net x)
    (hlocks : ∀ a, (net a).LockBacked P s f V net) (b : Address) :
    (netStep P net x b).LockBacked P s f V (netStep P net x) := by
  refine Voter.LockBacked.mono ?_
  by_cases hb : b = x.1
  · subst hb
    rw [netStep_self]
    have hmove : ∀ v v', Acts P s f V net x.1 v ∧ v.LockBacked P s f V net →
        Move P x.2.1 (net x.1).toVoter (dispatch P (net x.1) x.2.2) v v' →
        Acts P s f V net x.1 v' ∧ v'.LockBacked P s f V net := by
      rintro v v' ⟨H, hl⟩ hmove
      have H' := I.acts_move hx hV H hmove
      exact ⟨H', I.lockBacked_move hV (I.calm hx) H H'.honest hl hmove⟩
    exact (Moves.invariant hmove (step_moves _ _) ⟨I.acts x.1, hlocks x.1⟩).2
  · rw [netStep_of_ne hb]
    exact hlocks b

/-- The voters behind the lock of the highest round are unlocked or locked on its block. -/
theorem lockedHash_of_lockVotes {q : Address} {r r' : ℕ} {h : Hash} (hle : r' ≤ r)
    (hq : (net q).Sent P msgPrepare ⟨r, s⟩ ⟨⟨r, s⟩, h⟩ ∨ CommitsTo P net s h q)
    (hs : (net q).current.sequence = s)
    (hprepares : ∀ w sub, (net q).Sent P msgPrepare w sub → w.sequence = s →
      w.round ≤ r' ∧ (w.round = r' → sub.digest = (net q).current.lockedHash)) : (net q).current.lockedHash = h := by
  rcases hq with hsent | ⟨w, sub, hsent, hview, hw, rfl⟩
  · obtain ⟨hround, hdigest⟩ := hprepares _ _ hsent rfl
    exact (hdigest (le_antisymm hround hle)).symm
  · exact ((I.honest q).commit_locked hsent hview (hw.trans hs.symm)).1

end NetInv

theorem lockBacked_run (hV : V.length = 3 * f + 1) {B₀ : Address → Backend}
    (hB₀ : ∀ a, (B₀ a).Reliable s V) {l : List NetInput}
    (h : Run.Along (netStep P) (HonestStep P s V) (netStart P B₀) l) (a : Address) :
    (Run.run (netStep P) (netStart P B₀) l a).LockBacked P s f V (Run.run (netStep P) (netStart P B₀) l) := by
  have hboth := h.invariant (I := fun net => NetInv P s f V net ∧ ∀ a, (net a).LockBacked P s f V net)
    (fun net x hI hx => ⟨hI.1.step hx hV, hI.1.lockBacked_step hV hx hI.2⟩)
    ⟨netInv_start hB₀, fun _ _ hlock => absurd rfl hlock⟩
  exact hboth.2 a

/-! ### A block that a quorum may still vote for -/

/-- The lock that a core has in sequence `s`; zero if it has none. -/
def lockAt (s : ℕ) (c : Core) : Hash := if c.current.sequence = s then c.current.lockedHash else 0

theorem lockAt_ne_zero {c : Core} (h : lockAt s c ≠ 0) :
    c.current.sequence = s ∧ c.current.lockedHash ≠ 0 ∧ lockAt s c = c.current.lockedHash := by
  unfold lockAt at h ⊢
  split_ifs at h ⊢ with hs
  · exact ⟨hs, h, rfl⟩
  · exact absurd rfl h

/-- The validators that are unlocked in sequence `s`, or locked on `h`. -/
def mayVote (net : Net) (s : ℕ) (V : Finset Address) (h : Hash) : Finset Address :=
  V.filter fun q => lockAt s (net q) = 0 ∨ lockAt s (net q) = h

theorem NetInv.exists_mayVote (I : NetInv P s f V net) (hnodup : V.Nodup) (hV : V.length = 3 * f + 1)
    (hlocks : ∀ a, (net a).LockBacked P s f V net) : ∃ h, 2 * f < (mayVote net s V.toFinset h).card := by
  -- the round whose votes are behind each lock
  have hround : ∀ q, lockAt s (net q) ≠ 0 → ∃ r, LockVotes P net s f V r (net q).current.lockedHash ∧
      ∀ w sub, (net q).Sent P msgPrepare w sub → w.sequence = s →
        w.round ≤ r ∧ (w.round = r → sub.digest = (net q).current.lockedHash) := by
    intro q hq
    obtain ⟨hs, hlock, -⟩ := lockAt_ne_zero hq
    exact hlocks q hs hlock
  choose! r hvotes hprepares using hround
  rcases (V.toFinset.filter fun q => lockAt s (net q) ≠ 0).eq_empty_or_nonempty with hempty | hne
  · refine ⟨0, ?_⟩
    have hall : mayVote net s V.toFinset 0 = V.toFinset := by
      apply Finset.filter_true_of_mem
      intro q hq
      have hnot := Finset.filter_eq_empty_iff.mp hempty hq
      exact .inl (not_not.mp hnot)
    rw [hall, List.toFinset_card_of_nodup hnodup, hV]
    omega
  · obtain ⟨a, ha, hmax⟩ := Finset.exists_max_image _ r hne
    obtain ⟨Q, hQ, hcard, hall⟩ := hvotes a (Finset.mem_filter.mp ha).2
    refine ⟨(net a).current.lockedHash, lt_of_lt_of_le hcard (Finset.card_le_card fun q hq => ?_)⟩
    refine Finset.mem_filter.mpr ⟨hQ hq, ?_⟩
    by_cases hzero : lockAt s (net q) = 0
    · exact .inl hzero
    · obtain ⟨hs, -, heq⟩ := lockAt_ne_zero hzero
      have hle : r q ≤ r a := hmax q (Finset.mem_filter.mpr ⟨hQ hq, hzero⟩)
      rw [heq]
      exact .inr (I.lockedHash_of_lockVotes hle (hall q hq) hs (hprepares q hzero))

/-- **Locks leave a quorum.** In every reachable state there is a block that `2 f + 1` validators may
still vote for, being unlocked or locked on it; of those, a crash of any set `X` takes at most `|X|`. -/
theorem locks_leave_quorum (P : Primitives) (s f : ℕ) (V : List Address) (B₀ : Address → Backend)
    (l : List NetInput) (hnodup : V.Nodup) (hV : V.length = 3 * f + 1)
    (hB₀ : ∀ a, (B₀ a).Reliable s V)
    (h : Run.Along (netStep P) (HonestStep P s V) (netStart P B₀) l) : ∃ h, ∀ X : Finset Address, 2 * f + 1
      ≤ (mayVote (Run.run (netStep P) (netStart P B₀) l) s (V.toFinset \ X) h).card + X.card := by
  have I := netInv_run hV hB₀ h
  obtain ⟨h', hcard⟩ := I.exists_mayVote hnodup hV fun a => lockBacked_run hV hB₀ h a
  refine ⟨h', fun X => ?_⟩
  have hsdiff : mayVote (Run.run (netStep P) (netStart P B₀) l) s (V.toFinset \ X) h'
      = mayVote (Run.run (netStep P) (netStart P B₀) l) s V.toFinset h' \ X := by
    ext q
    simp only [mayVote, Finset.mem_filter, Finset.mem_sdiff]
    tauto
  have hle := Finset.card_le_card_sdiff_add_card
    (s := mayVote (Run.run (netStep P) (netStart P B₀) l) s V.toFinset h') (t := X)
  rw [hsdiff]
  omega

namespace Sample

/-- Validator 1 proposes a block in round 0 and locks on it. The others change to round 1, where
validator 2 proposes another block and locks on that. -/
def twoLocksRun : List (Address × Event) :=
  let block : Block := ⟨1, 0, []⟩
  let block' : Block := ⟨1, 0, [1]⟩
  (1, .request (some block)) :: sendTo [1, 2, 3] (preprepareOf 1 ⟨⟨0, 1⟩, block⟩)
    ++ [1, 2, 3].flatMap (fun a => sendTo [1] (prepareOf a ⟨⟨0, 1⟩, hash block⟩))
    ++ [(2, .timeout), (3, .timeout), (4, .timeout)]
    ++ [2, 3, 4].flatMap (fun a => sendTo [2, 3, 4] (roundChangeOf a ⟨1, 1⟩))
    ++ (2, .request (some block')) :: sendTo [2, 3, 4] (preprepareOf 2 ⟨⟨1, 1⟩, block'⟩)
    ++ [2, 3, 4].flatMap fun a => sendTo [2] (prepareOf a ⟨⟨1, 1⟩, hash block'⟩)

theorem locks_leave_quorum_twoLocksRun :
    ∃ h, ∀ X : Finset Address, 3 ≤ (mayVote (afterFour twoLocksRun) 1 ({1, 2, 3, 4} \ X) h).card + X.card := by
  have hrelays : Run.Along (fun net x => netStep primitives net (atGenesis x)) Relays four
      twoLocksRun := by decide +kernel
  exact locks_leave_quorum primitives 1 1 [1, 2, 3, 4] (fun _ => backend 4 genesis)
    (twoLocksRun.map atGenesis) (by decide) rfl (fun _ => reliable_backend) (along_honestStep hrelays)

def decided (net : Net) : List Block :=
  [1, 2, 3, 4].flatMap fun a => (net a).log.filterMap fun e =>
    match e.2 with
    | .commit p _ => some p
    | _ => none

/-- No one has committed. If validator 3 crashes, then of the other three one is locked on the first
block and one on the second, so no block has three validators that may vote for it. -/
theorem locks_wedge_after_crash : Run.Along (fun net x => netStep primitives net (atGenesis x)) Relays four twoLocksRun
      ∧ decided (afterFour twoLocksRun) = []
      ∧ ∀ h, (mayVote (afterFour twoLocksRun) 1 ({1, 2, 3, 4} \ {3}) h).card < 2 * 1 + 1 := by
  refine ⟨by decide +kernel, by decide +kernel, fun h => ?_⟩
  have hone : lockAt 1 (afterFour twoLocksRun 1) = hash ⟨1, 0, []⟩ := by decide +kernel
  have htwo : lockAt 1 (afterFour twoLocksRun 2) = hash ⟨1, 0, [1]⟩ := by decide +kernel
  -- from here on the run does not matter
  generalize afterFour twoLocksRun = net at hone htwo ⊢
  have hcard : ({1, 2, 3, 4} \ {3} : Finset Address).card = 2 * 1 + 1 := by decide
  rw [← hcard]
  apply Finset.card_lt_card
  apply Finset.filter_ssubset.mpr
  by_cases hh : h = hash ⟨1, 0, []⟩
  · refine ⟨2, by decide, ?_⟩
    rw [htwo, hh]
    decide
  · refine ⟨1, by decide, ?_⟩
    rw [hone]
    exact not_or.mpr ⟨hash_ne_zero _, fun heq => hh heq.symm⟩

end Sample

end GoWanchain.Istanbul
