import GoWanchain.Istanbul.Sample

/-!
# The view and the lock of a core

The view of a core changes in two functions. `sendRoundChange` enters a later round, and `startNewRound` the round it is
given, or the sequence behind the last proposal if the core is not beyond that: so views never go back, whatever heights
the backend reports (`views_never_go_back`).

A lock comes with the block that it is on, and both are carried over to the next round. But a PRE-PREPARE for another
block is accepted while the bad-block check finds the locked one bad, and the lock stays: when the check has forgotten
that, the core is locked and has another proposal (`lock_coherent`).
-/

namespace GoWanchain.Istanbul

open Core

variable {P : Primitives} {B : Backend}

/-! ### Views -/

namespace Core

/-- The sequence stays, or is that behind the last proposal, in its first round. -/
def Follows (B : Backend) (c c' : Core) : Prop :=
  c'.current.sequence = c.current.sequence ∨ c'.currentView = ⟨0, (B.lastProposal .startNewRound).1.number + 1⟩

variable {c : Core}

theorem follows_sendRoundChange (r : ℕ) : Follows B c (c.sendRoundChange P B r) := by
  unfold sendRoundChange
  split_ifs
  · exact .inl rfl
  · left
    show (Voter.broadcast P B _ _ _).currentView.sequence = _
    rw [Voter.broadcast_currentView]
    exact congrArg View.sequence (Voter.updateRoundState_view _ _ _)

@[simp] theorem sendPreprepare_current (v : Voter) (p : Block) : (v.sendPreprepare P B p).current = v.current := by
  unfold Voter.sendPreprepare
  split_ifs
  · rw [Voter.broadcast_current]
  · rfl

@[simp] theorem sendPrepare_current (v : Voter) : (v.sendPrepare P B).current = v.current := by
  unfold Voter.sendPrepare
  split <;> simp

@[simp] theorem sendCommit_current (v : Voter) : (v.sendCommit P B).current = v.current := by
  unfold Voter.sendCommit
  split <;> simp [Voter.broadcastCommit]

theorem proposeAgain_current : (c.proposeAgain P B).current = c.current := by
  unfold proposeAgain
  split_ifs <;> split <;> simp

theorem enterView_view (view : View) (rc : Bool) (lp : Address) : (c.enterView P B view rc lp).currentView = view := by
  unfold enterView Voter.currentView
  rw [newRoundChangeTimer_toVoter]
  split_ifs
  · rw [proposeAgain_current]
    simp [Voter.updateRoundState_view]
  · simp [Voter.updateRoundState_view]

theorem follows_startNewRound (r : ℕ) : Follows B c (c.startNewRound P B r) := by
  unfold startNewRound
  dsimp only
  split_ifs
  · exact .inr (enterView_view _ _ _)
  · exact .inl rfl
  · exact .inl rfl
  · exact .inl (congrArg View.sequence (enterView_view _ _ _))
  · exact .inl rfl

theorem follows_commit : Follows B c ((c.onVoter (·.lockHash P)).commit P B) := by
  unfold commit
  dsimp only
  split
  · left
    simp
  · split_ifs
    · refine (follows_sendRoundChange _).imp (fun h => ?_) id
      rw [sendNextRoundChange, h]
      simp
    · left
      simp

section

variable (msg : Message)

theorem follows_handlePreprepare (src : Validator) :
    Follows B c (c.handlePreprepare P B msg src).1 := by
  unfold handlePreprepare
  split
  · exact .inl rfl
  · rename_i pp _
    split
    · left
      split_ifs <;> simp [Voter.sendCommitForOldBlock, Voter.broadcastCommit]
    · by_cases hproposer : (!c.valSet.isProposer src.address) = true
      · rw [if_pos hproposer]
        exact .inl rfl
      · rw [if_neg hproposer]
        cases B.verify pp.proposal
        case futureBlock => exact .inl rfl
        case invalid => exact follows_sendRoundChange _
        case ok =>
          dsimp only
          split_ifs
          · left
            simp
          · exact follows_sendRoundChange _
          · left
            simp
          · exact .inl rfl

theorem follows_handlePrepare : Follows B c (c.handlePrepare P B msg).1 := by
  left
  unfold handlePrepare
  split
  · rfl
  · split
    · rfl
    · split
      · rfl
      · dsimp only
        split_ifs <;> simp

theorem follows_handleCommit : Follows B c (c.handleCommit P B msg).1 := by
  unfold handleCommit
  split
  · exact .inl rfl
  · split
    · exact .inl rfl
    · split
      · exact .inl rfl
      · dsimp only
        split_ifs
        · exact follows_commit (c := c.onVoter (·.acceptCommit msg))
        · exact .inl rfl

theorem follows_handleRoundChange : Follows B c (c.handleRoundChange P B msg).1 := by
  have hadded : ∀ rcs r, Follows B c (sendRoundChange P B { c with roundChangeSet := rcs } r) ∧
      Follows B c (startNewRound P B { c with roundChangeSet := rcs } r) :=
    fun rcs r => ⟨follows_sendRoundChange (c := { c with roundChangeSet := rcs }) r,
      follows_startNewRound (c := { c with roundChangeSet := rcs }) r⟩
  unfold handleRoundChange
  split
  · exact .inl rfl
  · split
    · exact .inl rfl
    · dsimp only
      split
      · exact .inl rfl
      · split_ifs
        · exact (hadded _ _).1
        · exact .inl rfl
        · exact (hadded _ _).2
        · exact .inl rfl
        · exact .inl rfl

theorem follows_handleCheckedMsg (src : Validator) :
    Follows B c (c.handleCheckedMsg P B msg src).1 := by
  have htest : ∀ r : Core × Option Err, Follows B c r.1 → Follows B c (testBacklog P msg src r).1 := by
    intro r hr
    rwa [Follows, Voter.currentView, testBacklog_toVoter]
  unfold handleCheckedMsg
  split_ifs
  · exact htest _ (follows_handlePreprepare msg src)
  · exact htest _ (follows_handlePrepare msg)
  · exact htest _ (follows_handleCommit msg)
  · exact htest _ (follows_handleRoundChange msg)
  · exact .inl rfl

end

theorem follows_handleRequestEvent (request : Option Block) : Follows B c (c.handleRequestEvent P B request) := by
  have hrequest : (c.handleRequest P B request).1.current.sequence = c.current.sequence := by
    unfold handleRequest
    split
    · rfl
    · split
      · rfl
      · dsimp only
        split_ifs <;> simp
  left
  unfold handleRequestEvent
  dsimp only
  split <;> exact hrequest

theorem follows_handleTimeoutMsg : Follows B c (c.handleTimeoutMsg P B) := by
  unfold handleTimeoutMsg
  dsimp only
  split_ifs
  · split
    · split_ifs
      · exact follows_sendRoundChange _
      · exact follows_startNewRound _
    · exact follows_startNewRound _
  · split
    · split_ifs
      · exact follows_sendRoundChange _
      · exact follows_sendRoundChange _
    · exact follows_sendRoundChange _
  · exact follows_startNewRound _
  · exact follows_sendRoundChange _

theorem follows_step (ev : Event) : Follows B c (step P B c ev) := by
  have hgossip : ∀ payload (r : Core × Option Err), Follows B c r.1 → Follows B c (gossipIfOk payload r) := by
    intro payload r hr
    unfold gossipIfOk
    split_ifs
    · exact hr
    · exact hr
  cases ev with
  | request p => exact follows_handleRequestEvent p
  | message =>
    refine hgossip _ _ ?_
    unfold handleMsg
    split
    · exact .inl rfl
    · split
      · exact .inl rfl
      · exact follows_handleCheckedMsg _ _
  | posted i =>
    have herase : ∀ msg src, Follows B c (handleCheckedMsg P B { c with posted := c.posted.eraseIdx i } msg src).1 :=
      fun msg src => follows_handleCheckedMsg (c := { c with posted := c.posted.eraseIdx i }) msg src
    simp only [step]
    split
    · exact .inl rfl
    · exact hgossip _ _ (herase _ _)
    · exact follows_handleRequestEvent (c := { c with posted := c.posted.eraseIdx i }) _
  | futurePreprepare =>
    simp only [step]
    split
    · exact .inl rfl
    · exact .inl rfl
  | timeout => exact follows_handleTimeoutMsg
  | finalCommitted => exact follows_startNewRound 0

end Core

theorem view_le_advance (c : Core) (x : Input) : c.currentView ≤ (advance P c x).currentView :=
  Moves.invariant (I := fun v => c.currentView ≤ v.currentView) (fun _ _ h hmove => h.trans hmove.view_le)
    (step_moves c x.2) le_rfl

/-- **Views never go back.** The view of a core is never before one that it was in. An event leaves the sequence as it
is, or the core is then in the first round of the sequence behind the last proposal that the backend reports. -/
theorem views_never_go_back (P : Primitives) (B₀ : Backend) (a : Address) (l l' : List Input) (x : Input) :
    (Run.run (advance P) (start P B₀ a) l).currentView ≤ (Run.run (advance P) (start P B₀ a) (l ++ l')).currentView ∧
    Follows x.1 (Run.run (advance P) (start P B₀ a) l) (Run.run (advance P) (start P B₀ a) (l ++ [x])) := by
  constructor
  · rw [Run.run, Run.run, List.foldl_append]
    generalize List.foldl (advance P) (start P B₀ a) l = c
    induction l' generalizing c with
    | nil => exact le_rfl
    | cons y _ ih => exact (view_le_advance c y).trans (ih _)
  · rw [Run.run_concat]
    exact follows_step x.2

/-! ### Locks -/

/-- A lock is on the current proposal. -/
def Voter.Coherent (P : Primitives) (v : Voter) : Prop :=
  v.current.lockedHash ≠ 0 → ∃ p, v.current.proposal = some p ∧ P.hash p = v.current.lockedHash

/-- A PRE-PREPARE that is handled is for the locked block, or the bad-block check does not find that one bad. -/
def LockTrusted (P : Primitives) (B : Backend) (v₀ : Voter) (inp : Option (Message × Validator)) : Prop :=
  ∀ e ∈ inp, e.1.code = msgPreprepare → ∀ pp ∈ P.decodePreprepare e.1.msg,
    v₀.current.lockedHash ≠ 0 → B.hasBadProposal .handlePreprepare v₀.current.lockedHash = true →
    P.hash pp.proposal = v₀.current.lockedHash

instance (P : Primitives) (B : Backend) (v₀ : Voter) (inp : Option (Message × Validator)) :
    Decidable (LockTrusted P B v₀ inp) :=
  inferInstanceAs (Decidable (∀ e ∈ inp, _))

namespace Voter.Coherent

variable {v v' v₀ : Voter} {inp : Option (Message × Validator)}

theorem of_current (h : v.Coherent P) (hlock : v'.current.lockedHash = v.current.lockedHash)
    (hpp : v'.current.preprepare = v.current.preprepare) : v'.Coherent P := by
  unfold Voter.Coherent RoundState.proposal at *
  rwa [hlock, hpp]

theorem of_zero (h : v.current.lockedHash = 0) : v.Coherent P := fun hne => absurd h hne

theorem of_locked (pp : Preprepare) (hpp : v.current.preprepare = some pp)
    (hlock : v.current.lockedHash = P.hash pp.proposal) : v.Coherent P :=
  fun _ => ⟨pp.proposal, by rw [RoundState.proposal, hpp, Option.map_some], hlock.symm⟩

theorem updateRoundState (h : v.Coherent P) (view : View) : (v.updateRoundState B view true).Coherent P := by
  rcases v.updateRoundState_lock (B := B) view with ⟨-, hlock, hpp⟩ | ⟨-, hlock, -⟩
  · exact h.of_current hlock hpp
  · exact of_zero hlock

theorem enter (h : v.Coherent P) (view : View) (lp : Address) : (v.enter B view true lp).Coherent P :=
  (h.updateRoundState (B := B) view).of_current rfl rfl

theorem move (h : v.Coherent P) (hC : LockTrusted P B v₀ inp) (hmove : Move P B v₀ inp v v') : v'.Coherent P := by
  cases hmove with
  | gossip | request | addPrepare | addCommit | addRoundChange => exact h
  | propose | oldCommit => exact h.of_current (by simp) (by simp)
  | accept hgiven msg src pp hinp hcode hdec _ _ _ hlock =>
    subst hgiven
    by_cases hzero : v.current.lockedHash = 0
    · exact of_zero (by simpa using hzero)
    · -- the lock is not in force, so the check finds the locked block bad
      have hbad : B.hasBadProposal .handlePreprepare v.current.lockedHash = true := by
        rw [RoundState.isHashLocked, if_neg hzero] at hlock
        simpa using hlock
      have hhash := hC (msg, src) hinp hcode pp hdec hzero hbad
      exact of_locked pp (by simp) (by simpa using hhash.symm)
  | acceptLocked _ _ _ pp _ _ _ _ _ _ _ hhash =>
    exact of_locked pp (by simp) (by simpa using hhash.symm)
  | lock _ hsub =>
    obtain ⟨pp, hpp, -⟩ := RoundState.subject_eq_some.mp hsub
    exact of_locked pp (by simp [hpp]) (by simp [RoundState.lockHash_lockedHash hpp])
  | commit _ pp hpp =>
    exact of_locked pp (by simp [hpp]) (by simp [RoundState.lockHash_lockedHash hpp])
  | unlock | newSequence => exact of_zero rfl
  | catchUp r =>
    refine (h.updateRoundState (B := B) ⟨r, v.current.sequence⟩).of_current ?_ ?_
    · simp
    · simp
  | newRound => exact h.enter _ _

end Voter.Coherent

/-- **Lock coherence.** If the bad-block check finds no locked block bad while a PRE-PREPARE for another one is handled,
then whenever the core is locked its proposal is the block that it is locked on, and so is what it proposes again when
it has changed the round. -/
theorem lock_coherent (P : Primitives) (B₀ : Backend) (a : Address) (l : List Input)
    (h : Meets P (LockTrusted P) (start P B₀ a) l) (c : Core) (hc : c = Run.run (advance P) (start P B₀ a) l) :
    (∀ bad, c.current.isHashLocked bad = true → ∃ p, c.current.proposal = some p ∧ P.hash p = c.current.lockedHash) ∧
    ∀ B view lp (c' : Core), c'.toVoter = c.enter B view true lp →
      c'.current.isHashLocked (B.hasBadProposal .startNewRound) = true →
      ∃ p, P.hash p = c'.current.lockedHash ∧ c'.proposeAgain P B = c'.onVoter (·.sendPreprepare P B p) := by
  have H : c.Coherent P := by
    rw [hc]
    refine run_invariant (.of_zero rfl) ?_ (fun B v₀ inp v v' hC H hmove => H.move hC hmove) h
    exact fun e he => absurd he (by simp)
  refine ⟨fun bad hlock => H (RoundState.lockedHash_ne_zero hlock), fun B view lp c' hc' hlock => ?_⟩
  have H' : c'.Coherent P := hc' ▸ H.enter view lp
  obtain ⟨p, hp, hhash⟩ := H' (RoundState.lockedHash_ne_zero hlock)
  refine ⟨p, hhash, ?_⟩
  rw [proposeAgain, if_pos hlock, hp]

namespace Sample

/-- Validator 2 locks on a block in round 0, and changes to round 2 with the others. -/
def lockRun : List Input :=
  let block : Block := ⟨1, 0, []⟩
  (backend 4 genesis, deliver (preprepareOf 1 ⟨⟨0, 1⟩, block⟩))
    :: [1, 3, 4].map (fun a => (backend 4 genesis, deliver (prepareOf a ⟨⟨0, 1⟩, hash block⟩)))
    ++ [(backend 4 genesis, .timeout), (backend 4 genesis, .timeout)]
    ++ [1, 3, 4].map fun a => (backend 4 genesis, deliver (roundChangeOf a ⟨2, 1⟩))

theorem lock_coherent_lockRun : (afterTwo lockRun).current.isHashLocked (fun _ => false) = true ∧
    ∃ p, (afterTwo lockRun).current.proposal = some p ∧ hash p = (afterTwo lockRun).current.lockedHash := by
  have hmeets : Meets primitives (LockTrusted primitives) two lockRun := by decide +kernel
  have hlock : (afterTwo lockRun).current.isHashLocked (fun _ => false) = true := by decide +kernel
  exact ⟨hlock, (lock_coherent primitives (backend 4 genesis) 2 lockRun hmeets (afterTwo lockRun) rfl).1 _ hlock⟩

/-- Validator 3 proposes another block, while the check finds the locked one bad. -/
def forgottenRun : List Input :=
  lockRun ++ [({ backend 4 genesis with hasBadProposal := fun _ _ => true },
    deliver (preprepareOf 3 ⟨⟨2, 1⟩, ⟨1, 0, [1]⟩⟩))]

/-- When the check does not find it bad any more, the core is locked on a block that is not its proposal. -/
theorem locked_on_other_block : (afterTwo forgottenRun).current.isHashLocked (fun _ => false) = true ∧
    (afterTwo forgottenRun).current.proposal = some ⟨1, 0, [1]⟩ ∧
    (afterTwo forgottenRun).current.lockedHash = hash ⟨1, 0, []⟩ ∧ hash ⟨1, 0, [1]⟩ ≠ hash ⟨1, 0, []⟩ := by
  decide +kernel

end Sample

end GoWanchain.Istanbul
