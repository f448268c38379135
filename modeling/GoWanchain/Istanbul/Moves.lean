import GoWanchain.Istanbul.Core

/-!
# What one event can do to the voter

`Move` lists, with their guards, the changes that handling an event can make to the voter: the queues of the
core are forgotten, and `dispatch` names the message, if any, that the event hands to `handleCheckedMsg`.
`step_moves` says that every event is a sequence of moves.
-/

namespace GoWanchain.Istanbul

open Core

/-- The message and sender that an event hands to `handleCheckedMsg`. -/
def dispatch (P : Primitives) (c : Core) : Event → Option (Message × Validator)
  | .message payload =>
    match fromPayload P c.valSet payload with
    | .error _ => none
    | .ok msg => (c.valSet.getByAddress msg.address).map fun s => (msg, s.2)
  | .posted i =>
    match c.posted[i]? with
    | some (.backlogEvent src msg) => some (msg, src)
    | _ => none
  | _ => none

namespace Voter

variable (B : Backend)

/-- The voter's part of `catchUpRound`. -/
@[simps]
def catchUp (v : Voter) (view : View) : Voter :=
  { v.updateRoundState B view true with
    waitingForRoundChange := true
    roundChangeSet := v.roundChangeSet.clear view.round }

/-- The voter's part of `enterView`, before a proposal is sent. -/
@[simps]
def enter (v : Voter) (newView : View) (roundChange : Bool) (lastProposer : Address) : Voter :=
  { v.updateRoundState B newView roundChange with
    state := .acceptRequest
    valSet := v.valSet.calcProposer lastProposer (uint64 newView.round)
    waitingForRoundChange := false
    roundChangeSet := RoundChangeSet.new v.valSet
    log := v.log ++ [(newView, .newRound)] }

variable {B}

@[simp] theorem updateRoundState_view (v : Voter) (view : View) (rc : Bool) :
    (v.updateRoundState B view rc).current.view = view := by
  unfold updateRoundState
  dsimp only
  split_ifs <;> rfl

@[simp] theorem updateRoundState_prepares (v : Voter) (view : View) (rc : Bool) :
    (v.updateRoundState B view rc).current.prepares = MessageSet.new v.valSet := by
  unfold updateRoundState
  dsimp only
  split_ifs <;> rfl

@[simp] theorem updateRoundState_commits (v : Voter) (view : View) (rc : Bool) :
    (v.updateRoundState B view rc).current.commits = MessageSet.new v.valSet := by
  unfold updateRoundState
  dsimp only
  split_ifs <;> rfl

theorem updateRoundState_lock (v : Voter) (view : View) :
    (v.current.isHashLocked (B.hasBadProposal .updateRoundState) = true
        ∧ (v.updateRoundState B view true).current.lockedHash = v.current.lockedHash
        ∧ (v.updateRoundState B view true).current.preprepare = v.current.preprepare)
      ∨ (v.current.isHashLocked (B.hasBadProposal .updateRoundState) = false
        ∧ (v.updateRoundState B view true).current.lockedHash = 0
        ∧ (v.updateRoundState B view true).current.preprepare = none) := by
  unfold updateRoundState
  dsimp only
  by_cases hlock : v.current.isHashLocked (B.hasBadProposal .updateRoundState) = true
  · left
    simp [hlock]
  · right
    simp [hlock]

theorem sendPrepare_eq {P : Primitives} {v : Voter} {sub : Subject}
    (h : v.current.subject P = some sub) : v.sendPrepare P B = v.broadcast P B msgPrepare (P.encodeSubject sub) := by
  rw [sendPrepare, h]

theorem sendCommit_eq {P : Primitives} {v : Voter} {sub : Subject}
    (h : v.current.subject P = some sub) : v.sendCommit P B = v.broadcast P B msgCommit (P.encodeSubject sub) := by
  rw [sendCommit, h]
  rfl

end Voter

section Moves

variable (P : Primitives) (B : Backend) (v₀ : Voter) (inp : Option (Message × Validator))

/-- The dispatched message is a ROUND CHANGE. -/
def RoundChangeInput (inp : Option (Message × Validator)) : Prop :=
  ∃ msg src, inp = some (msg, src) ∧ msg.code = msgRoundChange

/-- One change of the voter while an event with the dispatched message `inp` is handled, which `v₀`
was given. The message is used at most once, by `v₀` itself. -/
inductive Move : Voter → Voter → Prop
  | gossip (v : Voter) (payload : Bytes) : Move v (v.emit (.gossip payload))
  | request (v : Voter) (p : Block) (hnumber : v.current.sequence = p.number) :
      Move v { v with current := { v.current with pendingRequest := some p } }
  | propose (v : Voter) (p : Block) (hnumber : v.current.sequence = p.number) :
      Move v (v.broadcast P B msgPreprepare (P.encodePreprepare ⟨v.currentView, p⟩))
  | oldCommit (v : Voter) (hgiven : v = v₀) (msg : Message) (src : Validator) (pp : Preprepare)
      (hinp : inp = some (msg, src)) (hcode : msg.code = msgPreprepare)
      (hdec : P.decodePreprepare msg.msg = some pp) (hold : pp.view < v.currentView)
      (hanswer : answersOld P B pp src = true) :
      Move v (v.broadcast P B msgCommit (P.encodeSubject ⟨pp.view, P.hash pp.proposal⟩))
  | accept (v : Voter) (hgiven : v = v₀) (msg : Message) (src : Validator) (pp : Preprepare)
      (hinp : inp = some (msg, src)) (hcode : msg.code = msgPreprepare)
      (hdec : P.decodePreprepare msg.msg = some pp) (hview : pp.view = v.currentView)
      (hwait : v.waitingForRoundChange = false) (hstate : v.state = .acceptRequest)
      (hlock : v.current.isHashLocked (B.hasBadProposal .handlePreprepare) = false) :
      Move v ({ v.acceptPreprepare pp with state := .preprepared }.broadcast P B msgPrepare
        (P.encodeSubject ⟨v.currentView, P.hash pp.proposal⟩))
  | acceptLocked (v : Voter) (hgiven : v = v₀) (msg : Message) (src : Validator) (pp : Preprepare)
      (hinp : inp = some (msg, src)) (hcode : msg.code = msgPreprepare)
      (hdec : P.decodePreprepare msg.msg = some pp) (hview : pp.view = v.currentView)
      (hwait : v.waitingForRoundChange = false) (hstate : v.state = .acceptRequest)
      (hlock : v.current.lockedHash ≠ 0) (hhash : P.hash pp.proposal = v.current.lockedHash) :
      Move v ({ v.acceptPreprepare pp with state := .prepared }.broadcast P B msgCommit
        (P.encodeSubject ⟨v.currentView, P.hash pp.proposal⟩))
  | addPrepare (v : Voter) (hgiven : v = v₀) (msg : Message) (src : Validator) (sub : Subject)
      (hinp : inp = some (msg, src)) (hcode : msg.code = msgPrepare)
      (hdec : P.decodeSubject msg.msg = some sub) (hsub : v.current.subject P = some sub)
      (hwait : v.waitingForRoundChange = false) (hstate : v.state ≠ .acceptRequest) : Move v (v.acceptPrepare msg)
  | lock (v : Voter) (sub : Subject) (hsub : v.current.subject P = some sub)
      (hwait : v.waitingForRoundChange = false) (hstate : v.state = .preprepared)
      (hquorum : (v.current.lockedHash ≠ 0 ∧ sub.digest = v.current.lockedHash)
        ∨ 2 * v.valSet.F < v.current.getPrepareOrCommitSize) :
      Move v ({ v.lockHash P with state := .prepared }.broadcast P B msgCommit (P.encodeSubject sub))
  | addCommit (v : Voter) (hgiven : v = v₀) (msg : Message) (src : Validator) (sub : Subject)
      (hinp : inp = some (msg, src)) (hcode : msg.code = msgCommit)
      (hdec : P.decodeSubject msg.msg = some sub) (hsub : v.current.subject P = some sub)
      (hwait : v.waitingForRoundChange = false) (hstate : v.state ≠ .acceptRequest) : Move v (v.acceptCommit msg)
  | commit (v : Voter) (hvalSet : v.valSet = v₀.valSet) (pp : Preprepare) (hpp : v.current.preprepare = some pp)
      (hwait : v.waitingForRoundChange = false)
      (hstate : v.state = .preprepared ∨ v.state = .prepared)
      (hquorum : 2 * v.valSet.F < (v.current.commits.size : ℤ)) :
      Move v ({ v.lockHash P with state := .committed }.emit (.commit pp.proposal v.committedSeals))
  | unlock (v : Voter) (p : Block) (seals : List Bytes) (hfail : B.commitFails p seals = true) : Move v v.unlockHash
  | catchUp (v : Voter) (r : ℕ) (hround : v.current.round < r) :
      Move v ((v.catchUp B ⟨r, v.current.sequence⟩).broadcast P B msgRoundChange
        (P.encodeSubject ⟨⟨r, v.current.sequence⟩, 0⟩))
  | addRoundChange (v : Voter) (hgiven : v = v₀) (msg : Message) (src : Validator) (rc : Subject)
      (hinp : inp = some (msg, src)) (hcode : msg.code = msgRoundChange)
      (hdec : P.decodeSubject msg.msg = some rc)
      (hcheck : v.checkMessage msgRoundChange rc.view = none) :
      Move v { v with roundChangeSet := (v.roundChangeSet.add rc.view.round msg).1 }
  | newRound (v : Voter) (r : ℕ) (hinp : RoundChangeInput inp) (hpos : r ≠ 0) (hround : v.current.round ≤ r)
      (hwait : v.waitingForRoundChange = true ∨ v.current.round < r) (lastProposer : Address) :
      Move v (v.enter B ⟨r, v.current.sequence⟩ true lastProposer)
  | newSequence (v : Voter) (hhead : v.current.sequence ≤ (B.lastProposal .startNewRound).1.number) :
      Move v ({ v with valSet := B.validators (B.lastProposal .startNewRound).1 }.enter B
        ⟨0, (B.lastProposal .startNewRound).1.number + 1⟩ false (B.lastProposal .startNewRound).2)

abbrev Moves : Voter → Voter → Prop := Relation.ReflTransGen (Move P B v₀ inp)

end Moves

variable {P : Primitives} {B : Backend} {v₀ : Voter} {inp : Option (Message × Validator)}

theorem Moves.invariant {I : Voter → Prop} (hmove : ∀ v v', I v → Move P B v₀ inp v v' → I v')
    {v v' : Voter} (h : Moves P B v₀ inp v v') (hv : I v) : I v' := by
  induction h with
  | refl => exact hv
  | tail _ hlast ih => exact hmove _ _ ih hlast

/-! ### The queues do not touch the voter -/

namespace Core

@[simp] theorem onVoter_toVoter (f : Voter → Voter) (c : Core) : (c.onVoter f).toVoter = f c.toVoter :=
  rfl

@[simp] theorem storeBacklog_toVoter (c : Core) (msg : Message) (src : Validator) :
    (c.storeBacklog P msg src).toVoter = c.toVoter := by
  unfold storeBacklog
  split_ifs <;> rfl

@[simp] theorem testBacklog_toVoter (msg : Message) (src : Validator) (r : Core × Option Err) :
    (testBacklog P msg src r).1.toVoter = r.1.toVoter := by
  unfold testBacklog
  split_ifs
  · exact storeBacklog_toVoter _ _ _
  · rfl

@[simp] theorem setState_toVoter (c : Core) (s : State) :
    (c.setState P B s).toVoter = { c.toVoter with state := s } := by
  unfold setState
  dsimp only
  split_ifs <;> rfl

@[simp] theorem newRoundChangeTimer_toVoter (c : Core) : c.newRoundChangeTimer.toVoter = c.toVoter := rfl

/-! ### Functions of the core as moves -/

theorem sendPreprepare_moves (v : Voter) (p : Block) : Moves P B v₀ inp v (v.sendPreprepare P B p) := by
  unfold Voter.sendPreprepare
  split_ifs with h
  · exact .single (.propose v p h.1)
  · exact .refl

theorem sendRoundChange_moves (c : Core) (r : ℕ) : Moves P B v₀ inp c.toVoter (c.sendRoundChange P B r).toVoter := by
  unfold sendRoundChange
  split_ifs with h
  · exact .refl
  · have hview : (c.catchUpRound B ⟨r, c.currentView.sequence⟩).currentView = ⟨r, c.current.sequence⟩ :=
      Voter.updateRoundState_view _ _ _
    dsimp only
    rw [hview]
    exact .single (.catchUp c.toVoter r (not_le.mp h))

theorem proposeAgain_moves (c : Core) : Moves P B v₀ inp c.toVoter (c.proposeAgain P B).toVoter := by
  unfold proposeAgain
  split_ifs
  · split
    · exact sendPreprepare_moves _ _
    · exact .refl
  · split
    · exact sendPreprepare_moves _ _
    · exact .refl

theorem enterView_toVoter_moves (c : Core) (view : View) (rc : Bool) (lp : Address) :
    Moves P B v₀ inp (c.toVoter.enter B view rc lp) (c.enterView P B view rc lp).toVoter := by
  -- up to the proposal the voter is `enter`; the proposal is the only move left
  have henter : ∀ c' : Core, c'.toVoter = c.toVoter.enter B view rc lp → Moves P B v₀ inp (c.toVoter.enter B view rc lp)
        (if (rc && c'.isProposer) = true then c'.proposeAgain P B else c').toVoter := by
    intro c' hc'
    rw [← hc']
    split_ifs
    · exact proposeAgain_moves c'
    · exact .refl
  unfold enterView
  rw [newRoundChangeTimer_toVoter]
  refine henter _ ?_
  have hview := Voter.updateRoundState_view (B := B) { c.toVoter with
    roundChangeSet := RoundChangeSet.new c.valSet } view rc
  simp only [onVoter_toVoter, setState_toVoter, Voter.emit, Voter.currentView, hview]
  rfl

theorem startNewRound_moves (c : Core) (r : ℕ)
    (hr : r = 0 ∨ RoundChangeInput inp ∧ (c.waitingForRoundChange = true ∨ c.current.round < r)) :
    Moves P B v₀ inp c.toVoter (c.startNewRound P B r).toVoter := by
  unfold startNewRound
  dsimp only
  split_ifs with hhead hparent hzero hlow
  · exact .head (.newSequence c.toVoter hhead)
      (enterView_toVoter_moves { c with valSet := B.validators (B.lastProposal .startNewRound).1 } _ _ _)
  · exact .refl
  · exact .refl
  · obtain ⟨hinp, hr'⟩ := hr.resolve_left hzero
    exact .head (.newRound c.toVoter r hinp hzero (not_lt.mp hlow) hr' _) (enterView_toVoter_moves _ _ _ _)
  · exact .refl

theorem commit_moves (c : Core) (hvalSet : c.valSet = v₀.valSet) (pp : Preprepare)
    (hpp : c.current.preprepare = some pp) (hwait : c.waitingForRoundChange = false)
    (hstate : c.state = .preprepared ∨ c.state = .prepared)
    (hquorum : 2 * c.valSet.F < (c.current.commits.size : ℤ)) :
    Moves P B v₀ inp c.toVoter ((c.onVoter (·.lockHash P)).commit P B).toVoter := by
  have hcommit : Move P B v₀ inp c.toVoter _ := .commit c.toVoter hvalSet pp hpp hwait hstate hquorum
  have hproposal : (c.current.lockHash P).proposal = some pp.proposal := by
    simp [RoundState.proposal, hpp]
  have hseals : ({ c.lockHash P with state := .committed } : Voter).committedSeals = c.toVoter.committedSeals := by
    simp [Voter.committedSeals, Voter.lockHash]
  unfold commit
  simp only [setState_toVoter, onVoter_toVoter, Voter.lockHash, hproposal] at *
  rw [hseals]
  split_ifs with hfail
  · refine .trans ?_ (sendRoundChange_moves _ _)
    exact .head hcommit (.single (.unlock _ _ _ hfail))
  · exact .single hcommit

end Core

/-! ### What `checkMessage` lets through -/

namespace Voter

variable {v : Voter} {code : UInt64} {view : View}

section

variable (hcode : code ≠ msgRoundChange)

include hcode

theorem view_eq_of_checkMessage (h : v.checkMessage code view = none) :
    view = v.currentView ∧ v.waitingForRoundChange = false ∧ (v.state = .acceptRequest → ¬ code > msgPreprepare) := by
  unfold checkMessage at h
  simp only [if_neg hcode, View.cmp_eq_gt, View.cmp_eq_lt] at h
  split_ifs at h with hgt hlt hwait hstate hpp
  · refine ⟨le_antisymm (not_lt.mp hgt) (not_lt.mp hlt), by simpa using hwait, fun _ => hpp⟩
  · refine ⟨le_antisymm (not_lt.mp hgt) (not_lt.mp hlt), by simpa using hwait, fun h => ?_⟩
    exact absurd h hstate

theorem state_of_checkMessage (hvote : code > msgPreprepare)
    (h : v.checkMessage code view = none) : v.state ≠ .acceptRequest :=
  fun hstate => (view_eq_of_checkMessage hcode h).2.2 hstate hvote

theorem lt_of_checkMessage_old (h : v.checkMessage code view = some .oldMessage) :
    view < v.currentView := by
  unfold checkMessage at h
  simp only [if_neg hcode, View.cmp_eq_gt, View.cmp_eq_lt] at h
  split_ifs at h with hgt hlt hwait hstate hpp <;> simp_all

end

theorem roundChange_of_checkMessage (h : v.checkMessage msgRoundChange view = none) :
    view.sequence = v.current.sequence ∧ v.current.round ≤ view.round := by
  unfold checkMessage at h
  rw [if_pos rfl] at h
  simp only [View.cmp_eq_lt, View.lt_iff] at h
  split_ifs at h with hgt hlt
  have hview : v.currentView = ⟨v.current.round, v.current.sequence⟩ := rfl
  rw [hview] at hgt hlt
  dsimp only at hgt hlt
  omega

end Voter

/-! ### Every event is a sequence of moves -/

namespace Core

theorem handlePreprepare_moves (c : Core) (msg : Message) (src : Validator) (hcode : msg.code = msgPreprepare) :
    Moves P B c.toVoter (some (msg, src)) c.toVoter (c.handlePreprepare P B msg src).1.toVoter := by
  unfold handlePreprepare
  split
  · exact .refl
  · rename_i pp hdec
    split
    · rename_i err hcheck
      split_ifs with hold hanswer
      · subst hold
        exact .single (.oldCommit c.toVoter rfl msg src pp rfl hcode hdec
          (Voter.lt_of_checkMessage_old (by decide) hcheck) hanswer)
      · exact .refl
      · exact .refl
    · rename_i hcheck
      obtain ⟨hview, hwait, -⟩ := Voter.view_eq_of_checkMessage (by decide) hcheck
      by_cases hproposer : (!c.valSet.isProposer src.address) = true
      · rw [if_pos hproposer]
      · rw [if_neg hproposer]
        cases B.verify pp.proposal
        case futureBlock => exact .refl
        case invalid => exact sendRoundChange_moves _ _
        case ok =>
          dsimp only
          split_ifs with hstate hlock hhash
          · rw [onVoter_toVoter, setState_toVoter, Voter.sendCommit_eq rfl]
            exact .single (.acceptLocked c.toVoter rfl msg src pp rfl hcode hdec hview hwait hstate
              (RoundState.lockedHash_ne_zero hlock) hhash)
          · exact sendRoundChange_moves _ _
          · rw [onVoter_toVoter, setState_toVoter, Voter.sendPrepare_eq rfl]
            exact .single (.accept c.toVoter rfl msg src pp rfl hcode hdec hview hwait hstate (by simpa using hlock))
          · exact .refl

theorem handlePrepare_moves (c : Core) (msg : Message) (src : Validator) (hcode : msg.code = msgPrepare) :
    Moves P B c.toVoter (some (msg, src)) c.toVoter (c.handlePrepare P B msg).1.toVoter := by
  unfold handlePrepare
  split
  · exact .refl
  · rename_i sub hdec
    split
    · exact .refl
    · rename_i hcheck
      obtain ⟨-, hwait, -⟩ := Voter.view_eq_of_checkMessage (by decide) hcheck
      have hstate := Voter.state_of_checkMessage (by decide) (by decide) hcheck
      split
      · exact .refl
      · rename_i hverify
        have hsub : c.current.subject P = some sub := by
          simpa [Voter.verifySubject] using hverify
        have hadd : Move P B c.toVoter (some (msg, src)) c.toVoter _ :=
          .addPrepare c.toVoter rfl msg src sub rfl hcode hdec hsub hwait hstate
        dsimp only
        split_ifs with hlock
        · obtain ⟨hquorum, hlt⟩ := hlock
          have hstate' : c.state = .preprepared := State.eq_preprepared hstate hlt
          refine .head hadd (.single ?_)
          have hsub' : ((c.acceptPrepare msg).current.lockHash P).subject P = some sub :=
            (RoundState.lockHash_subject _ _).trans hsub
          rw [onVoter_toVoter, setState_toVoter, Voter.sendCommit_eq hsub']
          exact .lock (c.acceptPrepare msg) sub hsub hwait hstate'
            (hquorum.imp (fun h => ⟨RoundState.lockedHash_ne_zero h.1, h.2⟩) id)
        · exact .single hadd

theorem handleCommit_moves (c : Core) (msg : Message) (src : Validator) (hcode : msg.code = msgCommit) :
    Moves P B c.toVoter (some (msg, src)) c.toVoter (c.handleCommit P B msg).1.toVoter := by
  unfold handleCommit
  split
  · exact .refl
  · rename_i sub hdec
    split
    · exact .refl
    · rename_i hcheck
      obtain ⟨-, hwait, -⟩ := Voter.view_eq_of_checkMessage (by decide) hcheck
      have hstate := Voter.state_of_checkMessage (by decide) (by decide) hcheck
      split
      · exact .refl
      · rename_i hverify
        have hsub : c.current.subject P = some sub := by
          simpa [Voter.verifySubject] using hverify
        have hadd : Move P B c.toVoter (some (msg, src)) c.toVoter _ :=
          .addCommit c.toVoter rfl msg src sub rfl hcode hdec hsub hwait hstate
        obtain ⟨pp, hpp, -⟩ := RoundState.subject_eq_some.mp hsub
        dsimp only
        split_ifs with hquorum
        · refine .head hadd ?_
          exact commit_moves (c.onVoter (·.acceptCommit msg)) rfl pp hpp hwait
            (State.eq_preprepared_or_prepared hstate hquorum.2) hquorum.1
        · exact .single hadd

theorem handleRoundChange_moves (c : Core) (msg : Message) (src : Validator) (hcode : msg.code = msgRoundChange) :
    Moves P B c.toVoter (some (msg, src)) c.toVoter (c.handleRoundChange P B msg).1.toVoter := by
  unfold handleRoundChange
  split
  · exact .refl
  · rename_i rc hdec
    split
    · exact .refl
    · rename_i hcheck
      have hadd : Move P B c.toVoter (some (msg, src)) c.toVoter _ :=
        .addRoundChange c.toVoter rfl msg src rc rfl hcode hdec hcheck
      dsimp only
      split
      · exact .single hadd
      · split_ifs with hecho hlt hstart
        · exact .head hadd (sendRoundChange_moves
            { c with roundChangeSet := (c.roundChangeSet.add rc.view.round msg).1 } _)
        · exact .single hadd
        · exact .head hadd (startNewRound_moves
            { c with roundChangeSet := (c.roundChangeSet.add rc.view.round msg).1 } _
            (.inr ⟨⟨msg, src, rfl, hcode⟩, hstart.2⟩))
        · exact .single hadd
        · exact .single hadd

theorem handleCheckedMsg_moves (c : Core) (msg : Message) (src : Validator) :
    Moves P B c.toVoter (some (msg, src)) c.toVoter (c.handleCheckedMsg P B msg src).1.toVoter := by
  unfold handleCheckedMsg
  split_ifs with h0 h1 h2 h3
  · rw [testBacklog_toVoter]
    exact handlePreprepare_moves c msg src h0
  · rw [testBacklog_toVoter]
    exact handlePrepare_moves c msg src h1
  · rw [testBacklog_toVoter]
    exact handleCommit_moves c msg src h2
  · rw [testBacklog_toVoter]
    exact handleRoundChange_moves c msg src h3
  · exact .refl

theorem handleRequestEvent_moves (c : Core) (request : Option Block) :
    Moves P B v₀ inp c.toVoter (c.handleRequestEvent P B request).toVoter := by
  have hrequest : Moves P B v₀ inp c.toVoter (c.handleRequest P B request).1.toVoter := by
    unfold handleRequest
    split
    · exact .refl
    · rename_i p
      split
      · exact .refl
      · rename_i hcheck
        have hnumber : c.current.sequence = p.number := by
          unfold Voter.checkRequestMsg at hcheck
          split_ifs at hcheck
          omega
        have hmove : Move P B v₀ inp c.toVoter _ := .request c.toVoter p hnumber
        dsimp only
        split_ifs
        · exact .head hmove (sendPreprepare_moves _ _)
        · exact .single hmove
  unfold handleRequestEvent
  dsimp only
  split
  · exact hrequest
  · exact hrequest

theorem gossipIfOk_moves {c : Core} {payload : Bytes} {r : Core × Option Err}
    (h : Moves P B v₀ inp c.toVoter r.1.toVoter) : Moves P B v₀ inp c.toVoter (gossipIfOk payload r).toVoter := by
  unfold gossipIfOk
  split_ifs
  · exact h.tail (.gossip _ _)
  · exact h

theorem handleTimeoutMsg_moves (c : Core) : Moves P B v₀ inp c.toVoter (c.handleTimeoutMsg P B).toVoter := by
  have hnext : Moves P B v₀ inp c.toVoter
      (if (B.lastProposal .handleTimeoutMsg).1.number ≥ c.current.sequence then c.startNewRound P B 0
        else c.sendNextRoundChange P B).toVoter := by
    split_ifs
    · exact startNewRound_moves c 0 (.inl rfl)
    · exact sendRoundChange_moves _ _
  unfold handleTimeoutMsg
  dsimp only
  split
  · split
    · split_ifs
      · exact sendRoundChange_moves _ _
      · exact startNewRound_moves c 0 (.inl rfl)
      · exact sendRoundChange_moves _ _
    · exact hnext
  · exact hnext

end Core

/-- **Every event is a sequence of moves**, with the message that the event dispatches. -/
theorem step_moves (c : Core) (ev : Event) :
    Moves P B c.toVoter (dispatch P c ev) c.toVoter (step P B c ev).toVoter := by
  cases ev with
  | request p => exact handleRequestEvent_moves c p
  | message payload =>
    refine gossipIfOk_moves ?_
    simp only [dispatch, handleMsg]
    cases fromPayload P c.valSet payload with
    | error => exact .refl
    | ok msg =>
      dsimp only
      cases c.valSet.getByAddress msg.address with
      | none => exact .refl
      | some s => exact handleCheckedMsg_moves c msg s.2
  | posted i =>
    simp only [step, dispatch]
    cases hi : c.posted[i]? with
    | none => exact .refl
    | some ev =>
      cases ev with
      | backlogEvent src msg =>
        exact gossipIfOk_moves (handleCheckedMsg_moves { c with posted := c.posted.eraseIdx i } msg src)
      | requestEvent p =>
        exact handleRequestEvent_moves { c with posted := c.posted.eraseIdx i } (some p)
  | futurePreprepare =>
    simp only [step]
    split <;> exact .refl
  | timeout => exact handleTimeoutMsg_moves c
  | finalCommitted => exact startNewRound_moves c 0 (.inl rfl)

end GoWanchain.Istanbul
