import GoWanchain.Istanbul.Sample

/-!
# The conduct of one core

What a core does in every run against arbitrary messages, requests and timers: the heights of the proposals
it votes on, the seals on its COMMITs, and how many digests it signs in one view. The message of a
PRE-PREPARE carries a view and a block, and `handlePreprepare` never compares the two; an old PRE-PREPARE is
answered with a COMMIT for its block while the seal is taken over the current proposal.
-/

namespace GoWanchain.Istanbul

open Core

variable {P : Primitives} {B : Backend} {v₀ : Voter} {inp : Option (Message × Validator)} {v v' : Voter}

/-! ### Equivocation -/

/-- The input is an old PRE-PREPARE for the view and block of `sub`, and the core answers it. -/
def AnswersOldWith (P : Primitives) (sub : Subject) (c : Core) (x : Input) : Prop :=
  ∃ msg src pp, dispatch P c x.2 = some (msg, src) ∧ msg.code = msgPreprepare
    ∧ P.decodePreprepare msg.msg = some pp ∧ sub = ⟨pp.view, P.hash pp.proposal⟩
    ∧ pp.view < c.currentView ∧ answersOld P x.1 pp src = true

theorem not_sent_new {a : Address} {code : UInt64} {w : View} {sub : Subject} :
    ¬ (Core.new a).toVoter.Sent P code w sub :=
  Voter.not_sent fun w m => by simp [Core.new]

theorem history_new (P : Primitives) (a : Address) : (Core.new a).toVoter.History P where
  stamp_le h := absurd h (by simp [Core.new])
  prepare_view hs := absurd hs not_sent_new
  prepare_current hs := absurd hs not_sent_new
  prepare_unique hs := absurd hs not_sent_new
  commit_view hs := absurd hs not_sent_new
  commit_current hs := absurd hs not_sent_new
  commit_unique hs := absurd hs not_sent_new

theorem run_historyOf (P : Primitives) (B₀ : Backend) (a : Address) (l : List Input) :
    (Run.run (advance P) (start P B₀ a) l).toVoter.History P :=
  run_invariant (C := fun _ _ _ => True) (history_new P a) trivial
    (fun _ _ _ _ _ _ H h => H.move h) (Run.along_of_forall (fun _ _ => trivial) _ _)

theorem answersOld_of_sent_commit (P : Primitives) (B₀ : Backend) (a : Address) (l : List Input)
    {w : View} {sub : Subject}
    (hs : (Run.run (advance P) (start P B₀ a) l).Sent P msgCommit w sub) (hne : sub.view ≠ w) :
    Run.Sometime (advance P) (AnswersOldWith P sub) (start P B₀ a) l := by
  -- the move that sends such a COMMIT is the one that is given the PRE-PREPARE
  have hall : ∀ w sub, (Run.run (advance P) (start P B₀ a) l).Sent P msgCommit w sub →
      sub.view ≠ w → Run.Sometime (advance P) (AnswersOldWith P sub) (start P B₀ a) l := by
    refine run_history (C := fun _ _ _ => True) (I := fun l v => ∀ w sub, v.Sent P msgCommit w sub →
      sub.view ≠ w → Run.Sometime (advance P) (AnswersOldWith P sub) (start P B₀ a) l)
      ?_ ?_ ?_ ?_ (Run.along_of_forall (fun _ _ => trivial) _ _)
    · exact fun w sub hs => absurd hs not_sent_new
    · intro v v' hI hmove w sub hs hne
      rcases hmove.sent_commit hs with hold | ⟨hw, -, -, -, hvotes⟩ | ⟨-, -, -, -, _, _, _, hinp, -⟩
      · exact hI w sub hold hne
      · exact absurd (hvotes.view_eq.trans hw.symm) hne
      · exact absurd hinp (by simp)
    · intro l x v hI w sub hs hne
      exact Run.sometime_concat.mpr (.inl (hI w sub hs hne))
    · intro l x v v' _ hI hmove w sub hs hne
      rcases hmove.sent_commit hs with hold | ⟨hw, -, -, -, hvotes⟩ |
        ⟨-, -, hlt, hgiven, msg, src, pp, hinp, hcode, hdec, hsub, hanswer⟩
      · exact hI w sub hold hne
      · exact absurd (hvotes.view_eq.trans hw.symm) hne
      · refine Run.sometime_concat.mpr (.inr ⟨msg, src, pp, hinp, hcode, hdec, hsub, ?_, hanswer⟩)
        rw [hgiven, hsub] at hlt
        exact hlt
  exact hall w sub hs hne

/-- **Digests of one view.** All PREPAREs for a view carry one digest, and so do all COMMITs that were
sent in it; any other COMMIT for the view answers an old PRE-PREPARE for it whose block exists. -/
theorem one_digest_per_view (P : Primitives) (B₀ : Backend) (a : Address) (l : List Input) (view : View) :
    (∀ w w' sub sub', (Run.run (advance P) (start P B₀ a) l).Sent P msgPrepare w sub →
      (Run.run (advance P) (start P B₀ a) l).Sent P msgPrepare w' sub' →
      sub.view = view → sub'.view = view → sub.digest = sub'.digest)
    ∧ (∀ sub sub', (Run.run (advance P) (start P B₀ a) l).Sent P msgCommit view sub →
      (Run.run (advance P) (start P B₀ a) l).Sent P msgCommit view sub' →
      sub.view = view → sub'.view = view → sub.digest = sub'.digest)
    ∧ (∀ w sub, (Run.run (advance P) (start P B₀ a) l).Sent P msgCommit w sub → sub.view = view →
      w ≠ view → Run.Sometime (advance P) (AnswersOldWith P sub) (start P B₀ a) l) := by
  have H := run_historyOf P B₀ a l
  refine ⟨fun w w' sub sub' hs hs' hview hview' => ?_, fun sub sub' hs hs' hview hview' => ?_,
    fun w sub hs hview hne => ?_⟩
  · rw [H.prepare_unique hs hs' (hview.trans hview'.symm)]
  · rw [H.commit_unique hs hs' hview hview']
  · refine answersOld_of_sent_commit P B₀ a l hs ?_
    rw [hview]
    exact hne.symm

section Sample

open Sample

/-- Validator 2 votes for the block of hash 3 in round 0 of sequence 1; then a block of hash 35 enters
its chain at height 1, and the proposer sends that block in an old PRE-PREPARE. -/
def equivocationRun : List Input :=
  let block : Block := ⟨1, 0, []⟩
  let other : Block := ⟨1, 0, [1]⟩
  let sub : Subject := ⟨⟨0, 1⟩, hash block⟩
  [(backend 4 genesis, deliver (preprepareOf 1 ⟨⟨0, 1⟩, block⟩)), (backend 4 genesis, deliver (prepareOf 1 sub)),
    (backend 4 genesis, deliver (prepareOf 2 sub)),
    (backend 4 genesis, deliver (prepareOf 3 sub)),
    (backend 4 other, .finalCommitted),
    (backend 4 other, deliver (preprepareOf 1 ⟨⟨0, 1⟩, other⟩))]

theorem two_commits_in_one_view : (afterTwo equivocationRun).Sent primitives msgCommit ⟨0, 1⟩ ⟨⟨0, 1⟩, 3⟩
      ∧ (afterTwo equivocationRun).Sent primitives msgCommit ⟨0, 2⟩ ⟨⟨0, 1⟩, 35⟩ := by
  decide +kernel

end Sample

/-! ### Heights -/

/-- A PRE-PREPARE for the current view proposes a block of that view's height. -/
def HeightMatches (P : Primitives) (_ : Backend) (v₀ : Voter) (inp : Option (Message × Validator)) : Prop :=
  ∀ e ∈ inp, e.1.code = msgPreprepare → ∀ pp ∈ P.decodePreprepare e.1.msg,
    pp.view = v₀.currentView → pp.proposal.number = v₀.current.sequence

instance (P : Primitives) (B : Backend) (v₀ : Voter) (inp : Option (Message × Validator)) :
    Decidable (HeightMatches P B v₀ inp) :=
  inferInstanceAs (Decidable (∀ e ∈ inp, _))

/-- The proposals of a voter are of the height it works on. -/
structure Voter.Heights (v : Voter) : Prop where
  proposal : ∀ {pp}, v.current.preprepare = some pp → pp.proposal.number = v.current.sequence
  present : v.state ≠ .acceptRequest → v.waitingForRoundChange = false → ∃ pp, v.current.preprepare = some pp
  commits : ∀ {w p seals}, (w, Effect.commit p seals) ∈ v.log → p.number = w.sequence

section

variable (H : v.Heights)

include H

theorem Voter.Heights.proposal_updateRoundState {view : View}
    (hview : view.sequence = v.current.sequence) {pp : Preprepare}
    (hpp : (v.updateRoundState B view true).current.preprepare = some pp) :
    pp.proposal.number = (v.updateRoundState B view true).current.sequence := by
  have hseq : (v.updateRoundState B view true).current.sequence = view.sequence :=
    congrArg View.sequence (Voter.updateRoundState_view v view true)
  rcases v.updateRoundState_lock view with ⟨-, -, hkeep⟩ | ⟨-, -, hdrop⟩
  · rw [hseq, hview]
    exact H.proposal (hkeep.symm.trans hpp)
  · exact absurd (hdrop.symm.trans hpp) (by simp)

theorem Voter.Heights.broadcast (code : UInt64) (msg : Bytes) : (v.broadcast P B code msg).Heights where
  proposal hpp := by
    rw [Voter.broadcast_current] at hpp ⊢
    exact H.proposal hpp
  present hstate hwait := by
    rw [Voter.broadcast_state] at hstate
    rw [Voter.broadcast_waiting] at hwait
    rw [Voter.broadcast_current]
    exact H.present hstate hwait
  commits he := by
    rcases Voter.mem_log_broadcast.mp he with hold | ⟨m, -, -, hm⟩
    · exact H.commits hold
    · exact absurd hm (by simp)

theorem Voter.Heights.accept {pp : Preprepare}
    (hnumber : pp.proposal.number = v.current.sequence) (s : State) :
    ({ v.acceptPreprepare pp with state := s } : Voter).Heights where
  proposal hpp := by
    cases hpp
    exact hnumber
  present _ _ := ⟨pp, rfl⟩
  commits := H.commits

theorem Voter.Heights.lockHash {pp : Preprepare} (hpp : v.current.preprepare = some pp)
    (s : State) : ({ v.lockHash P with state := s } : Voter).Heights where
  proposal {pp'} hpp' := by
    have hold : v.current.preprepare = some pp' := by simpa using hpp'
    simpa using H.proposal hold
  present _ _ := ⟨pp, by simpa using hpp⟩
  commits := H.commits

theorem Voter.Heights.move (hC : HeightMatches P B v₀ inp) (h : Move P B v₀ inp v v') : v'.Heights := by
  have hcommits : ∀ {w p seals}, (w, Effect.commit p seals) ∈ v'.log → p.number = w.sequence := by
    intro w p seals he
    rcases h.commits he with hold | ⟨rfl, hnew⟩
    · exact H.commits hold
    · obtain ⟨pp, hpp, rfl⟩ := hnew.proposal
      exact H.proposal hpp
  cases h with
  | gossip | request | addPrepare | addCommit | unlock | addRoundChange =>
    exact ⟨H.proposal, H.present, hcommits⟩
  | propose | oldCommit => exact H.broadcast _ _
  | accept hgiven msg src pp hinp hcode hdec hview | acceptLocked hgiven msg src pp hinp hcode hdec hview =>
    subst hgiven
    exact (H.accept (hC (msg, src) hinp hcode pp hdec hview) _).broadcast _ _
  | lock _ hsub =>
    obtain ⟨pp, hpp, -⟩ := RoundState.subject_eq_some.mp hsub
    exact (H.lockHash hpp _).broadcast _ _
  | commit _ _ hpp =>
    have hlocked : ({ v.lockHash P with state := .committed } : Voter).Heights := H.lockHash hpp _
    exact ⟨hlocked.proposal, hlocked.present, hcommits⟩
  | catchUp =>
    refine ⟨fun {pp} hpp => ?_, fun _ hwait => absurd hwait (by simp), hcommits⟩
    rw [Voter.broadcast_current] at hpp ⊢
    exact H.proposal_updateRoundState rfl hpp
  | newRound =>
    refine ⟨fun {pp} hpp => ?_, fun hstate => absurd rfl hstate, hcommits⟩
    exact H.proposal_updateRoundState rfl hpp
  | newSequence =>
    exact ⟨fun hpp => absurd hpp (by simp [Voter.updateRoundState]), fun hstate => absurd rfl hstate, hcommits⟩

end

theorem heights_new (a : Address) : (Core.new a).toVoter.Heights where
  proposal hpp := absurd hpp (by simp [Core.new])
  present hstate := absurd rfl hstate
  commits he := absurd he (by simp [Core.new])

theorem run_heights {B₀ : Backend} {a : Address} {l : List Input}
    (h : Meets P (HeightMatches P) (start P B₀ a) l) : (Run.run (advance P) (start P B₀ a) l).toVoter.Heights := by
  refine run_invariant (heights_new a) ?_ (fun B v₀ inp v v' hC H hmove => H.move hC hmove) h
  exact fun e he => absurd he (by simp)

/-- **Proposal height.** If every PRE-PREPARE handled for the current view proposes a block of that
view's height, then in every state past `StateAcceptRequest` the current proposal has the height of
the current sequence, and it is there unless the core waits for a round change; every block handed to
`backend.Commit` has the height of the sequence it is committed in. -/
theorem proposal_height (P : Primitives) (B₀ : Backend) (a : Address) (l : List Input)
    (h : Meets P (HeightMatches P) (start P B₀ a) l) : ((Run.run (advance P) (start P B₀ a) l).state ≠ .acceptRequest →
      (∀ p, (Run.run (advance P) (start P B₀ a) l).current.proposal = some p →
        p.number = (Run.run (advance P) (start P B₀ a) l).current.sequence)
      ∧ ((Run.run (advance P) (start P B₀ a) l).waitingForRoundChange = false →
        ∃ p, (Run.run (advance P) (start P B₀ a) l).current.proposal = some p))
    ∧ ∀ w p seals, (w, Effect.commit p seals) ∈ (Run.run (advance P) (start P B₀ a) l).log → p.number = w.sequence := by
  have H := run_heights h
  refine ⟨fun hstate => ⟨fun p hp => ?_, fun hwait => ?_⟩, fun w p seals he => H.commits he⟩
  · obtain ⟨pp, hpp, rfl⟩ := Option.map_eq_some_iff.mp hp
    exact H.proposal hpp
  · obtain ⟨pp, hpp⟩ := H.present hstate hwait
    exact ⟨pp.proposal, by simp [RoundState.proposal, hpp]⟩

section Sample

open Sample

theorem proposal_height_decideRun : Meets primitives (HeightMatches primitives) two (decideRun ⟨1, 0, []⟩)
      ∧ ∀ w p seals, (w, Effect.commit p seals) ∈ (afterTwo (decideRun ⟨1, 0, []⟩)).log → p.number = w.sequence := by
  have hmeets : Meets primitives (HeightMatches primitives) two (decideRun ⟨1, 0, []⟩) := by
    decide +kernel
  exact ⟨hmeets, (proposal_height _ _ _ _ hmeets).2⟩

/-- A block of height 7 is accepted, and committed, at sequence 1. -/
theorem commits_block_of_other_height : (afterTwo (decideRun ⟨7, 0, []⟩)).state = .committed
      ∧ (afterTwo (decideRun ⟨7, 0, []⟩)).current.proposal = some ⟨7, 0, []⟩
      ∧ (afterTwo (decideRun ⟨7, 0, []⟩)).current.sequence = 1
      ∧ (⟨0, 1⟩, Effect.commit ⟨7, 0, []⟩ ([4, 3, 1].map fun a => sign a (prepareCommittedSeal 15)))
        ∈ (afterTwo (decideRun ⟨7, 0, []⟩)).log := by
  decide +kernel

end Sample

/-! ### Committed seals -/

/-- An old PRE-PREPARE is answered only for a block with the hash of the current proposal. -/
def OldIsCurrent (P : Primitives) (B : Backend) (v₀ : Voter) (inp : Option (Message × Validator)) : Prop :=
  ∀ e ∈ inp, e.1.code = msgPreprepare → ∀ pp ∈ P.decodePreprepare e.1.msg,
    pp.view < v₀.currentView → answersOld P B pp e.2 = true →
    ∃ p ∈ v₀.current.proposal, P.hash p = P.hash pp.proposal

instance (P : Primitives) (B : Backend) (v₀ : Voter) (inp : Option (Message × Validator)) :
    Decidable (OldIsCurrent P B v₀ inp) :=
  inferInstanceAs (Decidable (∀ e ∈ inp, _))

/-- The COMMITs of the voter at `a` are sealed for the digest they carry. -/
def Voter.SealsDigest (P : Primitives) (a : Address) (v : Voter) : Prop :=
  v.address = a ∧ ∀ w m sub, (w, Effect.broadcast m) ∈ v.log → m.code = msgCommit →
    P.decodeSubject m.msg = some sub → m.committedSeal = P.sign a (prepareCommittedSeal sub.digest)

theorem Voter.SealsDigest.move {a : Address} (H : v.SealsDigest P a) (hC : OldIsCurrent P B v₀ inp)
    (h : Move P B v₀ inp v v') : v'.SealsDigest P a := by
  obtain ⟨rfl, hseals⟩ := H
  refine ⟨h.address_eq, fun w m sub hm hcode hdec => ?_⟩
  rcases h.sends hm with hold | ⟨-, -, hsends⟩
  · exact hseals w m sub hold hcode hdec
  · cases hsends with
    | commit _ _ hmsg hseal =>
      rw [hmsg, P.decode_encodeSubject] at hdec
      cases hdec
      exact hseal
    | oldCommit hgiven msg src pp _ hmsg hseal hinp hpp hdec' hold hanswer =>
      rw [hmsg, P.decode_encodeSubject] at hdec
      cases hdec
      subst hgiven
      obtain ⟨p, hp, hhash⟩ := hC (msg, src) hinp hpp pp hdec' hold hanswer
      rw [hseal, Voter.currentSeal, Option.mem_def.mp hp]
      dsimp only
      rw [hhash]
    | preprepare _ hcode' | prepare _ hcode' | roundChange hcode' =>
      exact absurd (hcode.symm.trans hcode') (by decide)

/-- **Committed seals.** If old PRE-PREPAREs are only answered for a block with the hash of the current
proposal, then the seal of every COMMIT the core broadcasts signs the digest of that COMMIT. -/
theorem commit_seals_digest (P : Primitives) (B₀ : Backend) (a : Address) (l : List Input)
    (h : Meets P (OldIsCurrent P) (start P B₀ a) l) (w : View) (m : Message) (sub : Subject)
    (hm : (w, Effect.broadcast m) ∈ (Run.run (advance P) (start P B₀ a) l).log)
    (hcode : m.code = msgCommit) (hdec : P.decodeSubject m.msg = some sub) :
    m.committedSeal = P.sign a (prepareCommittedSeal sub.digest) := by
  have H : (Run.run (advance P) (start P B₀ a) l).toVoter.SealsDigest P a := by
    refine run_invariant ⟨rfl, ?_⟩ ?_ (fun B v₀ inp v v' hC H hmove => H.move hC hmove) h
    · exact fun w m sub hm => absurd hm (by simp [Core.new])
    · exact fun e he => absurd he (by simp)
  exact H.2 w m sub hm hcode hdec

section Sample

open Sample

theorem commit_seals_digest_equivocationRun :
    (⟨0, 1⟩, Effect.broadcast (commitOf 2 ⟨⟨0, 1⟩, 3⟩ (sign 2 (prepareCommittedSeal 3))))
        ∈ (afterTwo (equivocationRun.take 4)).log
      ∧ ∀ w m sub, (w, Effect.broadcast m) ∈ (afterTwo (equivocationRun.take 4)).log →
        m.code = msgCommit → primitives.decodeSubject m.msg = some sub →
        m.committedSeal = primitives.sign 2 (prepareCommittedSeal sub.digest) := by
  have hmeets : Meets primitives (OldIsCurrent primitives) two (equivocationRun.take 4) := by
    decide +kernel
  exact ⟨by decide +kernel, commit_seals_digest primitives (backend 4 genesis) 2 _ hmeets⟩

/-- Validator 2 works on the block of hash 5 at sequence 2 when it is sent the old PRE-PREPARE of the
block of hash 3, which is in its chain. -/
def wrongSealRun : List Input :=
  let old : Block := ⟨1, 0, []⟩
  [(backend 4 old, .finalCommitted), (backend 4 old, deliver (preprepareOf 1 ⟨⟨0, 2⟩, ⟨2, 0, []⟩⟩)),
    (backend 4 old, deliver (preprepareOf 1 ⟨⟨0, 1⟩, old⟩))]

/-- It answers with a COMMIT for hash 3 whose seal signs hash 5. -/
theorem seals_other_block :
    (⟨0, 2⟩, Effect.broadcast (commitOf 2 ⟨⟨0, 1⟩, 3⟩ (sign 2 (prepareCommittedSeal 5)))) ∈ (afterTwo wrongSealRun).log
      ∧ sign 2 (prepareCommittedSeal 5) ≠ sign 2 (prepareCommittedSeal 3) := by
  decide +kernel

end Sample

end GoWanchain.Istanbul
