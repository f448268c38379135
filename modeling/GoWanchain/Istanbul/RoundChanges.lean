import GoWanchain.Istanbul.Tallies
import GoWanchain.Istanbul.Sample

/-!
# Round changes

When `handleRoundChange` makes a core leave its round. The votes are counted in a table whose keys are
machine words, and every vote in it was handled (`run_tallies_handled`).
-/

namespace GoWanchain.Istanbul

open Core

variable {P : Primitives} {B : Backend} {v₀ v v' : Voter} {inp : Option (Message × Validator)}

/-! ### What a move does to the round -/

/-- A move stays in its round, gives it up for a later one, or enters a view. -/
inductive RoundMove (inp : Option (Message × Validator)) (v v' : Voter) : Prop
  | stay (hview : v'.currentView = v.currentView)
      (hwait : v'.waitingForRoundChange = v.waitingForRoundChange) (hvalSet : v'.valSet = v.valSet)
      (hrcs : v'.roundChangeSet = v.roundChangeSet ∨ RoundChangeInput inp)
      (hlog : ∀ w, (w, .newRound) ∈ v'.log ↔ (w, .newRound) ∈ v.log)
  | catchUp (r : ℕ) (hround : v.current.round < r) (hview : v'.currentView = ⟨r, v.current.sequence⟩)
      (hwait : v'.waitingForRoundChange = true) (hvalSet : v'.valSet = v.valSet)
      (hrcs : v'.roundChangeSet = v.roundChangeSet.clear r)
      (hlog : ∀ w, (w, .newRound) ∈ v'.log ↔ (w, .newRound) ∈ v.log)
  | enter (hwait : v'.waitingForRoundChange = false) (hlog : (v'.currentView, .newRound) ∈ v'.log)
      (hnew : v.current.sequence < v'.current.sequence ∨ RoundChangeInput inp)

theorem Voter.newRound_mem_broadcast (u : Voter) (code : UInt64) (msg : Bytes) (w : View) :
    (w, Effect.newRound) ∈ (u.broadcast P B code msg).log ↔ (w, .newRound) ∈ u.log := by
  unfold Voter.broadcast
  split
  · simp
  · rfl

theorem Move.roundMove (h : Move P B v₀ inp v v') : RoundMove inp v v' := by
  cases h with
  | gossip | request | addPrepare | addCommit | unlock => exact .stay rfl rfl rfl (.inl rfl) (by simp)
  | propose | oldCommit =>
    exact .stay (by simp) (by simp) (by simp) (.inl (by simp)) (Voter.newRound_mem_broadcast _ _ _)
  | accept | acceptLocked =>
    exact .stay (by simp [Voter.currentView, RoundState.view]) (by simp) (by simp) (.inl (by simp))
      (Voter.newRound_mem_broadcast _ _ _)
  | lock =>
    exact .stay (by simp [Voter.currentView]) (by simp) (by simp) (.inl (by simp)) (Voter.newRound_mem_broadcast _ _ _)
  | commit =>
    exact .stay (by simp [Voter.currentView]) rfl rfl (.inl rfl) (by simp)
  | addRoundChange _ msg src _ hinp hcode =>
    exact .stay rfl rfl rfl (.inr ⟨msg, src, hinp, hcode⟩) (by simp)
  | catchUp r hround =>
    refine .catchUp r hround ?_ (by simp) (by simp) (by simp) fun w => ?_
    · rw [Voter.broadcast_currentView]
      exact Voter.catchUp_currentView _ _
    · rw [Voter.newRound_mem_broadcast, Voter.catchUp_log, Voter.updateRoundState_log]
  | newRound _ hinp =>
    refine .enter rfl ?_ (.inr hinp)
    rw [Voter.enter_currentView]
    simp
  | newSequence hhead =>
    refine .enter rfl ?_ (.inl ?_)
    · rw [Voter.enter_currentView]
      simp
    · exact Nat.lt_succ_of_le hhead

/-- How the log records the rounds that were started. -/
structure Voter.Rounds (v : Voter) : Prop where
  started : v.waitingForRoundChange = false → (v.currentView, .newRound) ∈ v.log
  waiting : v.waitingForRoundChange = true → 0 < v.current.round ∧ ∀ w, (w, Effect.newRound) ∈ v.log → w < v.currentView
  stamp_le : ∀ w, (w, Effect.newRound) ∈ v.log → w ≤ v.currentView

theorem Voter.Rounds.move (H : v.Rounds) (h : Move P B v₀ inp v v') : v'.Rounds := by
  have hle := h.view_le
  cases h.roundMove with
  | stay hview hwait _ _ hlog =>
    have hround : v'.current.round = v.current.round := congrArg View.round hview
    refine ⟨fun hw => ?_, fun hw => ?_, fun w hmem => ?_⟩
    · rw [hlog, hview]
      exact H.started (hwait ▸ hw)
    · obtain ⟨hpos, hlt⟩ := H.waiting (hwait ▸ hw)
      refine ⟨hround ▸ hpos, fun w hmem => ?_⟩
      rw [hview]
      exact hlt w ((hlog w).mp hmem)
    · rw [hview]
      exact H.stamp_le w ((hlog w).mp hmem)
  | catchUp r hround hview hwait _ _ hlog =>
    have hlater : v.currentView < v'.currentView := by
      rw [hview, View.lt_iff]
      exact .inr ⟨rfl, hround⟩
    have hround' : v'.current.round = r := congrArg View.round hview
    refine ⟨fun hw => ?_, fun _ => ⟨by omega, fun w hmem => ?_⟩, fun w hmem => ?_⟩
    · exact absurd (hwait.symm.trans hw) (by decide)
    · exact lt_of_le_of_lt (H.stamp_le w ((hlog w).mp hmem)) hlater
    · exact ((H.stamp_le w ((hlog w).mp hmem)).trans hle)
  | enter hwait hlog =>
    refine ⟨fun _ => hlog, fun hw => ?_, fun w hmem => ?_⟩
    · exact absurd (hwait.symm.trans hw) (by decide)
    · rcases h.mem_log hmem with hold | rfl
      · exact (H.stamp_le w hold).trans hle
      · exact le_rfl

theorem rounds_start (B₀ : Backend) (a : Address) : (start P B₀ a).toVoter.Rounds := by
  refine ⟨fun _ => by simp [start_log], fun hw => ?_, fun w hmem => ?_⟩
  · exact absurd (show false = true from hw) (by decide)
  · rw [start_log, List.mem_singleton] at hmem
    exact (congrArg Prod.fst hmem).le

/-! ### Handled votes -/

/-- The input is a ROUND CHANGE of the validator `q` for `view`, and the core accepts it. -/
def HandlesRoundChange (P : Primitives) (q : Address) (view : View) (c : Core) (x : Input) : Prop :=
  q ∈ c.valSet.addresses ∧ c.checkMessage msgRoundChange view = none
    ∧ ∃ e ∈ dispatch P c x.2, e.1.code = msgRoundChange ∧ e.1.address = q
      ∧ ∃ rc ∈ P.decodeSubject e.1.msg, rc.view = view

instance (P : Primitives) (q : Address) (view : View) (c : Core) (x : Input) :
    Decidable (HandlesRoundChange P q view c x) :=
  inferInstanceAs (Decidable (_ ∧ _ ∧ ∃ e ∈ dispatch P c x.2, _ ∧ _ ∧ ∃ rc ∈ P.decodeSubject e.1.msg, _))

/-- Such an input was given in the run `l` from `c₀`. -/
abbrev Handled (P : Primitives) (c₀ : Core) (l : List Input) (q : Address) (view : View) : Prop :=
  Run.Sometime (advance P) (HandlesRoundChange P q view) c₀ l

/-- A round change vote that was handled in the run `l`. -/
def HandledVote (P : Primitives) (c₀ : Core) (l : List Input) (m : Message) : Prop :=
  m.code = msgRoundChange → ∀ rc, P.decodeSubject m.msg = some rc → Handled P c₀ l m.address rc.view

theorem HandledVote.concat {c₀ : Core} {l : List Input} {m : Message} (h : HandledVote P c₀ l m)
    (x : Input) : HandledVote P c₀ (l ++ [x]) m := by
  intro hcode rc hdec
  exact Run.sometime_concat.mpr (.inl (h hcode rc hdec))

theorem handledVote_of_counts {c₀ : Core} {l : List Input} {x : Input} {msg : Message} {src : Validator}
    (hinp : dispatch P (Run.run (advance P) c₀ l) x.2 = some (msg, src))
    (hcounts : (Run.run (advance P) c₀ l).toVoter.Counts P msg) : HandledVote P c₀ (l ++ [x]) msg := by
  intro hcode rc hdec
  refine Run.sometime_concat.mpr (.inr ?_)
  rcases hcounts with ⟨hprepare, -⟩ | ⟨hcommit, -⟩ | ⟨-, hmem, rc', hdec', hcheck⟩
  · exact absurd (hcode.symm.trans hprepare) (by decide)
  · exact absurd (hcode.symm.trans hcommit) (by decide)
  · rw [hdec] at hdec'
    cases hdec'
    exact ⟨hmem, hcheck, (msg, src), hinp, hcode, rfl, rc, hdec, rfl⟩

theorem run_tallies_handled (B₀ : Backend) (a : Address) (l : List Input) :
    (Run.run (advance P) (start P B₀ a) l).toVoter.Tallies P (HandledVote P (start P B₀ a) l) := by
  refine run_history (C := fun _ _ _ => True) (I := fun l v => v.Tallies P (HandledVote P (start P B₀ a) l)) (.new a)
    (fun v v' H hmove => H.move ?_ hmove) (fun l x v H => H.mono fun m hm => hm.concat x)
    (fun l x v v' _ H hmove => H.move ?_ hmove) (Run.along_of_forall (fun _ _ => trivial) _ _)
  · exact fun msg src hinp => absurd hinp (by simp)
  · exact fun msg src hinp hcounts => handledVote_of_counts hinp hcounts

/-- The votes that are held with the low word of `r` are for the round `r`. -/
def Voter.VotesExact (P : Primitives) (v : Voter) (r : ℕ) : Prop :=
  ∀ m ∈ (v.roundChangeSet.votes (uint64 r)).values, ∀ sub ∈ P.decodeSubject m.msg, sub.view.round = r

instance (P : Primitives) (v : Voter) (r : ℕ) : Decidable (v.VotesExact P r) :=
  inferInstanceAs (Decidable (∀ m ∈ (v.roundChangeSet.votes (uint64 r)).values, _))

theorem Voter.Tallies.handled {c₀ : Core} {l : List Input} (T : v.Tallies P (HandledVote P c₀ l)) {r : ℕ}
    (hexact : v.VotesExact P r) {q : Address} (hq : q ∈ (v.roundChangeSet.votes (uint64 r)).senders) :
    q ∈ v.valSet.addresses ∧ Handled P c₀ l q ⟨r, v.current.sequence⟩ := by
  obtain ⟨m, hm⟩ := MessageSet.mem_senders.mp hq
  obtain ⟨rfl, hmem, ⟨hcode, rc, hdec, -, hsequence⟩, hvote⟩ := (T.votes _).mem hm
  have hround : rc.view.round = r := hexact m (MessageSet.mem_values_iff.mpr ⟨_, hm⟩) rc hdec
  have hview : rc.view = ⟨r, v.current.sequence⟩ := by
    rw [← hround, ← hsequence]
  exact ⟨hmem, hview ▸ hvote hcode rc hdec⟩

/-! ### What `handleRoundChange` does -/

namespace Core

/-- The core with the vote added to its table. -/
def countRoundChange (c : Core) (msg : Message) (rc : Subject) : Core :=
  { c with roundChangeSet := (c.roundChangeSet.add rc.view.round msg).1 }

/-- The votes that the core then counts for the round. -/
def roundChangeCount (c : Core) (msg : Message) (rc : Subject) : ℕ :=
  ((c.countRoundChange msg rc).roundChangeSet.votes (uint64 rc.view.round)).size

def roundChangeSenders (c : Core) (msg : Message) (rc : Subject) : Finset Address :=
  ((c.countRoundChange msg rc).roundChangeSet.votes (uint64 rc.view.round)).senders

variable {c : Core} {msg : Message} {rc : Subject}

theorem roundChangeSenders_eq (hmem : msg.address ∈ (c.roundChangeSet.votes (uint64 rc.view.round)).valSet.addresses) :
    c.roundChangeSenders msg rc = insert msg.address (c.roundChangeSet.votes (uint64 rc.view.round)).senders := by
  unfold roundChangeSenders countRoundChange
  dsimp only
  rw [RoundChangeSet.votes_add_self, MessageSet.add_of_mem hmem]
  exact GoMap.support_insert _ _ _

theorem handleRoundChange_refused
    (h : ∀ rc, P.decodeSubject msg.msg = some rc → c.checkMessage msgRoundChange rc.view = none →
      msg.address ∉ (c.roundChangeSet.votes (uint64 rc.view.round)).valSet.addresses) :
    ∃ rcs, (c.handleRoundChange P B msg).1 = { c with roundChangeSet := rcs }
      ∧ ∀ k, rcs.votes k = c.roundChangeSet.votes k := by
  unfold handleRoundChange
  cases hdec : P.decodeSubject msg.msg with
  | none => exact ⟨_, rfl, fun _ => rfl⟩
  | some rc =>
    dsimp only
    cases hcheck : c.checkMessage msgRoundChange rc.view with
    | some => exact ⟨_, rfl, fun _ => rfl⟩
    | none =>
      have hadd := MessageSet.add_of_notMem (h rc hdec hcheck)
      have herror : (c.roundChangeSet.add rc.view.round msg).2 = .error .unauthorizedAddress := by
        unfold RoundChangeSet.add
        dsimp only
        rw [hadd]
      dsimp only
      rw [herror]
      refine ⟨_, rfl, fun k => ?_⟩
      by_cases hk : k = uint64 rc.view.round
      · rw [hk, RoundChangeSet.votes_add_self, hadd]
      · rw [RoundChangeSet.votes_add_of_ne _ _ hk]

theorem handleRoundChange_counted (hdec : P.decodeSubject msg.msg = some rc)
    (hcheck : c.checkMessage msgRoundChange rc.view = none)
    (hmem : msg.address ∈ (c.roundChangeSet.votes (uint64 rc.view.round)).valSet.addresses) :
    (c.handleRoundChange P B msg).1 = if c.waitingForRoundChange ∧ (c.roundChangeCount msg rc : ℤ) = c.valSet.F + 1 then
        if c.currentView.round < rc.view.round then
          (c.countRoundChange msg rc).sendRoundChange P B rc.view.round
        else c.countRoundChange msg rc
      else if (c.roundChangeCount msg rc : ℤ) = 2 * c.valSet.F + 1
          ∧ (c.waitingForRoundChange ∨ c.currentView.round < rc.view.round) then
        (c.countRoundChange msg rc).startNewRound P B rc.view.round
      else c.countRoundChange msg rc := by
  have hok : (c.roundChangeSet.add rc.view.round msg).2 = .ok (c.roundChangeCount msg rc) := by
    unfold roundChangeCount countRoundChange
    dsimp only
    rw [RoundChangeSet.votes_add_self]
    unfold RoundChangeSet.add
    dsimp only
    rw [MessageSet.add_of_mem hmem]
  unfold handleRoundChange
  rw [hdec]
  dsimp only
  rw [hcheck]
  dsimp only
  rw [hok]
  unfold countRoundChange
  dsimp only
  split_ifs <;> rfl

theorem advance_roundChange {x : Input} {src : Validator}
    (h : dispatch P c x.2 = some (msg, src)) (hcode : msg.code = msgRoundChange) :
    ∃ c₁ : Core, c₁.toVoter = c.toVoter ∧ ((advance P c x).toVoter = (c₁.handleRoundChange P x.1 msg).1.toVoter
        ∨ ∃ payload, (advance P c x).toVoter = (c₁.handleRoundChange P x.1 msg).1.toVoter.emit (.gossip payload)) := by
  have hchecked : ∀ (c₁ : Core) (payload : Bytes), (gossipIfOk payload (c₁.handleCheckedMsg P x.1 msg src)).toVoter
          = (c₁.handleRoundChange P x.1 msg).1.toVoter
        ∨ ∃ p, (gossipIfOk payload (c₁.handleCheckedMsg P x.1 msg src)).toVoter
          = (c₁.handleRoundChange P x.1 msg).1.toVoter.emit (.gossip p) := by
    intro c₁ payload
    have heq : (c₁.handleCheckedMsg P x.1 msg src).1.toVoter = (c₁.handleRoundChange P x.1 msg).1.toVoter := by
      unfold handleCheckedMsg
      rw [hcode, if_neg (by decide), if_neg (by decide), if_neg (by decide), if_pos rfl, testBacklog_toVoter]
    rw [← heq]
    unfold gossipIfOk
    split_ifs
    · exact .inr ⟨payload, rfl⟩
    · exact .inl rfl
  obtain ⟨B, ev⟩ := x
  rcases dispatch_cases h with ⟨payload, i, rfl, hmsg, hs⟩ | ⟨i, rfl, hi⟩
  · refine ⟨c, rfl, ?_⟩
    simp only [advance, step, handleMsg, hmsg, hs]
    exact hchecked c payload
  · refine ⟨{ c with posted := c.posted.eraseIdx i }, rfl, ?_⟩
    simp only [advance, step, hi]
    exact hchecked _ (P.encodeMessage msg)

theorem sendRoundChange_catchesUp {r : ℕ} (hr : c.currentView.round < r) :
    (c.sendRoundChange P B r).waitingForRoundChange = true
      ∧ (c.sendRoundChange P B r).currentView = ⟨r, c.current.sequence⟩ := by
  unfold sendRoundChange
  rw [if_neg (not_le.mpr hr)]
  refine ⟨Voter.broadcast_waiting _ _, ?_⟩
  exact (Voter.broadcast_currentView _ _).trans (Voter.catchUp_currentView _ _)

theorem proposeAgain_view : (c.proposeAgain P B).waitingForRoundChange = c.waitingForRoundChange
      ∧ (c.proposeAgain P B).currentView = c.currentView := by
  have hsend : ∀ p, (c.toVoter.sendPreprepare P B p).waitingForRoundChange = c.waitingForRoundChange
      ∧ (c.toVoter.sendPreprepare P B p).currentView = c.currentView := by
    intro p
    unfold Voter.sendPreprepare
    split_ifs
    · exact ⟨Voter.broadcast_waiting _ _, Voter.broadcast_currentView _ _⟩
    · exact ⟨rfl, rfl⟩
  unfold proposeAgain
  split_ifs
  · split
    · exact hsend _
    · exact ⟨rfl, rfl⟩
  · split
    · exact hsend _
    · exact ⟨rfl, rfl⟩

theorem enterView_enters (view : View) (roundChange : Bool) (lastProposer : Address) :
    (c.enterView P B view roundChange lastProposer).waitingForRoundChange = false
      ∧ (c.enterView P B view roundChange lastProposer).currentView = view := by
  have hview := Voter.enter_currentView (B := B) c.toVoter view roundChange lastProposer
  unfold enterView
  dsimp only
  split_ifs
  · refine ⟨proposeAgain_view.1, proposeAgain_view.2.trans ?_⟩
    exact hview
  · exact ⟨rfl, hview⟩

theorem startNewRound_enters (r : ℕ) : c.startNewRound P B r = c ∨ (c.startNewRound P B r).waitingForRoundChange = false
        ∧ ((c.startNewRound P B r).currentView = ⟨r, c.current.sequence⟩
          ∨ c.current.sequence < (c.startNewRound P B r).current.sequence) := by
  unfold startNewRound
  dsimp only
  split_ifs with hnew
  · obtain ⟨hwait, hview⟩ := enterView_enters (P := P) (B := B)
      (c := { c with valSet := B.validators (B.lastProposal .startNewRound).1 })
      ⟨0, (B.lastProposal .startNewRound).1.number + 1⟩ false (B.lastProposal .startNewRound).2
    refine .inr ⟨hwait, .inr ?_⟩
    exact lt_of_lt_of_eq (Nat.lt_succ_of_le hnew) (congrArg View.sequence hview).symm
  · exact .inl rfl
  · exact .inl rfl
  · obtain ⟨hwait, hview⟩ := enterView_enters (P := P) (B := B) (c := c) ⟨r, c.current.sequence⟩ true
      (B.lastProposal .startNewRound).2
    exact .inr ⟨hwait, .inl hview⟩
  · exact .inl rfl

/-- If a ROUND CHANGE makes the core leave its round, then it was accepted and there are enough votes:
`F + 1` where the core waits afterwards, `2 F + 1` where it does not. -/
theorem handleRoundChange_leaves (hvalSet : ∀ k, (c.roundChangeSet.votes k).valSet.addresses = c.valSet.addresses)
    (hleaves : (c.handleRoundChange P B msg).1.currentView ≠ c.currentView
      ∨ (c.handleRoundChange P B msg).1.waitingForRoundChange ≠ c.waitingForRoundChange) :
    ∃ rc, P.decodeSubject msg.msg = some rc ∧ c.checkMessage msgRoundChange rc.view = none
      ∧ msg.address ∈ c.valSet.addresses
      ∧ ((c.handleRoundChange P B msg).1.currentView = ⟨rc.view.round, c.current.sequence⟩
        ∨ c.current.sequence < (c.handleRoundChange P B msg).1.current.sequence)
      ∧ (if (c.handleRoundChange P B msg).1.waitingForRoundChange = true then c.valSet.F + 1
        else 2 * c.valSet.F + 1) = (c.roundChangeCount msg rc : ℤ) := by
  have hsame : ∀ rcs, (c.handleRoundChange P B msg).1 = { c with roundChangeSet := rcs } → False := by
    intro rcs heq
    rw [heq] at hleaves
    rcases hleaves with hview | hwait
    · exact hview rfl
    · exact hwait rfl
  by_cases haccepted : ∃ rc, P.decodeSubject msg.msg = some rc
      ∧ c.checkMessage msgRoundChange rc.view = none ∧ msg.address ∈ c.valSet.addresses
  · obtain ⟨rc, hdec, hcheck, hmem⟩ := haccepted
    refine ⟨rc, hdec, hcheck, hmem, ?_⟩
    have hcounted := handleRoundChange_counted (P := P) (B := B) hdec hcheck (hvalSet _ ▸ hmem)
    split_ifs at hcounted with hecho hlt hstart
    · obtain ⟨hwait, hview⟩ :=
        sendRoundChange_catchesUp (P := P) (B := B) (c := c.countRoundChange msg rc) hlt
      rw [hcounted, hwait, if_pos rfl]
      exact ⟨.inl hview, hecho.2.symm⟩
    · exact absurd hcounted (hsame _)
    · rcases startNewRound_enters (P := P) (B := B) (c := c.countRoundChange msg rc) rc.view.round
        with hnone | ⟨hwait, hview⟩
      · exact absurd (hcounted.trans hnone) (hsame _)
      · rw [hcounted, hwait, if_neg (by decide)]
        exact ⟨hview, hstart.1.symm⟩
    · exact absurd hcounted (hsame _)
  · have hrefused : ∀ rc, P.decodeSubject msg.msg = some rc → c.checkMessage msgRoundChange rc.view = none →
        msg.address ∉ (c.roundChangeSet.votes (uint64 rc.view.round)).valSet.addresses :=
      fun rc hdec hcheck hmem => haccepted ⟨rc, hdec, hcheck, hvalSet _ ▸ hmem⟩
    obtain ⟨rcs, heq, -⟩ := handleRoundChange_refused (P := P) (B := B) hrefused
    exact absurd heq (hsame rcs)

end Core

/-! ### Certificates -/

section Certificates

variable {c₀ c : Core} {l : List Input} {x : Input} {msg : Message} {src : Validator} {rc : Subject}

/-- The votes handled before, and this one. -/
def VotedWith (Voted : Address → View → Prop) (msg : Message) (rc : Subject) (q : Address) (view : View) : Prop :=
  Voted q view ∨ (q = msg.address ∧ view = rc.view)

theorem votedWith_of_counted (T : c.toVoter.Tallies P (HandledVote P c₀ l))
    (hexact : c.toVoter.VotesExact P rc.view.round)
    (hcheck : c.checkMessage msgRoundChange rc.view = none)
    (hmem : msg.address ∈ c.valSet.addresses) {q : Address} (hq : q ∈ c.roundChangeSenders msg rc) :
    q ∈ c.valSet.addresses ∧ VotedWith (Handled P c₀ l) msg rc q ⟨rc.view.round, c.current.sequence⟩ := by
  have hview : (⟨rc.view.round, c.current.sequence⟩ : View) = rc.view := by
    rw [← (Voter.roundChange_of_checkMessage hcheck).1]
  rw [roundChangeSenders_eq ((T.votes _).valSet ▸ hmem), Finset.mem_insert] at hq
  rcases hq with rfl | hq
  · exact ⟨hmem, .inr ⟨rfl, hview⟩⟩
  · obtain ⟨hvalidator, hhandled⟩ := T.handled hexact hq
    exact ⟨hvalidator, .inl hhandled⟩

/-- **Round change certificates.** If a ROUND CHANGE for round `r` makes a core leave its round, and the
votes held with the low word of `r` are for `r`, then the core is now in round `r` or in a new sequence,
and such messages for exactly its sequence and `r` were handled from `F + 1` validators, where it echoes
the round change, or from `2 F + 1`, where it starts a round. -/
theorem round_change_certificates (P : Primitives) (B₀ : Backend) (a : Address) (l : List Input)
    (x : Input) (msg : Message) (src : Validator) (rc : Subject)
    (hmsg : dispatch P (Run.run (advance P) (start P B₀ a) l) x.2 = some (msg, src))
    (hcode : msg.code = msgRoundChange) (hdec : P.decodeSubject msg.msg = some rc)
    (hexact : (Run.run (advance P) (start P B₀ a) l).VotesExact P rc.view.round)
    (hleaves : (Run.run (advance P) (start P B₀ a) (l ++ [x])).currentView
        ≠ (Run.run (advance P) (start P B₀ a) l).currentView
      ∨ (Run.run (advance P) (start P B₀ a) (l ++ [x])).waitingForRoundChange
        ≠ (Run.run (advance P) (start P B₀ a) l).waitingForRoundChange) :
    ((Run.run (advance P) (start P B₀ a) (l ++ [x])).currentView
          = ⟨rc.view.round, (Run.run (advance P) (start P B₀ a) l).current.sequence⟩
        ∨ (Run.run (advance P) (start P B₀ a) l).current.sequence
          < (Run.run (advance P) (start P B₀ a) (l ++ [x])).current.sequence)
      ∧ ∃ S : Finset Address, (∀ q ∈ S, q ∈ (Run.run (advance P) (start P B₀ a) l).valSet.addresses
          ∧ Handled P (start P B₀ a) (l ++ [x]) q
            ⟨rc.view.round, (Run.run (advance P) (start P B₀ a) l).current.sequence⟩)
        ∧ (if (Run.run (advance P) (start P B₀ a) (l ++ [x])).waitingForRoundChange = true
            then (Run.run (advance P) (start P B₀ a) l).valSet.F + 1
            else 2 * (Run.run (advance P) (start P B₀ a) l).valSet.F + 1) ≤ (S.card : ℤ) := by
  have T := run_tallies_handled (P := P) B₀ a l
  rw [Run.run_concat] at hleaves ⊢
  generalize hc : Run.run (advance P) (start P B₀ a) l = c at *
  obtain ⟨c₁, hc₁, hafter⟩ := advance_roundChange hmsg hcode
  -- gossiping changes neither the view nor the waiting
  have hsame : (advance P c x).currentView = (c₁.handleRoundChange P x.1 msg).1.currentView
      ∧ (advance P c x).waitingForRoundChange = (c₁.handleRoundChange P x.1 msg).1.waitingForRoundChange := by
    rcases hafter with heq | ⟨payload, heq⟩
    · rw [heq]
      exact ⟨rfl, rfl⟩
    · rw [heq]
      exact ⟨rfl, rfl⟩
  obtain ⟨hview, hwait⟩ := hsame
  have hsequence : (advance P c x).current.sequence
      = (c₁.handleRoundChange P x.1 msg).1.current.sequence := congrArg View.sequence hview
  rw [hview, hwait, ← hc₁] at hleaves
  rw [← hc₁] at T hexact
  obtain ⟨rc', hdec', hcheck, hmem, hleft, hcount⟩ :=
    handleRoundChange_leaves (fun k => (T.votes k).valSet) hleaves
  rw [hdec] at hdec'
  cases hdec'
  refine ⟨?_, c₁.roundChangeSenders msg rc, fun q hq => ?_, ?_⟩
  · rw [hview, hsequence, ← hc₁]
    exact hleft
  · obtain ⟨hvalidator, hvoted⟩ := votedWith_of_counted T hexact hcheck hmem hq
    rw [hc₁] at hcheck hmem hvalidator hvoted
    refine ⟨hvalidator, Run.sometime_concat.mpr ?_⟩
    rcases hvoted with hbefore | ⟨rfl, hnow⟩
    · exact .inl hbefore
    · rw [hnow, hc]
      exact .inr ⟨hmem, hcheck, (msg, src), hmsg, hcode, rfl, rc, hdec, rfl⟩
  · rw [hwait, ← hc₁, hcount, roundChangeSenders, MessageSet.card_senders]
    exact le_rfl

end Certificates

namespace Sample

/-- Validator 2 gives up round 0 and is sent the votes of 1, 3 and 4 for round 1. -/
def changeRun : List Input :=
  (backend 4 genesis, .timeout) :: [1, 3, 4].map fun a => (backend 4 genesis, deliver (roundChangeOf a ⟨1, 1⟩))

theorem round_change_certificates_changeRun : (afterTwo changeRun).waitingForRoundChange = false
      ∧ ∃ S : Finset Address, (∀ q ∈ S, Handled primitives two changeRun q ⟨1, 1⟩) ∧ 3 ≤ S.card := by
  have hsplit : changeRun = changeRun.take 3 ++ [(backend 4 genesis, deliver (roundChangeOf 4 ⟨1, 1⟩))] := rfl
  have hstops : (afterTwo changeRun).waitingForRoundChange = false := by decide +kernel
  have hwaits : (afterTwo (changeRun.take 3)).waitingForRoundChange = true := by decide +kernel
  have hexact : (afterTwo (changeRun.take 3)).VotesExact primitives 1 := by decide +kernel
  have hmsg : dispatch primitives (afterTwo (changeRun.take 3)) (deliver (roundChangeOf 4 ⟨1, 1⟩))
      = some (roundChangeOf 4 ⟨1, 1⟩, ⟨4, 0⟩) := by decide +kernel
  have hdec : primitives.decodeSubject (roundChangeOf 4 ⟨1, 1⟩).msg = some ⟨⟨1, 1⟩, 0⟩ := by
    decide +kernel
  have hF : (afterTwo (changeRun.take 3)).valSet.F = 1 := by
    rw [ValidatorSet.F_eq]
    decide +kernel
  have hsequence : (afterTwo (changeRun.take 3)).current.sequence = 1 := by decide +kernel
  rw [hsplit] at hstops ⊢
  refine ⟨hstops, ?_⟩
  have hleaves : (afterTwo (changeRun.take 3 ++ [(backend 4 genesis, deliver (roundChangeOf 4 ⟨1, 1⟩))])
      ).waitingForRoundChange ≠ (afterTwo (changeRun.take 3)).waitingForRoundChange := by
    rw [hstops, hwaits]
    decide
  obtain ⟨-, S, hS, hcard⟩ := round_change_certificates primitives (backend 4 genesis) 2
    (changeRun.take 3) (backend 4 genesis, deliver (roundChangeOf 4 ⟨1, 1⟩)) _ _ _ hmsg rfl hdec hexact
    (.inr hleaves)
  unfold afterTwo two at hstops hF hsequence
  rw [hstops, if_neg (by decide), hF] at hcard
  rw [hsequence] at hS
  exact ⟨S, fun q hq => (hS q hq).2, by omega⟩

/-- Validator 2 gives up round 0; validator 3 votes for round `2 + 2 ^ 64` and validator 4 for 2. -/
def wideRun : List Input :=
  [(backend 4 genesis, .timeout), (backend 4 genesis, deliver (roundChangeOf 3 ⟨2 + 2 ^ 64, 1⟩)),
    (backend 4 genesis, deliver (roundChangeOf 4 ⟨2, 1⟩))]

/-- It echoes the change to round 2, for which only validator 4 has voted. -/
theorem echoes_without_certificate :
    (afterTwo (wideRun.take 2)).currentView = ⟨1, 1⟩ ∧ (afterTwo wideRun).currentView = ⟨2, 1⟩
      ∧ (afterTwo wideRun).waitingForRoundChange = true ∧ (afterTwo (wideRun.take 2)).valSet.F = 1
      ∧ ∀ q, Handled primitives two wideRun q ⟨2, 1⟩ → q = 4 := by
  refine ⟨by decide +kernel, by decide +kernel, by decide +kernel, ?_, ?_⟩
  · rw [ValidatorSet.F_eq]
    decide +kernel
  · have hwide : dispatch primitives (afterTwo (wideRun.take 1)) (deliver (roundChangeOf 3 ⟨2 + 2 ^ 64, 1⟩))
        = some (roundChangeOf 3 ⟨2 + 2 ^ 64, 1⟩, ⟨3, 0⟩) := by decide +kernel
    have hnarrow : dispatch primitives (afterTwo (wideRun.take 2)) (deliver (roundChangeOf 4 ⟨2, 1⟩))
        = some (roundChangeOf 4 ⟨2, 1⟩, ⟨4, 0⟩) := by decide +kernel
    have hother : primitives.decodeSubject (roundChangeOf 3 ⟨2 + 2 ^ 64, 1⟩).msg
        = some ⟨⟨2 + 2 ^ 64, 1⟩, 0⟩ := by decide +kernel
    rintro q (⟨-, -, e, he, -⟩ | ⟨-, -, e, he, -, -, rc, hrc, hview⟩ | ⟨-, -, e, he, -, haddr, -⟩
      | hnone)
    · exact absurd he (by simp [dispatch])
    · cases (hwide.symm.trans he)
      cases (hother.symm.trans hrc)
      exact absurd hview (by decide)
    · cases (hnarrow.symm.trans he)
      exact haddr.symm
    · exact hnone.elim

end Sample

end GoWanchain.Istanbul
