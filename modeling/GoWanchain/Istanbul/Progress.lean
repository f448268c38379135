import GoWanchain.Istanbul.RoundChanges

/-!
# Round change progress

A core that handled `2 F + 1` votes for a round has started that round or a later one, unless the test
for `F + 1` votes comes first (a core that waits with `F = 0`) or votes were lost when an earlier round
was started (`round_change_progress`). `Progress` is the invariant behind it: the votes for a round that
was not started are few, and all of them are in the table.
-/

namespace GoWanchain.Istanbul

open Core

variable {P : Primitives} {B : Backend} {v₀ v v' : Voter} {inp : Option (Message × Validator)}

/-! ### What the votes have led to -/

/-- A round of the current sequence that is not before `r` was started. -/
def Voter.Started (v : Voter) (r : ℕ) : Prop :=
  ∃ w, (w, Effect.newRound) ∈ v.log ∧ w.sequence = v.current.sequence ∧ r ≤ w.round

/-- The votes for a round that was not started: there are at most `2 F`, and as long as the round is not
behind, all of them are in the table. -/
structure Voter.Pending (v : Voter) (r : ℕ) (S : Finset Address) : Prop where
  few : S.Nonempty → (S.card : ℤ) ≤ 2 * v.valSet.F
  counted : v.current.round ≤ r → S ⊆ (v.roundChangeSet.votes (uint64 r)).senders

/-- What the handled votes have led to, where `Voted q view` says that a vote of `q` for `view` was
handled. -/
structure Voter.Progress (Voted : Address → View → Prop) (v : Voter) : Prop where
  bound : ∀ q view, Voted q view → view.round < 2 ^ 64 ∧ view.sequence ≤ v.current.sequence
  votes : ∀ r S, (∀ q ∈ S, Voted q ⟨r, v.current.sequence⟩) → v.Started r ∨ v.Pending r S

namespace Voter

variable {Voted Voted' : Address → View → Prop}

theorem pending_empty (v : Voter) (r : ℕ) : v.Pending r ∅ :=
  ⟨fun h => absurd h (by simp), fun _ => Finset.empty_subset _⟩

theorem Started.congr {r : ℕ} (h : v.Started r) (hsequence : v'.current.sequence = v.current.sequence)
    (hlog : ∀ w, (w, Effect.newRound) ∈ v.log → (w, Effect.newRound) ∈ v'.log) : v'.Started r := by
  obtain ⟨w, hmem, hw, hr⟩ := h
  exact ⟨w, hlog w hmem, hw.trans hsequence.symm, hr⟩

namespace Progress

theorem fresh (hbound : ∀ q view, Voted q view → view.round < 2 ^ 64 ∧ view.sequence ≤ v.current.sequence)
    (hlater : v.current.sequence < v'.current.sequence) : v'.Progress Voted := by
  refine ⟨fun q view hq => ?_, fun r S hS => .inr ?_⟩
  · obtain ⟨hround, hsequence⟩ := hbound q view hq
    exact ⟨hround, by omega⟩
  · have hempty : S = ∅ := by
      apply Finset.eq_empty_of_forall_notMem
      intro q hq
      have hsequence := (hbound q _ (hS q hq)).2
      dsimp only at hsequence
      omega
    rw [hempty]
    exact v'.pending_empty r

theorem move (H : v.Progress Voted) (h : Move P B v₀ inp v v') (hinp : ¬ RoundChangeInput inp) : v'.Progress Voted := by
  have hlog : ∀ w, (w, Effect.newRound) ∈ v.log → (w, Effect.newRound) ∈ v'.log :=
    fun w hw => h.log_mono hw
  cases h.roundMove with
  | stay hview _ hvalSet hrcs =>
    have hsequence : v'.current.sequence = v.current.sequence := congrArg View.sequence hview
    have hround : v'.current.round = v.current.round := congrArg View.round hview
    have hrcs := hrcs.resolve_right hinp
    refine ⟨fun q view hq => hsequence ▸ H.bound q view hq, fun r S hS => ?_⟩
    rw [hsequence] at hS
    refine (H.votes r S hS).imp (fun hs => hs.congr hsequence hlog) fun hp => ?_
    exact ⟨hvalSet ▸ hp.few, fun hr => hrcs ▸ hp.counted (hround ▸ hr)⟩
  | catchUp r' _ hview _ hvalSet hrcs =>
    have hsequence : v'.current.sequence = v.current.sequence := congrArg View.sequence hview
    have hround' : v'.current.round = r' := congrArg View.round hview
    refine ⟨fun q view hq => hsequence ▸ H.bound q view hq, fun r S hS => ?_⟩
    rw [hsequence] at hS
    refine (H.votes r S hS).imp (fun hs => hs.congr hsequence hlog) fun hp => ?_
    refine ⟨hvalSet ▸ hp.few, fun hr q hq => ?_⟩
    -- the table is cleared below `r'`, and `r` is not below it
    have hr64 := (H.bound q _ (hS q hq)).1
    have hkey : uint64 r' ≤ uint64 r := by
      have hmod : uint64 r' ≤ r' := Nat.mod_le _ _
      have hid : uint64 r = r := Nat.mod_eq_of_lt hr64
      omega
    have hq' := hp.counted (by omega) hq
    rw [hrcs]
    rw [MessageSet.senders] at hq' ⊢
    rwa [RoundChangeSet.votes_clear_messages _ hkey]
  | enter _ _ hnew => exact fresh H.bound (hnew.resolve_right hinp)

theorem moves (H : v.Progress Voted) (h : Moves P B v₀ none v v') : v'.Progress Voted := by
  refine Moves.invariant (fun v v' H' hmove => H'.move hmove ?_) h H
  rintro ⟨msg, src, hinp, -⟩
  exact absurd hinp (by simp)

theorem enterView {c : Core} {view : View} {roundChange : Bool} {lastProposer : Address}
    (H : (c.toVoter.enter B view roundChange lastProposer).Progress Voted) :
    (c.enterView P B view roundChange lastProposer).toVoter.Progress Voted := by
  have hmoves : Moves P B c.toVoter none (c.toVoter.enter B view roundChange lastProposer)
      (c.enterView P B view roundChange lastProposer).toVoter := enterView_toVoter_moves c _ _ _
  exact H.moves hmoves

theorem anti (H : v.Progress Voted) (hvoted : ∀ q view, Voted' q view → Voted q view) : v.Progress Voted' :=
  ⟨fun q view hq => H.bound q view (hvoted q view hq), fun r S hS => H.votes r S fun q hq => hvoted q _ (hS q hq)⟩

end Progress

end Voter

/-! ### Progress at a vote -/

section Vote

variable {Voted : Address → View → Prop} {c : Core} {msg : Message} {rc : Subject}

theorem voted_erase {S : Finset Address} (hS : ∀ q ∈ S, VotedWith Voted msg rc q ⟨rc.view.round, c.current.sequence⟩) :
    ∀ q ∈ S.erase msg.address, Voted q ⟨rc.view.round, c.current.sequence⟩ := by
  intro q hq
  obtain ⟨hne, hmem⟩ := Finset.mem_erase.mp hq
  exact (hS q hmem).resolve_right fun h => hne h.1

/-- No votes are held for the rounds above. -/
def Voter.NoVotesAbove (v : Voter) (r : ℕ) : Prop :=
  ∀ e ∈ v.roundChangeSet.roundChanges.entries, r < e.1 → e.2.size = 0

theorem Voter.NoVotesAbove.senders_eq_empty {r k : ℕ} (h : v.NoVotesAbove r) (hk : r < k) :
    (v.roundChangeSet.votes k).senders = ∅ := by
  apply Finset.card_eq_zero.mp
  rw [MessageSet.card_senders]
  unfold RoundChangeSet.votes
  cases hms : v.roundChangeSet.roundChanges.lookup k with
  | none => rfl
  | some ms => exact h ⟨k, ms⟩ (GoMap.mem_entries_iff.mpr hms) hk

/-- With the vote of `q` there are `2 F + 1` votes for round `r`, and the voter is to start it. -/
def Voter.Completes (v : Voter) (q : Address) (r : ℕ) : Prop :=
  ((insert q (v.roundChangeSet.votes (uint64 r)).senders).card : ℤ) = 2 * v.valSet.F + 1
    ∧ (v.waitingForRoundChange = true ∨ v.current.round < r)

/-- The condition on a vote of `q` for round `r`: the round is a machine word; a voter that waits
tolerates a fault; and when the vote completes `2 F + 1`, then no votes are held for the rounds above,
the head of the chain is not behind and the sequence fits an `int64`. -/
structure Voter.Steady (B : Backend) (v : Voter) (q : Address) (r : ℕ) : Prop where
  narrow : r < 2 ^ 64
  faults : v.waitingForRoundChange = true → 1 ≤ v.valSet.F
  above : v.Completes q r → v.NoVotesAbove r
  head : v.Completes q r → v.current.sequence ≤ (B.lastProposal .startNewRound).1.number + 1
  word : v.Completes q r → v.current.sequence < 2 ^ 63

instance (v : Voter) (r : ℕ) : Decidable (v.NoVotesAbove r) :=
  inferInstanceAs (Decidable (∀ e ∈ v.roundChangeSet.roundChanges.entries, _))

instance (v : Voter) (q : Address) (r : ℕ) : Decidable (v.Completes q r) :=
  inferInstanceAs (Decidable (_ ∧ _))

instance (B : Backend) (v : Voter) (q : Address) (r : ℕ) : Decidable (v.Steady B q r) :=
  decidable_of_iff (r < 2 ^ 64 ∧ (v.waitingForRoundChange = true → 1 ≤ v.valSet.F) ∧ (v.Completes q r → v.NoVotesAbove r
        ∧ v.current.sequence ≤ (B.lastProposal .startNewRound).1.number + 1
        ∧ v.current.sequence < 2 ^ 63))
    ⟨fun h => ⟨h.1, h.2.1, fun hc => (h.2.2 hc).1, fun hc => (h.2.2 hc).2.1, fun hc => (h.2.2 hc).2.2⟩,
      fun h => ⟨h.narrow, h.faults, fun hc => ⟨h.above hc, h.head hc, h.word hc⟩⟩⟩

/-- An accepted vote, given to a core whose handled votes are `Voted`. -/
structure VoteAccepted (Voted : Address → View → Prop) (B : Backend) (c : Core) (msg : Message)
    (rc : Subject) : Prop where
  progress : c.toVoter.Progress Voted
  rounds : c.toVoter.Rounds
  steady : c.toVoter.Steady B msg.address rc.view.round
  check : c.checkMessage msgRoundChange rc.view = none
  mem : msg.address ∈ c.valSet.addresses
  table : (c.roundChangeSet.votes (uint64 rc.view.round)).valSet.addresses = c.valSet.addresses
  handled : ∀ q ∈ c.roundChangeSenders msg rc, VotedWith Voted msg rc q ⟨rc.view.round, c.current.sequence⟩

namespace VoteAccepted

variable (A : VoteAccepted Voted B c msg rc)

include A

theorem round_le : c.current.round ≤ rc.view.round := (Voter.roundChange_of_checkMessage A.check).2

theorem bound (q : Address) (view : View) (hq : VotedWith Voted msg rc q view) :
    view.round < 2 ^ 64 ∧ view.sequence ≤ c.current.sequence := by
  rcases hq with hold | ⟨-, rfl⟩
  · exact A.progress.bound q view hold
  · exact ⟨A.steady.narrow, (Voter.roundChange_of_checkMessage A.check).1.le⟩

theorem card_le : c.Started rc.view.round ∨ ((c.roundChangeSenders msg rc).card : ℤ) ≤ 2 * c.valSet.F + 1 := by
  refine (A.progress.votes _ _ (voted_erase A.handled)).imp id fun hp => ?_
  have hcard := Finset.pred_card_le_card_erase (s := c.roundChangeSenders msg rc) (a := msg.address)
  have hfaults := ValidatorSet.F_nonneg (List.ne_nil_of_mem A.mem)
  rcases ((c.roundChangeSenders msg rc).erase msg.address).eq_empty_or_nonempty with hempty | hne
  · rw [hempty, Finset.card_empty] at hcard
    omega
  · have hfew := hp.few hne
    omega

theorem counted {r : ℕ} {S : Finset Address} (hS : ∀ q ∈ S, VotedWith Voted msg rc q ⟨r, c.current.sequence⟩) :
    c.Started r ∨ ((r ≠ rc.view.round → S.Nonempty → (S.card : ℤ) ≤ 2 * c.valSet.F) ∧ (c.current.round ≤ r →
        S ⊆ ((c.countRoundChange msg rc).roundChangeSet.votes (uint64 r)).senders)) := by
  by_cases hr : r = rc.view.round
  · subst hr
    refine (A.progress.votes _ _ (voted_erase hS)).imp id fun hp =>
      ⟨fun hne => absurd rfl hne, fun hle => ?_⟩
    show S ⊆ c.roundChangeSenders msg rc
    rw [roundChangeSenders_eq (A.table ▸ A.mem), Finset.subset_insert_iff]
    exact hp.counted hle
  · have hold : ∀ q ∈ S, Voted q ⟨r, c.current.sequence⟩ := by
      intro q hq
      refine (hS q hq).resolve_right fun h => hr ?_
      exact congrArg View.round h.2
    refine (A.progress.votes r S hold).imp id fun hp => ⟨fun _ => hp.few, fun hle q hq => ?_⟩
    have hr64 := (A.progress.bound q _ (hold q hq)).1
    have hkey : uint64 r ≠ uint64 rc.view.round := by
      rw [uint64, uint64, Nat.mod_eq_of_lt hr64, Nat.mod_eq_of_lt A.steady.narrow]
      exact hr
    unfold Core.countRoundChange
    dsimp only
    rw [RoundChangeSet.votes_add_of_ne _ _ hkey]
    exact hp.counted hle hq

theorem progress_counted (hfew : c.Started rc.view.round ∨ ((c.roundChangeSenders msg rc).card : ℤ) ≤ 2 * c.valSet.F) :
    (c.countRoundChange msg rc).toVoter.Progress (VotedWith Voted msg rc) := by
  refine ⟨A.bound, fun r S hS => ?_⟩
  rcases A.counted hS with hstarted | ⟨hother, hcounted⟩
  · exact .inl hstarted
  · by_cases hr : r = rc.view.round
    · subst hr
      refine hfew.imp id fun hle => ⟨fun _ => ?_, hcounted⟩
      have hcard : S.card ≤ (c.roundChangeSenders msg rc).card :=
        Finset.card_le_card (hcounted A.round_le)
      show (S.card : ℤ) ≤ 2 * c.valSet.F
      omega
    · exact .inr ⟨hother hr, hcounted⟩

theorem progress_enter (habove : c.NoVotesAbove rc.view.round) (lastProposer : Address) :
    ((c.countRoundChange msg rc).toVoter.enter B ⟨rc.view.round, c.current.sequence⟩ true
      lastProposer).Progress (VotedWith Voted msg rc) := by
  have hsequence : ((c.countRoundChange msg rc).toVoter.enter B ⟨rc.view.round, c.current.sequence⟩ true
      lastProposer).current.sequence = c.current.sequence :=
    congrArg View.sequence (Voter.enter_currentView _ _ _ _)
  refine ⟨fun q view hq => ?_, fun r S hS => ?_⟩
  · rw [hsequence]
    exact A.bound q view hq
  · rw [hsequence] at hS
    by_cases hr : r ≤ rc.view.round
    · exact .inl ⟨⟨rc.view.round, c.current.sequence⟩, by simp, hsequence.symm, hr⟩
    · have hold : ∀ q ∈ S, Voted q ⟨r, c.current.sequence⟩ := by
        intro q hq
        refine (hS q hq).resolve_right fun h => hr ?_
        exact (congrArg View.round h.2).le
      rcases A.progress.votes r S hold with hs | hp
      · exact .inl (hs.congr hsequence fun w hw => List.mem_append_left _ hw)
      · -- such votes would be in the table, which holds none above
        have hround := A.round_le
        have hempty : S = ∅ := by
          apply Finset.eq_empty_of_forall_notMem
          intro q hq
          have hr64 : uint64 r = r := Nat.mod_eq_of_lt (A.progress.bound q _ (hold q hq)).1
          have hq' := hp.counted (by omega) hq
          rw [hr64, habove.senders_eq_empty (not_le.mp hr)] at hq'
          exact absurd hq' (Finset.notMem_empty q)
        rw [hempty]
        exact .inr (Voter.pending_empty _ r)

theorem progress_startNewRound (hcompletes : c.toVoter.Completes msg.address rc.view.round) :
    ((c.countRoundChange msg rc).startNewRound P B rc.view.round).toVoter.Progress (VotedWith Voted msg rc) := by
  have hround : ¬ rc.view.round < (c.countRoundChange msg rc).current.round := not_lt.mpr A.round_le
  have hhead := A.steady.head hcompletes
  have hword := A.steady.word hcompletes
  -- a core that waits is past round 0
  have hpos : rc.view.round ≠ 0 := by
    have hle := A.round_le
    rcases hcompletes.2 with hwait | hlt
    · have hround := (A.rounds.waiting hwait).1
      omega
    · omega
  unfold startNewRound
  dsimp only
  by_cases hnew : (B.lastProposal .startNewRound).1.number ≥ (c.countRoundChange msg rc).current.sequence
  · rw [if_pos hnew]
    apply Voter.Progress.enterView
    apply Voter.Progress.fresh A.bound
    have hsequence := congrArg View.sequence (Voter.enter_currentView (B := B)
      { (c.countRoundChange msg rc).toVoter with
        valSet := B.validators (B.lastProposal .startNewRound).1 }
      ⟨0, (B.lastProposal .startNewRound).1.number + 1⟩ false (B.lastProposal .startNewRound).2)
    exact lt_of_lt_of_eq (Nat.lt_succ_of_le hnew) hsequence.symm
  · have hseq : (c.countRoundChange msg rc).current.sequence = c.current.sequence := rfl
    have hguard : ((B.lastProposal .startNewRound).1.number : ℤ)
        = int64 (int64 (c.countRoundChange msg rc).current.sequence - 1) := by
      have hinner : (c.current.sequence : ℤ).bmod (2 ^ 64) = c.current.sequence :=
        Int.bmod_eq_of_le (by omega) (by omega)
      unfold int64
      rw [hseq, hinner, Int.bmod_eq_of_le (by omega) (by omega)]
      omega
    rw [if_neg hnew, if_pos hguard, if_neg hpos, if_neg hround]
    exact Voter.Progress.enterView (A.progress_enter (A.steady.above hcompletes) _)

theorem progress_handleRoundChange (hdec : P.decodeSubject msg.msg = some rc) :
    (c.handleRoundChange P B msg).1.toVoter.Progress (VotedWith Voted msg rc) := by
  have hcount : (c.roundChangeSenders msg rc).card = c.roundChangeCount msg rc :=
    MessageSet.card_senders _
  rw [handleRoundChange_counted hdec A.check (A.table ▸ A.mem)]
  split_ifs with hecho hlt hstart
  · -- `F + 1` votes are no more than `2 F`, since `F` is not zero
    have hfaults := A.steady.faults hecho.1
    have hcounted := A.progress_counted (.inr (by omega))
    have hmoves : Moves P B c.toVoter none (c.countRoundChange msg rc).toVoter
        ((c.countRoundChange msg rc).sendRoundChange P B rc.view.round).toVoter :=
      sendRoundChange_moves _ _
    exact hcounted.moves hmoves
  · have hfaults := A.steady.faults hecho.1
    exact A.progress_counted (.inr (by omega))
  · apply A.progress_startNewRound
    refine ⟨?_, hstart.2⟩
    rw [← roundChangeSenders_eq (A.table ▸ A.mem), hcount]
    exact hstart.1
  · -- with `2 F + 1` votes the round is the current one, and it was started
    apply A.progress_counted
    by_cases hfull : (c.roundChangeCount msg rc : ℤ) = 2 * c.valSet.F + 1
    · refine .inl ⟨c.currentView, A.rounds.started ?_, rfl, ?_⟩
      · exact Bool.eq_false_iff.mpr fun hwait => hstart ⟨hfull, .inl hwait⟩
      · exact not_lt.mp fun hlt => hstart ⟨hfull, .inr hlt⟩
    · refine A.card_le.imp id fun hle => ?_
      omega

end VoteAccepted

end Vote

/-! ### Progress along a run -/

theorem progress_start (B₀ : Backend) (a : Address) :
    (start P B₀ a).toVoter.Progress (Handled P (start P B₀ a) []) := by
  refine ⟨fun q view hq => hq.elim, fun r S hS => .inr ?_⟩
  have hempty : S = ∅ := Finset.eq_empty_of_forall_notMem fun q hq => hS q hq
  rw [hempty]
  exact Voter.pending_empty _ r

/-- A round change vote that the voter accepts is steady. -/
def SteadyVote (P : Primitives) (B : Backend) (v : Voter) (inp : Option (Message × Validator)) : Prop :=
  ∀ e ∈ inp, e.1.code = msgRoundChange → e.1.address ∈ v.valSet.addresses →
    ∀ rc ∈ P.decodeSubject e.1.msg, v.checkMessage msgRoundChange rc.view = none → v.Steady B e.1.address rc.view.round

instance (P : Primitives) (B : Backend) (v : Voter) (inp : Option (Message × Validator)) :
    Decidable (SteadyVote P B v inp) :=
  inferInstanceAs (Decidable (∀ e ∈ inp, _))

section Steady

variable {c₀ c : Core} {l : List Input} {x : Input}

theorem votedWith_of_handled {msg : Message} {src : Validator} {rc : Subject}
    (hmsg : dispatch P (Run.run (advance P) c₀ l) x.2 = some (msg, src))
    (hdec : P.decodeSubject msg.msg = some rc) {q : Address} {view : View}
    (h : Handled P c₀ (l ++ [x]) q view) : VotedWith (Handled P c₀ l) msg rc q view := by
  refine (Run.sometime_concat.mp h).imp id fun hx => ?_
  obtain ⟨-, -, e, he, -, haddr, rc', hrc', hview⟩ := hx
  cases (hmsg.symm.trans he)
  cases (hdec.symm.trans hrc')
  exact ⟨haddr.symm, hview.symm⟩

/-- If all rounds that were voted for are machine words, then no two of them are taken for one. -/
theorem votesExact_of_progress {r : ℕ} (T : v.Tallies P (HandledVote P c₀ l))
    (H : v.Progress (Handled P c₀ l)) (hr : r < 2 ^ 64) : v.VotesExact P r := by
  intro m hm sub hsub
  obtain ⟨q, hq⟩ := MessageSet.mem_values_iff.mp hm
  obtain ⟨rfl, -, ⟨hcode, rc, hdec, hkey, -⟩, hvote⟩ := (T.votes _).mem hq
  obtain rfl := Option.some.inj (hdec.symm.trans hsub)
  have hround := (H.bound _ _ (hvote hcode rc hdec)).1
  rw [uint64, uint64, Nat.mod_eq_of_lt hround, Nat.mod_eq_of_lt hr] at hkey
  exact hkey

theorem voteAccepted {msg : Message} {rc : Subject} (T : c.toVoter.Tallies P (HandledVote P c₀ l))
    (R : c.toVoter.Rounds) (H : c.toVoter.Progress (Handled P c₀ l))
    (hsteady : c.toVoter.Steady B msg.address rc.view.round)
    (hcheck : c.checkMessage msgRoundChange rc.view = none) (hmem : msg.address ∈ c.valSet.addresses) :
    VoteAccepted (Handled P c₀ l) B c msg rc where
  progress := H
  rounds := R
  steady := hsteady
  check := hcheck
  mem := hmem
  table := (T.votes _).valSet
  handled q hq := by
    have hexact := votesExact_of_progress T H hsteady.narrow
    exact (votedWith_of_counted T hexact hcheck hmem hq).2

theorem progress_refused {msg : Message} {Voted : Address → View → Prop} (H : c.toVoter.Progress Voted)
    (h : ∀ rc, P.decodeSubject msg.msg = some rc → c.checkMessage msgRoundChange rc.view = none →
      msg.address ∉ (c.roundChangeSet.votes (uint64 rc.view.round)).valSet.addresses) :
    (c.handleRoundChange P B msg).1.toVoter.Progress Voted := by
  obtain ⟨rcs, heq, hvotes⟩ := handleRoundChange_refused (B := B) h
  rw [heq]
  refine ⟨H.bound, fun r S hS => (H.votes r S hS).imp id fun hp => ⟨hp.few, fun hle => ?_⟩⟩
  rw [hvotes]
  exact hp.counted hle

theorem progress_advance (hc : Run.run (advance P) c₀ l = c) (hx : SteadyVote P x.1 c.toVoter (dispatch P c x.2))
    (T : c.toVoter.Tallies P (HandledVote P c₀ l)) (R : c.toVoter.Rounds)
    (H : c.toVoter.Progress (Handled P c₀ l)) : (advance P c x).toVoter.Progress (Handled P c₀ (l ++ [x])) := by
  by_cases hinp : RoundChangeInput (dispatch P c x.2)
  · obtain ⟨msg, src, hmsg, hcode⟩ := hinp
    obtain ⟨c₁, hc₁, hafter⟩ := advance_roundChange hmsg hcode
    -- it is enough to look at `handleRoundChange`, which may be followed by a gossip
    suffices hhandled : (c₁.handleRoundChange P x.1 msg).1.toVoter.Progress (Handled P c₀ (l ++ [x])) by
      rcases hafter with heq | ⟨payload, heq⟩
      · rw [heq]
        exact hhandled
      · have hgossip : Moves P x.1 c.toVoter none (c₁.handleRoundChange P x.1 msg).1.toVoter
            (advance P c x).toVoter := heq ▸ .single (.gossip _ payload)
        exact hhandled.moves hgossip
    rw [← hc₁] at T R H
    by_cases haccepted : ∃ rc, P.decodeSubject msg.msg = some rc
        ∧ c₁.checkMessage msgRoundChange rc.view = none ∧ msg.address ∈ c₁.valSet.addresses
    · obtain ⟨rc, hdec, hcheck, hmem⟩ := haccepted
      have hsteady : c₁.toVoter.Steady x.1 msg.address rc.view.round := by
        rw [hc₁] at hcheck hmem ⊢
        exact hx (msg, src) hmsg hcode hmem rc hdec hcheck
      have A := voteAccepted T R H hsteady hcheck hmem
      refine (A.progress_handleRoundChange hdec).anti fun q view hq => ?_
      subst hc
      exact votedWith_of_handled hmsg hdec hq
    · refine progress_refused (H.anti fun q view hq => ?_) fun rc hdec hcheck hmem =>
        haccepted ⟨rc, hdec, hcheck, (T.votes _).valSet ▸ hmem⟩
      -- the input is no vote that was handled
      refine (Run.sometime_concat.mp hq).resolve_right fun hhandles => haccepted ?_
      rw [hc] at hhandles
      obtain ⟨hmem, hcheck, e, he, -, rfl, rc, hrc, rfl⟩ := hhandles
      cases (hmsg.symm.trans he)
      rw [hc₁]
      exact ⟨rc, hrc, hcheck, hmem⟩
  · have hsame : c.toVoter.Progress (Handled P c₀ (l ++ [x])) := by
      refine H.anti fun q view hq => (Run.sometime_concat.mp hq).resolve_right fun hhandles => hinp ?_
      rw [hc] at hhandles
      obtain ⟨-, -, ⟨msg, src⟩, he, hcode, -⟩ := hhandles
      exact ⟨msg, src, he, hcode⟩
    exact Moves.invariant (fun v v' H' hmove => H'.move hmove hinp) (step_moves c x.2) hsame

theorem progress_run {B₀ : Backend} {a : Address} (h : Meets P (SteadyVote P) (start P B₀ a) l) :
    (Run.run (advance P) (start P B₀ a) l).toVoter.Progress (Handled P (start P B₀ a) l)
      ∧ (Run.run (advance P) (start P B₀ a) l).toVoter.Rounds := by
  refine Run.Along.history (I := fun l c => c.toVoter.Progress (Handled P (start P B₀ a) l)
    ∧ c.toVoter.Rounds) ⟨progress_start B₀ a, rounds_start B₀ a⟩ (fun l x hI _ hx => ?_) h
  obtain ⟨H, R⟩ := hI
  refine ⟨progress_advance rfl hx (run_tallies_handled B₀ a l) R H, ?_⟩
  exact Moves.invariant (fun v v' R' hmove => R'.move hmove) (step_moves _ x.2) R

end Steady

/-- **Round change progress.** In every run in which all accepted votes are steady: if ROUND CHANGE
messages for the current sequence and round `r` were handled from `2 F + 1` validators, then the core
has started round `r` or a later one, and it does not wait at a round that is not later than `r`. -/
theorem round_change_progress (P : Primitives) (B₀ : Backend) (a : Address) (l : List Input)
    (h : Meets P (SteadyVote P) (start P B₀ a) l) (r : ℕ) (S : Finset Address)
    (hn : (Run.run (advance P) (start P B₀ a) l).valSet.addresses ≠ [])
    (hS : ∀ q ∈ S, Handled P (start P B₀ a) l q ⟨r, (Run.run (advance P) (start P B₀ a) l).current.sequence⟩)
    (hcard : 2 * (Run.run (advance P) (start P B₀ a) l).valSet.F + 1 ≤ (S.card : ℤ)) :
    (∃ w, (w, Effect.newRound) ∈ (Run.run (advance P) (start P B₀ a) l).log
        ∧ w.sequence = (Run.run (advance P) (start P B₀ a) l).current.sequence ∧ r ≤ w.round)
      ∧ ¬ ((Run.run (advance P) (start P B₀ a) l).waitingForRoundChange = true
        ∧ (Run.run (advance P) (start P B₀ a) l).current.round ≤ r) := by
  obtain ⟨H, R⟩ := progress_run h
  have hF := ValidatorSet.F_nonneg hn
  rcases H.votes r S hS with ⟨w, hmem, hsequence, hr⟩ | hp
  · refine ⟨⟨w, hmem, hsequence, hr⟩, fun ⟨hwait, hround⟩ => ?_⟩
    have hlt := (R.waiting hwait).2 w hmem
    rw [View.lt_iff] at hlt
    simp only [Voter.view_eq] at hlt
    omega
  · have hne : S.Nonempty := by
      apply Finset.card_pos.mp
      omega
    have hfew := hp.few hne
    omega

namespace Sample

theorem round_change_progress_changeRun : Meets primitives (SteadyVote primitives) two changeRun
      ∧ ∃ w, (w, Effect.newRound) ∈ (afterTwo changeRun).log ∧ w.sequence = 1 ∧ 1 ≤ w.round := by
  have hsteady : Meets primitives (SteadyVote primitives) two changeRun := by decide +kernel
  have hvalidators : (afterTwo changeRun).valSet.addresses = [1, 2, 3, 4] := by decide +kernel
  have hsequence : (afterTwo changeRun).current.sequence = 1 := by decide +kernel
  have hF : (afterTwo changeRun).valSet.F = 1 := by
    rw [ValidatorSet.F_eq]
    decide +kernel
  have hone : Handled primitives two changeRun 1 ⟨1, 1⟩ := by decide +kernel
  have hthree : Handled primitives two changeRun 3 ⟨1, 1⟩ := by decide +kernel
  have hfour : Handled primitives two changeRun 4 ⟨1, 1⟩ := by decide +kernel
  unfold afterTwo two at hvalidators hsequence hF
  have hprogress := round_change_progress primitives (backend 4 genesis) 2 changeRun hsteady 1 {1, 3, 4}
    (by rw [hvalidators]; decide)
    (by
      rw [hsequence]
      intro q hq
      simp only [Finset.mem_insert, Finset.mem_singleton] at hq
      rcases hq with rfl | rfl | rfl
      · exact hone
      · exact hthree
      · exact hfour)
    (by rw [hF]; decide)
  rw [hsequence] at hprogress
  exact ⟨hsteady, hprogress.1⟩

def alone : Core := Core.start primitives (backend 1 genesis) 1

/-- The only validator gives up round 0 and is sent its own vote for round 1. -/
def aloneRun : List Input :=
  [(backend 1 genesis, .timeout), (backend 1 genesis, deliver (roundChangeOf 1 ⟨1, 1⟩))]

/-- Validator 2 is sent a vote of 1 for round 5, the votes of 1, 3 and 4 for round 3, and the votes of
3 and 4 for round 5. -/
def lostVoteRun : List Input :=
  (backend 4 genesis, deliver (roundChangeOf 1 ⟨5, 1⟩))
    :: [1, 3, 4].map (fun a => (backend 4 genesis, deliver (roundChangeOf a ⟨3, 1⟩)))
    ++ [3, 4].map fun a => (backend 4 genesis, deliver (roundChangeOf a ⟨5, 1⟩))

/-- One validator out of one has voted for round 1, and it still waits there: with `F = 0` the test for
`F + 1` votes comes first. And three validators out of four have voted for round 5, but only round 3
was started: starting it dropped the first vote for round 5. -/
theorem waits_with_enough_votes : alone.valSet.F = 0 ∧ Handled primitives alone aloneRun 1 ⟨1, 1⟩
      ∧ (Run.run (advance primitives) alone aloneRun).waitingForRoundChange = true
      ∧ (Run.run (advance primitives) alone aloneRun).currentView = ⟨1, 1⟩
      ∧ two.valSet.F = 1 ∧ Handled primitives two lostVoteRun 1 ⟨5, 1⟩
      ∧ Handled primitives two lostVoteRun 3 ⟨5, 1⟩ ∧ Handled primitives two lostVoteRun 4 ⟨5, 1⟩
      ∧ (afterTwo lostVoteRun).currentView = ⟨3, 1⟩ := by
  refine ⟨?_, by decide +kernel, by decide +kernel, by decide +kernel, ?_, by decide +kernel,
    by decide +kernel, by decide +kernel, by decide +kernel⟩
  · rw [ValidatorSet.F_eq]
    decide +kernel
  · rw [ValidatorSet.F_eq]
    decide +kernel

end Sample

end GoWanchain.Istanbul
