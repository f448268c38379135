import GoWanchain.Istanbul.Moves

/-!
# What a core has said

The broadcasts in the log of a voter. `Sends` lists what one move can broadcast and in which situation, and
`Move.sends` says that nothing else appears in the log.
-/

namespace GoWanchain.Istanbul

open Core

variable {P : Primitives} {B : Backend} {v₀ : Voter} {inp : Option (Message × Validator)} {v v' : Voter}

/-! ### One broadcast -/

structure Message.SignedBy (P : Primitives) (a : Address) (m : Message) : Prop where
  address : m.address = a
  signature : m.signature = P.sign a (m.payloadNoSig P)

theorem Backend.sign_eq_some {a : Address} {data sig : Bytes} (h : B.sign P a data = some sig) :
    sig = P.sign a data := by
  unfold Backend.sign at h
  split_ifs at h
  exact (Option.some.inj h).symm

namespace Voter

/-- The seal that `finalizeMessage` puts on a COMMIT. -/
def currentSeal (P : Primitives) (v : Voter) : Bytes :=
  match v.current.proposal with
  | some p => P.sign v.address (prepareCommittedSeal (P.hash p))
  | none => []

variable {code : UInt64} {msg : Bytes} {w : View} {sub : Subject}

theorem finalizeMessage_eq_some {m : Message} (h : v.finalizeMessage P B code msg = some m) :
    m.SignedBy P v.address ∧ m.code = code ∧ m.msg = msg ∧ (code = msgCommit → m.committedSeal = v.currentSeal P) := by
  unfold finalizeMessage at h
  cases hproof : v.proofOfConsensus P B code with
  | none => simp [hproof] at h
  | some =>
    rw [hproof] at h
    obtain ⟨signature, hsign, rfl⟩ := Option.map_eq_some_iff.mp h
    refine ⟨⟨rfl, ?_⟩, rfl, rfl, ?_⟩
    · exact (Backend.sign_eq_some hsign)
    · intro hcode
      rw [proofOfConsensus, if_pos hcode] at hproof
      unfold currentSeal
      cases hp : v.current.proposal with
      | none => simpa [hp, eq_comm] using hproof
      | some =>
        rw [hp] at hproof
        exact Backend.sign_eq_some hproof

@[simp] theorem broadcast_current (code : UInt64) (msg : Bytes) : (v.broadcast P B code msg).current = v.current := by
  unfold broadcast
  split <;> rfl

@[simp] theorem broadcast_currentView (code : UInt64) (msg : Bytes) :
    (v.broadcast P B code msg).currentView = v.currentView :=
  congrArg RoundState.view (broadcast_current code msg)

@[simp] theorem broadcast_state (code : UInt64) (msg : Bytes) : (v.broadcast P B code msg).state = v.state := by
  unfold broadcast
  split <;> rfl

@[simp] theorem broadcast_waiting (code : UInt64) (msg : Bytes) :
    (v.broadcast P B code msg).waitingForRoundChange = v.waitingForRoundChange := by
  unfold broadcast
  split <;> rfl

@[simp] theorem broadcast_valSet (code : UInt64) (msg : Bytes) : (v.broadcast P B code msg).valSet = v.valSet := by
  unfold broadcast
  split <;> rfl

@[simp] theorem broadcast_address (code : UInt64) (msg : Bytes) : (v.broadcast P B code msg).address = v.address := by
  unfold broadcast
  split <;> rfl

@[simp] theorem broadcast_roundChangeSet (code : UInt64) (msg : Bytes) :
    (v.broadcast P B code msg).roundChangeSet = v.roundChangeSet := by
  unfold broadcast
  split <;> rfl

theorem mem_log_broadcast {e : Effect} : (w, e) ∈ (v.broadcast P B code msg).log ↔ (w, e) ∈ v.log ∨
        ∃ m, v.finalizeMessage P B code msg = some m ∧ w = v.currentView ∧ e = .broadcast m := by
  unfold broadcast
  cases v.finalizeMessage P B code msg with
  | none => simp
  | some => simp [emit]

theorem broadcast_cases {m : Message} (hm : (w, Effect.broadcast m) ∈ (v.broadcast P B code msg).log) :
    (w, Effect.broadcast m) ∈ v.log ∨ (w = v.currentView ∧ m.SignedBy P v.address ∧ m.code = code ∧ m.msg = msg
        ∧ (code = msgCommit → m.committedSeal = v.currentSeal P)) := by
  rcases mem_log_broadcast.mp hm with hold | ⟨m', hfin, hw, he⟩
  · exact .inl hold
  · obtain rfl : m = m' := Effect.broadcast.inj he
    exact .inr ⟨hw, finalizeMessage_eq_some hfin⟩

theorem mem_log_emit {e e' : Effect} : (w, e) ∈ (v.emit e').log ↔ (w, e) ∈ v.log ∨ w = v.currentView ∧ e = e' := by
  simp [emit]

theorem currentSeal_of_subject (h : v.current.subject P = some sub) :
    v.currentSeal P = P.sign v.address (prepareCommittedSeal sub.digest) := by
  obtain ⟨pp, hpp, rfl⟩ := RoundState.subject_eq_some.mp h
  simp [currentSeal, RoundState.proposal, hpp]

/-- The voter accepted a proposal in its view, votes on `sub` and is at least in the state `least`. -/
structure VotesOn (P : Primitives) (v : Voter) (least : State) (sub : Subject) : Prop where
  state : least.toNat ≤ v.state.toNat
  waiting : v.waitingForRoundChange = false
  subject : v.current.subject P = some sub

theorem VotesOn.view_eq {least : State} (h : v.VotesOn P least sub) : sub.view = v.currentView := by
  obtain ⟨pp, -, rfl⟩ := RoundState.subject_eq_some.mp h.subject
  rfl

theorem VotesOn.eq {least least' : State} {sub' : Subject} (h : v.VotesOn P least sub)
    (h' : v.VotesOn P least' sub') : sub = sub' :=
  Option.some.inj (h.subject.symm.trans h'.subject)

end Voter

/-! ### What one move can broadcast -/

/-- What the move from `v` to `v'` can broadcast. -/
inductive Sends (P : Primitives) (B : Backend) (v₀ : Voter) (inp : Option (Message × Validator))
    (v v' : Voter) (m : Message) : Prop
  | preprepare (p : Block) (hcode : m.code = msgPreprepare) (hmsg : m.msg = P.encodePreprepare ⟨v'.currentView, p⟩)
      (hnumber : v'.current.sequence = p.number)
  | prepare (sub : Subject) (hcode : m.code = msgPrepare) (hmsg : m.msg = P.encodeSubject sub)
      (hstate : v.state = .acceptRequest) (hview : v'.currentView = v.currentView)
      (hlock : v.current.isHashLocked (B.hasBadProposal .handlePreprepare) = false)
      (hvotes : v'.VotesOn P .preprepared sub)
  | commit (sub : Subject) (hcode : m.code = msgCommit) (hmsg : m.msg = P.encodeSubject sub)
      (hseal : m.committedSeal = P.sign v.address (prepareCommittedSeal sub.digest))
      (hstate : v.state = .acceptRequest ∨ v.state = .preprepared)
      (hview : v'.currentView = v.currentView) (hlocked : v'.current.lockedHash = sub.digest)
      (hvotes : v'.VotesOn P .prepared sub)
  | oldCommit (hgiven : v = v₀) (msg : Message) (src : Validator) (pp : Preprepare) (hcode : m.code = msgCommit)
      (hmsg : m.msg = P.encodeSubject ⟨pp.view, P.hash pp.proposal⟩)
      (hseal : m.committedSeal = v.currentSeal P)
      (hinp : inp = some (msg, src)) (hpp : msg.code = msgPreprepare)
      (hdec : P.decodePreprepare msg.msg = some pp) (hold : pp.view < v.currentView)
      (hanswer : answersOld P B pp src = true) (hview : v'.currentView = v.currentView)
  | roundChange (hcode : m.code = msgRoundChange) (hmsg : m.msg = P.encodeSubject ⟨v'.currentView, 0⟩)

variable {w : View} {sub : Subject}

/-- A broadcast in the log after a move is an old one, or it is one of `Sends`, stamped with the view
that the move ends in. -/
theorem Move.sends (h : Move P B v₀ inp v v') {m : Message} (hm : (w, Effect.broadcast m) ∈ v'.log) :
    (w, Effect.broadcast m) ∈ v.log ∨ w = v'.currentView ∧ m.SignedBy P v.address ∧ Sends P B v₀ inp v v' m := by
  cases h with
  | gossip | commit =>
    left
    simpa [Voter.mem_log_emit] using hm
  | request | addPrepare | addCommit | unlock | addRoundChange => exact .inl hm
  | propose p hnumber =>
    rcases Voter.broadcast_cases hm with hm | ⟨rfl, hsigned, hcode, hmsg, -⟩
    · exact .inl hm
    · exact .inr ⟨by simp, hsigned, .preprepare p hcode (by simpa using hmsg) (by simpa using hnumber)⟩
  | oldCommit hgiven msg src pp hinp hcode hdec hold hanswer =>
    rcases Voter.broadcast_cases hm with hm | ⟨rfl, hsigned, hmcode, hmsg, hseal⟩
    · exact .inl hm
    · exact .inr ⟨by simp, hsigned,
        .oldCommit hgiven msg src pp hmcode hmsg (hseal rfl) hinp hcode hdec hold hanswer (by simp)⟩
  | accept _ _ _ pp _ _ _ _ hwait hstate hlock =>
    have hsub : ({ v.acceptPreprepare pp with state := .preprepared } : Voter).current.subject P
        = some ⟨v.currentView, P.hash pp.proposal⟩ := rfl
    have hview' : ({ v.acceptPreprepare pp with state := .preprepared } : Voter).currentView = v.currentView := rfl
    rcases Voter.broadcast_cases hm with hm | ⟨rfl, hsigned, hmcode, hmsg, -⟩
    · exact .inl hm
    · refine .inr ⟨by simp, hsigned, .prepare _ hmcode hmsg hstate (by simpa using hview') hlock ?_⟩
      exact ⟨by simp, by simpa using hwait, by simpa using hsub⟩
  | acceptLocked _ _ _ pp _ _ _ _ hwait hstate _ hhash =>
    have hsub : ({ v.acceptPreprepare pp with state := .prepared } : Voter).current.subject P
        = some ⟨v.currentView, P.hash pp.proposal⟩ := rfl
    have hview' : ({ v.acceptPreprepare pp with state := .prepared } : Voter).currentView = v.currentView := rfl
    rcases Voter.broadcast_cases hm with hm | ⟨rfl, hsigned, hmcode, hmsg, hseal⟩
    · exact .inl hm
    · rw [Voter.currentSeal_of_subject hsub] at hseal
      refine .inr ⟨by simp, hsigned, .commit _ hmcode hmsg (hseal rfl) (.inl hstate)
        (by simpa using hview') (by simpa using hhash.symm) ?_⟩
      exact ⟨by simp, by simpa using hwait, by simpa using hsub⟩
  | lock sub hsub hwait hstate =>
    have hsub' : ({ v.lockHash P with state := .prepared } : Voter).current.subject P = some sub := by
      simpa [RoundState.subject, Voter.lockHash] using hsub
    rcases Voter.broadcast_cases hm with hm | ⟨rfl, hsigned, hmcode, hmsg, hseal⟩
    · exact .inl hm
    · rw [Voter.currentSeal_of_subject hsub'] at hseal
      obtain ⟨pp, hpp, rfl⟩ := RoundState.subject_eq_some.mp hsub
      refine .inr ⟨by simp, hsigned, .commit _ hmcode hmsg (hseal rfl) (.inr hstate)
        (by simp [Voter.currentView, Voter.lockHash]) ?_ ?_⟩
      · simpa using RoundState.lockHash_lockedHash hpp
      · exact ⟨by simp, by simpa using hwait, by simpa using hsub'⟩
  | catchUp r =>
    rcases Voter.broadcast_cases hm with hm | ⟨rfl, hsigned, hmcode, hmsg, -⟩
    · exact .inl hm
    · have hview : (v.catchUp B ⟨r, v.current.sequence⟩).currentView = ⟨r, v.current.sequence⟩ :=
        Voter.updateRoundState_view _ _ _
      exact .inr ⟨by simp, hsigned, .roundChange hmcode (by simpa [hview] using hmsg)⟩
  | newRound | newSequence =>
    left
    simpa [Voter.enter, Voter.mem_log_emit] using hm

/-! ### How the view and the log grow -/

theorem Voter.view_eq (v : Voter) : v.currentView = ⟨v.current.round, v.current.sequence⟩ := rfl

@[simp] theorem Voter.catchUp_currentView (v : Voter) (view : View) : (v.catchUp B view).currentView = view :=
  Voter.updateRoundState_view _ _ _

@[simp] theorem Voter.enter_currentView (v : Voter) (view : View) (rc : Bool) (lp : Address) :
    (v.enter B view rc lp).currentView = view :=
  Voter.updateRoundState_view _ _ _

section

variable (h : Move P B v₀ inp v v')

include h

/-- A move stays in the view, or enters a later one, or starts the round it was waiting for. In the
last two cases the voter has no proposal to vote on. -/
theorem Move.view_cases : (v'.currentView = v.currentView ∧ v'.waitingForRoundChange = v.waitingForRoundChange)
      ∨ (v.currentView < v'.currentView ∧ (v'.waitingForRoundChange = true ∨ v'.state = .acceptRequest))
      ∨ (v'.currentView = v.currentView ∧ v.waitingForRoundChange = true ∧ v'.state = .acceptRequest) := by
  cases h with
  | gossip | request | addPrepare | addCommit | unlock | addRoundChange => exact .inl ⟨rfl, rfl⟩
  | propose => exact .inl ⟨by simp, by simp⟩
  | oldCommit | accept | acceptLocked =>
    exact .inl ⟨Voter.broadcast_currentView _ _, Voter.broadcast_waiting _ _⟩
  | lock =>
    exact .inl ⟨by simp [Voter.currentView], by simp⟩
  | commit => exact .inl ⟨by simp [Voter.currentView], rfl⟩
  | catchUp _ hround =>
    refine .inr (.inl ⟨?_, .inl (by simp)⟩)
    rw [Voter.broadcast_currentView, Voter.catchUp_currentView, View.lt_iff]
    exact .inr ⟨rfl, hround⟩
  | newRound _ _ _ hround hwait =>
    rw [Voter.enter_currentView, View.lt_iff]
    rcases hround.lt_or_eq with hlt | heq
    · exact .inr (.inl ⟨.inr ⟨rfl, hlt⟩, .inr rfl⟩)
    · refine .inr (.inr ⟨?_, hwait.resolve_right (by omega), rfl⟩)
      rw [Voter.view_eq, heq]
  | newSequence hhead =>
    refine .inr (.inl ⟨?_, .inr rfl⟩)
    rw [Voter.enter_currentView, View.lt_iff]
    exact .inl (Nat.lt_succ_of_le hhead)

theorem Move.view_le : v.currentView ≤ v'.currentView := by
  rcases h.view_cases with ⟨heq, -⟩ | ⟨hlt, -⟩ | ⟨heq, -⟩
  · exact heq.ge
  · exact hlt.le
  · exact heq.ge

theorem Move.votesOn {least : State} (hpos : least ≠ .acceptRequest) (hv : v.VotesOn P least sub) :
    v'.VotesOn P least sub ∨ v.currentView < v'.currentView := by
  have hidle : v.state ≠ .acceptRequest := by
    intro hstate
    have hle := hv.state
    rw [hstate] at hle
    cases least <;> simp_all [State.toNat]
  obtain ⟨hstate, hwait, hsub⟩ := hv
  cases h with
  | gossip | request | addPrepare | addCommit | unlock | addRoundChange => exact .inl ⟨hstate, hwait, hsub⟩
  | propose | oldCommit => exact .inl ⟨by simpa using hstate, by simpa using hwait, by simpa using hsub⟩
  | accept _ _ _ _ _ _ _ _ _ hidle' | acceptLocked _ _ _ _ _ _ _ _ _ hidle' =>
    exact absurd hidle' hidle
  | lock _ _ _ hstate' =>
    refine .inl ⟨?_, by simpa using hwait, by simpa [RoundState.subject] using hsub⟩
    rw [hstate'] at hstate
    simpa using hstate.trans (by decide)
  | commit _ _ _ _ hstate' =>
    refine .inl ⟨?_, hwait, by simpa [RoundState.subject] using hsub⟩
    refine hstate.trans (show v.state.toNat ≤ State.committed.toNat from ?_)
    rcases hstate' with h | h <;> rw [h] <;> decide
  | catchUp _ hround =>
    right
    rw [Voter.broadcast_currentView, Voter.catchUp_currentView, View.lt_iff]
    exact .inr ⟨rfl, hround⟩
  | newRound _ _ _ _ hwait' =>
    right
    rw [Voter.enter_currentView, View.lt_iff]
    exact .inr ⟨rfl, hwait'.resolve_left (by simp [hwait])⟩
  | newSequence hhead =>
    right
    rw [Voter.enter_currentView, View.lt_iff]
    exact .inl (Nat.lt_succ_of_le hhead)

/-- The validators change only with the sequence, to those on top of the head of the chain. -/
theorem Move.valSet_cases : (v'.valSet.addresses = v.valSet.addresses ∧ v'.current.sequence = v.current.sequence)
      ∨ (v.current.sequence < v'.current.sequence ∧ ∃ head, head.number + 1 = v'.current.sequence
        ∧ v'.valSet.addresses = (B.validators head).addresses) := by
  have hsequence : ∀ (view : View) (rc : Bool) (u : Voter),
      (u.updateRoundState B view rc).current.sequence = view.sequence :=
    fun view rc u => congrArg View.sequence (Voter.updateRoundState_view u view rc)
  cases h with
  | gossip | request | addPrepare | addCommit | unlock | addRoundChange => exact .inl ⟨rfl, rfl⟩
  | propose | oldCommit | accept | acceptLocked | lock => exact .inl ⟨by simp, by simp⟩
  | commit => exact .inl ⟨rfl, by simp⟩
  | catchUp => exact .inl ⟨by simp, by simpa using hsequence _ _ _⟩
  | newRound => exact .inl ⟨by simp, hsequence _ _ _⟩
  | newSequence hhead =>
    refine .inr ⟨?_, (B.lastProposal .startNewRound).1, ?_, rfl⟩
    · rw [Voter.enter_current, hsequence]
      exact Nat.lt_succ_of_le hhead
    · rw [Voter.enter_current, hsequence]

theorem Move.address_eq : v'.address = v.address := by
  cases h <;> first | rfl | exact Voter.broadcast_address _ _

end

/-- The situation in which `v` hands the block `p` to `backend.Commit`. -/
structure Voter.Commits (v v₀ : Voter) (p : Block) (seals : List Bytes) : Prop where
  valSet : v.valSet = v₀.valSet
  seals_eq : seals = v.committedSeals
  waiting : v.waitingForRoundChange = false
  state : v.state ≠ .acceptRequest
  quorum : 2 * v.valSet.F < (v.current.commits.size : ℤ)
  proposal : ∃ pp, v.current.preprepare = some pp ∧ p = pp.proposal

/-- What a move from `v` may add to the log: entries stamped with the view it ends in, and a commit
only where `v` has the votes for it. -/
def Voter.Adds (v v₀ v' : Voter) (e : View × Effect) : Prop :=
  e.1 = v'.currentView ∧ ∀ p seals, e.2 = .commit p seals → v'.currentView = v.currentView ∧ v.Commits v₀ p seals

theorem Voter.broadcast_append (u : Voter) (code : UInt64) (msg : Bytes) :
    ∃ es, (u.broadcast P B code msg).log = u.log ++ es ∧ ∀ e ∈ es, v.Adds v₀ (u.broadcast P B code msg) e := by
  unfold Voter.broadcast
  split
  · refine ⟨[(u.currentView, .broadcast _)], rfl, fun e he => ?_⟩
    obtain rfl := List.mem_singleton.mp he
    exact ⟨rfl, fun p seals heq => absurd heq (by simp)⟩
  · exact ⟨[], by simp, fun e he => absurd he (by simp)⟩

section

variable (h : Move P B v₀ inp v v')

include h

theorem Move.log_append : ∃ es, v'.log = v.log ++ es ∧ ∀ e ∈ es, v.Adds v₀ v' e := by
  have hsame : v'.log = v.log → ∃ es, v'.log = v.log ++ es ∧ ∀ e ∈ es, v.Adds v₀ v' e :=
    fun hlog => ⟨[], by simpa using hlog, fun e he => absurd he (by simp)⟩
  cases h with
  | gossip =>
    refine ⟨_, rfl, fun e he => ?_⟩
    obtain rfl := List.mem_singleton.mp he
    exact ⟨rfl, fun p seals heq => absurd heq (by simp)⟩
  | request | addPrepare | addCommit | unlock | addRoundChange => exact hsame rfl
  | propose | oldCommit | accept | acceptLocked | lock | catchUp => exact Voter.broadcast_append _ _ _
  | commit hvalSet pp hpp hwait hstate hquorum =>
    refine ⟨_, rfl, fun e he => ?_⟩
    obtain rfl := List.mem_singleton.mp he
    refine ⟨rfl, fun p seals heq => ⟨by simp [Voter.currentView], ?_⟩⟩
    obtain ⟨rfl, rfl⟩ := Effect.commit.inj heq
    refine ⟨hvalSet, rfl, hwait, ?_, hquorum, pp, hpp, rfl⟩
    rcases hstate with hstate | hstate <;> rw [hstate] <;> decide
  | newRound | newSequence =>
    refine ⟨_, rfl, fun e he => ?_⟩
    obtain rfl := List.mem_singleton.mp he
    exact ⟨(Voter.enter_currentView _ _ _ _).symm, fun p seals heq => absurd heq (by simp)⟩

theorem Move.mem_log {e : Effect} (he : (w, e) ∈ v'.log) : (w, e) ∈ v.log ∨ w = v'.currentView := by
  obtain ⟨es, hlog, hadds⟩ := h.log_append
  rw [hlog] at he
  exact (List.mem_append.mp he).imp id fun hmem => (hadds _ hmem).1

theorem Move.log_mono {e : Effect} (he : (w, e) ∈ v.log) : (w, e) ∈ v'.log := by
  obtain ⟨es, hlog, -⟩ := h.log_append
  rw [hlog]
  exact List.mem_append_left es he

/-- A block that a move hands to `backend.Commit` is the current proposal, and more than `2F` COMMITs
for it are held. -/
theorem Move.commits {p : Block} {seals : List Bytes} (he : (w, Effect.commit p seals) ∈ v'.log) :
    (w, Effect.commit p seals) ∈ v.log ∨ (w = v.currentView ∧ v.Commits v₀ p seals) := by
  obtain ⟨es, hlog, hadds⟩ := h.log_append
  rw [hlog] at he
  rcases List.mem_append.mp he with hold | hnew
  · exact .inl hold
  · obtain ⟨hw, hcommits⟩ := hadds _ hnew
    obtain ⟨hview, hcommits⟩ := hcommits p seals rfl
    exact .inr ⟨hw.trans hview, hcommits⟩

end

/-! ### PREPAREs and COMMITs -/

/-- The voter broadcast a message of this code about `sub` while it was in view `w`. -/
def Voter.Sent (P : Primitives) (v : Voter) (code : UInt64) (w : View) (sub : Subject) : Prop :=
  ∃ m, (w, Effect.broadcast m) ∈ v.log ∧ m.code = code ∧ P.decodeSubject m.msg = some sub

theorem Voter.sent_iff {code : UInt64} : v.Sent P code w sub ↔ (w, sub) ∈ v.log.filterMap fun e =>
      match e.2 with
      | .broadcast m => if m.code = code then (P.decodeSubject m.msg).map (e.1, ·) else none
      | _ => none := by
  rw [List.mem_filterMap]
  constructor
  · rintro ⟨m, hm, hcode, hdec⟩
    exact ⟨_, hm, by simp [hcode, hdec]⟩
  · rintro ⟨⟨w', e⟩, hm, he⟩
    cases e with
    | broadcast m =>
      dsimp only at he
      split_ifs at he with hcode
      obtain ⟨sub', hdec, heq⟩ := Option.map_eq_some_iff.mp he
      cases heq
      exact ⟨m, hm, hcode, hdec⟩
    | gossip | commit | newRound => exact absurd he (by simp)

instance (code : UInt64) (w : View) (sub : Subject) : Decidable (v.Sent P code w sub) :=
  decidable_of_iff _ Voter.sent_iff.symm

theorem Voter.not_sent (hlog : ∀ w m, (w, Effect.broadcast m) ∉ v.log) {code : UInt64} : ¬ v.Sent P code w sub :=
  fun ⟨m, hm, _⟩ => hlog w m hm

theorem Move.sent_prepare (h : Move P B v₀ inp v v') (hs : v'.Sent P msgPrepare w sub) :
    v.Sent P msgPrepare w sub ∨ (w = v'.currentView ∧ v'.currentView = v.currentView ∧ v.state = .acceptRequest
        ∧ v.current.isHashLocked (B.hasBadProposal .handlePreprepare) = false
        ∧ v'.VotesOn P .preprepared sub) := by
  obtain ⟨m, hm, hcode, hdec⟩ := hs
  rcases h.sends hm with hold | ⟨hw, -, hsends⟩
  · exact .inl ⟨m, hold, hcode, hdec⟩
  · cases hsends with
    | prepare _ _ hmsg hstate hview hlock hvotes =>
      rw [hmsg, P.decode_encodeSubject] at hdec
      cases hdec
      exact .inr ⟨hw, hview, hstate, hlock, hvotes⟩
    | preprepare _ hcode' | commit _ hcode' | oldCommit _ _ _ _ hcode' | roundChange hcode' =>
      exact absurd (hcode.symm.trans hcode') (by decide)

/-- A new COMMIT is the first of its view, or it answers an old PRE-PREPARE. -/
theorem Move.sent_commit (h : Move P B v₀ inp v v') (hs : v'.Sent P msgCommit w sub) :
    v.Sent P msgCommit w sub ∨ (w = v'.currentView ∧ v'.currentView = v.currentView
        ∧ (v.state = .acceptRequest ∨ v.state = .preprepared)
        ∧ v'.current.lockedHash = sub.digest ∧ v'.VotesOn P .prepared sub)
      ∨ (w = v'.currentView ∧ v'.currentView = v.currentView ∧ sub.view < v.currentView ∧ v = v₀
        ∧ ∃ msg src pp, inp = some (msg, src) ∧ msg.code = msgPreprepare
        ∧ P.decodePreprepare msg.msg = some pp ∧ sub = ⟨pp.view, P.hash pp.proposal⟩
        ∧ answersOld P B pp src = true) := by
  obtain ⟨m, hm, hcode, hdec⟩ := hs
  rcases h.sends hm with hold | ⟨hw, -, hsends⟩
  · exact .inl ⟨m, hold, hcode, hdec⟩
  · cases hsends with
    | commit _ _ hmsg _ hstate hview hlocked hvotes =>
      rw [hmsg, P.decode_encodeSubject] at hdec
      cases hdec
      exact .inr (.inl ⟨hw, hview, hstate, hlocked, hvotes⟩)
    | oldCommit hgiven msg src pp _ hmsg _ hinp hpp hdec' hold hanswer hview =>
      rw [hmsg, P.decode_encodeSubject] at hdec
      cases hdec
      exact .inr (.inr ⟨hw, hview, hold, hgiven, msg, src, pp, hinp, hpp, hdec', rfl, hanswer⟩)
    | preprepare _ hcode' | prepare _ hcode' | roundChange hcode' =>
      exact absurd (hcode.symm.trans hcode') (by decide)

/-- What the log says about the past of a voter. A COMMIT that is about the view it was sent in comes
from `sendCommit`; one that is about an earlier view answers an old PRE-PREPARE. -/
structure Voter.History (P : Primitives) (v : Voter) : Prop where
  stamp_le : ∀ {w e}, (w, e) ∈ v.log → w ≤ v.currentView
  prepare_view : ∀ {w sub}, v.Sent P msgPrepare w sub → sub.view = w
  prepare_current : ∀ {w sub}, v.Sent P msgPrepare w sub → w = v.currentView → v.VotesOn P .preprepared sub
  prepare_unique : ∀ {w w' sub sub'}, v.Sent P msgPrepare w sub → v.Sent P msgPrepare w' sub' →
    sub.view = sub'.view → sub = sub'
  commit_view : ∀ {w sub}, v.Sent P msgCommit w sub → sub.view ≤ w
  commit_current : ∀ {w sub}, v.Sent P msgCommit w sub → sub.view = w → w = v.currentView → v.VotesOn P .prepared sub
  commit_unique : ∀ {w sub sub'}, v.Sent P msgCommit w sub → v.Sent P msgCommit w sub' →
    sub.view = w → sub'.view = w → sub = sub'

namespace Voter.History

variable (H : v.History P) (h : Move P B v₀ inp v v')

include H h

variable {w : View} {sub : Subject}

theorem view_eq_of_current {code : UInt64} (hs : v.Sent P code w sub)
    (hw : w = v'.currentView) : w = v.currentView ∧ ¬ v.currentView < v'.currentView := by
  obtain ⟨m, hm, -⟩ := hs
  have hle := H.stamp_le hm
  have hmono := h.view_le
  rw [← hw] at hmono
  exact ⟨le_antisymm hle hmono, fun hlt => absurd (hw ▸ hlt) hle.not_gt⟩

theorem prepare_current_move (hs : v'.Sent P msgPrepare w sub)
    (hw : w = v'.currentView) : v'.VotesOn P .preprepared sub := by
  rcases h.sent_prepare hs with hold | ⟨-, -, -, -, hvotes⟩
  · obtain ⟨hw', hnot⟩ := H.view_eq_of_current h hold hw
    exact (h.votesOn (by decide) (H.prepare_current hold hw')).resolve_right hnot
  · exact hvotes

theorem commit_current_move (hs : v'.Sent P msgCommit w sub)
    (hsub : sub.view = w) (hw : w = v'.currentView) : v'.VotesOn P .prepared sub := by
  rcases h.sent_commit hs with hold | ⟨-, -, -, -, hvotes⟩ | ⟨-, heq, hlt, -⟩
  · obtain ⟨hw', hnot⟩ := H.view_eq_of_current h hold hw
    exact (h.votesOn (by decide) (H.commit_current hold hsub hw')).resolve_right hnot
  · exact hvotes
  · exact absurd (hsub.trans (hw.trans heq)) hlt.ne

theorem prepare_unique_move {w' : View} {sub' : Subject} (hs : v'.Sent P msgPrepare w sub)
    (hs' : v'.Sent P msgPrepare w' sub') (hview : sub.view = sub'.view) : sub = sub' := by
  have hnew : ∀ {w sub sub'}, v.Sent P msgPrepare w sub → v.state = .acceptRequest →
      v'.VotesOn P .preprepared sub' → v'.currentView = v.currentView → sub.view = sub'.view →
      False := by
    intro w sub sub' hold hstate hvotes heq hview
    have hw : w = v.currentView := by
      rw [← H.prepare_view hold, hview, hvotes.view_eq, heq]
    have hle := (H.prepare_current hold hw).state
    rw [hstate] at hle
    exact absurd hle (by decide)
  rcases h.sent_prepare hs with hold | ⟨-, heq, hstate, -, hvotes⟩
  · rcases h.sent_prepare hs' with hold' | ⟨-, heq, hstate, -, hvotes⟩
    · exact H.prepare_unique hold hold' hview
    · exact (hnew hold hstate hvotes heq hview).elim
  · rcases h.sent_prepare hs' with hold' | ⟨-, -, -, -, hvotes'⟩
    · exact (hnew hold' hstate hvotes heq hview.symm).elim
    · exact hvotes.eq hvotes'

theorem commit_unique_move {sub' : Subject} (hs : v'.Sent P msgCommit w sub)
    (hs' : v'.Sent P msgCommit w sub') (hview : sub.view = w) (hview' : sub'.view = w) : sub = sub' := by
  have hnew : ∀ {sub}, v.Sent P msgCommit w sub → sub.view = w → w = v'.currentView →
      v'.currentView = v.currentView → (v.state = .acceptRequest ∨ v.state = .preprepared) →
      False := by
    intro sub hold hview hw heq hstate
    have hle := (H.commit_current hold hview (hw.trans heq)).state
    rcases hstate with hstate | hstate <;> rw [hstate] at hle <;> exact absurd hle (by decide)
  rcases h.sent_commit hs with hold | ⟨hw, heq, hstate, -, hvotes⟩ | ⟨hw, heq, hlt, -⟩
  · rcases h.sent_commit hs' with hold' | ⟨hw, heq, hstate, -, -⟩ | ⟨hw, heq, hlt, -⟩
    · exact H.commit_unique hold hold' hview hview'
    · exact (hnew hold hview hw heq hstate).elim
    · exact absurd (hview'.trans (hw.trans heq)) hlt.ne
  · rcases h.sent_commit hs' with hold' | ⟨-, -, -, -, hvotes'⟩ | ⟨-, -, hlt, -⟩
    · exact (hnew hold' hview' hw heq hstate).elim
    · exact hvotes.eq hvotes'
    · exact absurd (hview'.trans (hw.trans heq)) hlt.ne
  · exact absurd (hview.trans (hw.trans heq)) hlt.ne

theorem move : v'.History P where
  stamp_le he := by
    rcases h.mem_log he with hold | hw
    · exact (H.stamp_le hold).trans h.view_le
    · exact hw.le
  prepare_view hs := by
    rcases h.sent_prepare hs with hold | ⟨hw, -, -, -, hvotes⟩
    · exact H.prepare_view hold
    · exact hvotes.view_eq.trans hw.symm
  prepare_current := H.prepare_current_move h
  prepare_unique := H.prepare_unique_move h
  commit_view hs := by
    rcases h.sent_commit hs with hold | ⟨hw, -, -, -, hvotes⟩ | ⟨hw, heq, hlt, -⟩
    · exact H.commit_view hold
    · exact (hvotes.view_eq.trans hw.symm).le
    · exact (hlt.trans_eq (hw.trans heq).symm).le
  commit_current := H.commit_current_move h
  commit_unique := H.commit_unique_move h

end Voter.History

end GoWanchain.Istanbul
