import GoWanchain.Istanbul.History
import GoWanchain.Lib.Run

/-!
# Runs of one core

A run feeds a started core with events, each with the answers its backend gives while the event is handled.
`run_history` and `run_invariant` carry what one move preserves to whole runs, under a condition `C` on
every event that may speak about the voter it is given to and about the message it dispatches.
-/

namespace GoWanchain.Istanbul

open Core List

abbrev Input := Backend × Event

def advance (P : Primitives) (c : Core) (x : Input) : Core := step P x.1 c x.2

variable {P : Primitives}

theorem start_moves (B : Backend) (a : Address) {v₀ : Voter} {inp : Option (Message × Validator)} :
    Moves P B v₀ inp (Core.new a).toVoter (Core.start P B a).toVoter :=
  .head (.newSequence (Core.new a).toVoter (Nat.zero_le _)) (enterView_toVoter_moves
      { Core.new a with valSet := B.validators (B.lastProposal .startNewRound).1 } _ _ _)

theorem start_log (P : Primitives) (B : Backend) (a : Address) :
    (start P B a).log = [((start P B a).currentView, .newRound)] := rfl

section Runs

variable {C : Backend → Voter → Option (Message × Validator) → Prop} {B₀ : Backend} {a : Address} {l : List Input}

/-- Every event of the run meets `C`. -/
abbrev Meets (P : Primitives) (C : Backend → Voter → Option (Message × Validator) → Prop) : Core → List Input → Prop :=
  Run.Along (advance P) fun c x => C x.1 c.toVoter (dispatch P c x.2)

/-- What holds of a new voter and is kept by every move along the run, for an invariant that may speak
about the inputs of the run. -/
theorem run_history {I : List Input → Voter → Prop} (hnew : I [] (Core.new a).toVoter)
    (hstart : ∀ v v', I [] v → Move P B₀ (Core.new a).toVoter none v v' → I [] v')
    (hext : ∀ l x v, I l v → I (l ++ [x]) v)
    (hmove : ∀ l x v v', C x.1 (Run.run (advance P) (start P B₀ a) l).toVoter
        (dispatch P (Run.run (advance P) (start P B₀ a) l) x.2) → I (l ++ [x]) v →
      Move P x.1 (Run.run (advance P) (start P B₀ a) l).toVoter
        (dispatch P (Run.run (advance P) (start P B₀ a) l) x.2) v v' → I (l ++ [x]) v')
    (h : Meets P C (start P B₀ a) l) : I l (Run.run (advance P) (start P B₀ a) l).toVoter := by
  refine Run.Along.history (I := fun l c => I l c.toVoter) ?_ ?_ h
  · exact Moves.invariant hstart (start_moves B₀ a) hnew
  · intro l x hI _ hx
    exact Moves.invariant (fun v v' => hmove l x v v' hx) (step_moves _ _) (hext l x _ hI)

theorem run_invariant {I : Voter → Prop} (hnew : I (Core.new a).toVoter) (hC : C B₀ (Core.new a).toVoter none)
    (hmove : ∀ B v₀ inp v v', C B v₀ inp → I v → Move P B v₀ inp v v' → I v')
    (h : Meets P C (start P B₀ a) l) : I (Run.run (advance P) (start P B₀ a) l).toVoter := by
  have hstart : I (start P B₀ a).toVoter :=
    Moves.invariant (fun v v' => hmove _ _ _ v v' hC) (start_moves B₀ a) hnew
  refine Run.Along.invariant (I := fun c : Core => I c.toVoter) (fun c x hI hx => ?_) h hstart
  exact Moves.invariant (fun v v' => hmove _ _ _ v v' hx) (step_moves _ _) hI

end Runs

theorem dispatch_cases {c : Core} {ev : Event} {msg : Message} {src : Validator}
    (h : dispatch P c ev = some (msg, src)) :
    (∃ payload i, ev = .message payload ∧ fromPayload P c.valSet payload = .ok msg
        ∧ c.valSet.getByAddress msg.address = some (i, src))
      ∨ ∃ i, ev = .posted i ∧ c.posted[i]? = some (.backlogEvent src msg) := by
  cases ev with
  | message payload =>
    simp only [dispatch] at h
    cases hmsg : fromPayload P c.valSet payload with
    | error => simp [hmsg] at h
    | ok =>
      rw [hmsg] at h
      obtain ⟨⟨i, s⟩, hs, heq⟩ := Option.map_eq_some_iff.mp h
      cases heq
      exact .inl ⟨payload, i, rfl, hmsg, hs⟩
  | posted i =>
    simp only [dispatch] at h
    cases hi : c.posted[i]? with
    | none => simp [hi] at h
    | some e =>
      cases e with
      | backlogEvent =>
        simp only [hi, Option.some.injEq, Prod.mk.injEq] at h
        obtain ⟨rfl, rfl⟩ := h
        exact .inr ⟨i, rfl, hi⟩
      | requestEvent => simp [hi] at h
  | request | futurePreprepare | timeout | finalCommitted => simp [dispatch] at h

/-! ### Messages that wait -/

namespace Core

/-- Every message that waits in the core satisfies `A`, with the sender it waits for. -/
structure Queued (A : Message → Validator → Prop) (c : Core) : Prop where
  backlogs : ∀ {src q}, c.backlogs.lookup src = some q → ∀ e ∈ q, A e.1 src
  posted : ∀ {src msg}, .backlogEvent src msg ∈ c.posted → A msg src
  timer : ∀ {src msg}, c.futurePreprepareTimer = some (src, msg) → A msg src

variable {B : Backend} {A : Message → Validator → Prop} {c : Core}

variable (P) in
/-- `checkMessage` of a message in a backlog: one without a view is invalid. -/
def checkStored (v : Voter) (msg : Message) : Option Err :=
  (viewOf P msg).elim (some .invalidMessage) (v.checkMessage msg.code)

/-- A backlog is processed until it is empty or the message that is popped is a future one. What is popped before that
is posted or skipped. -/
theorem drainBacklog_spec (v : Voter) (src : Validator) {n : ℕ} {q : List (Message × ℤ)} (hn : q.length ≤ n) :
    ∃ posted skipped, q.Perm ((drainBacklog P B v src n q).1 ++ (posted ++ skipped)) ∧
      (drainBacklog P B v src n q).2 = posted.map (fun e => .backlogEvent src e.1) ∧
      (∀ e ∈ skipped, checkStored P v e.1 ≠ none ∧ checkStored P v e.1 ≠ some .futureMessage) ∧
      ((drainBacklog P B v src n q).1 = [] ∨ ∃ q' e, q'[B.popMessage q' % q'.length]? = some e ∧
        (drainBacklog P B v src n q).1.Perm q' ∧ checkStored P v e.1 = some .futureMessage) := by
  induction n generalizing q with
  | zero =>
    rw [length_eq_zero_iff.mp (Nat.le_zero.mp hn)]
    exact ⟨[], [], .nil, rfl, by simp, .inl rfl⟩
  | succ n ih =>
    simp only [drainBacklog]
    generalize hi : B.popMessage q % q.length = i
    cases hq : q[i]? with
    | none =>
      have hnil : q = [] := by
        by_contra hne
        have hlt : i < q.length := hi ▸ Nat.mod_lt _ (length_pos_iff.mpr hne)
        exact absurd hlt (not_lt.mpr (getElem?_eq_none_iff.mp hq))
      rw [hnil]
      exact ⟨[], [], .nil, rfl, by simp, .inl rfl⟩
    | some e =>
      obtain ⟨msg, prio⟩ := e
      obtain ⟨hlt, heq⟩ := List.getElem?_eq_some_iff.mp hq
      have hpop : q.Perm ((msg, prio) :: q.eraseIdx i) := heq ▸ (getElem_cons_eraseIdx_perm hlt).symm
      have hlen : (q.eraseIdx i).length ≤ n := by
        rw [length_eraseIdx_of_lt hlt]
        omega
      obtain ⟨posted, skipped, hperm, hposted, hskipped, hend⟩ := ih hlen
      have hskip : q.Perm ((drainBacklog P B v src n (q.eraseIdx i)).1 ++ (posted ++ (msg, prio) :: skipped)) := by
        refine hpop.trans ((hperm.cons _).trans ?_)
        rw [← append_assoc, ← append_assoc]
        exact perm_middle.symm
      dsimp only
      split
      · rename_i hview
        refine ⟨posted, (msg, prio) :: skipped, hskip, hposted, forall_mem_cons.mpr ⟨?_, hskipped⟩, hend⟩
        simp [checkStored, hview]
      · rename_i view hview
        have hcheck : checkStored P v msg = v.checkMessage msg.code view := by rw [checkStored, hview]; rfl
        split
        · rename_i hfuture
          refine ⟨[], [], ?_, rfl, by simp, .inr ⟨q, (msg, prio), hi ▸ hq, ?_, hcheck.trans hfuture⟩⟩
          · rw [append_nil, append_nil]
            exact hpop.trans (perm_append_singleton _ _).symm
          · exact (perm_append_singleton _ _).trans hpop.symm
        · rename_i err hne herr
          refine ⟨posted, (msg, prio) :: skipped, hskip, hposted, forall_mem_cons.mpr ⟨?_, hskipped⟩, hend⟩
          rw [hcheck, herr]
          exact ⟨by simp, fun h => hne (Option.some.inj h)⟩
        · refine ⟨(msg, prio) :: posted, skipped, ?_, by rw [hposted]; rfl, hskipped, hend⟩
          exact hpop.trans ((hperm.cons _).trans perm_middle.symm)

theorem requestEvent_of_drainRequests (v : Voter) (n : ℕ) (q : List (Block × ℤ)) :
    ∀ ev ∈ (drainRequests B v n q).2, ∃ r, ev = .requestEvent r := by
  induction n generalizing q with
  | zero => exact fun ev hev => absurd hev (by simp [drainRequests])
  | succ _ ih =>
    simp only [drainRequests]
    intro ev hev
    split at hev
    · exact absurd hev (by simp)
    · split at hev
      · exact absurd hev (by simp)
      · exact ih _ ev hev
      · rcases mem_cons.mp hev with rfl | hev
        · exact ⟨_, rfl⟩
        · exact ih _ ev hev

namespace Queued

theorem new (a : Address) : (Core.new a).Queued A where
  backlogs h := by
    have hmem := GoMap.mem_of_lookup h
    exact absurd hmem (AList.notMem_empty _)
  posted h := absurd h (by simp [Core.new])
  timer h := absurd h (by simp [Core.new])

theorem mono {A' : Message → Validator → Prop} (h : c.Queued A) (hA : ∀ m src, A m src → A' m src) : c.Queued A' :=
  ⟨fun hq e he => hA _ _ (h.backlogs hq e he), fun hm => hA _ _ (h.posted hm), fun ht => hA _ _ (h.timer ht)⟩

section

variable (h : c.Queued A)

include h

theorem onVoter (f : Voter → Voter) : (c.onVoter f).Queued A :=
  ⟨h.backlogs, h.posted, h.timer⟩

variable {msg : Message} {src : Validator}

theorem storeBacklog (hA : A msg src) : (c.storeBacklog P msg src).Queued A := by
  unfold Core.storeBacklog
  split_ifs
  · exact h
  · refine ⟨fun {src' q} hq e he => ?_, h.posted, h.timer⟩
    have hold : ∀ e ∈ (c.backlogs.lookup src).getD [], A e.1 src := by
      intro e he
      cases hb : c.backlogs.lookup src with
      | none => exact absurd he (by simp [hb])
      | some => exact h.backlogs hb e (by simpa [hb] using he)
    rcases GoMap.lookup_insert_cases hq with ⟨rfl, rfl⟩ | ⟨-, hq'⟩
    · cases hview : viewOf P msg with
      | none => exact hold e (by simpa [hview] using he)
      | some =>
        simp only [hview, mem_append, mem_singleton] at he
        rcases he with he | rfl
        · exact hold e he
        · exact hA
    · exact h.backlogs hq' e he

theorem processBacklog : (c.processBacklog P B).Queued A where
  backlogs := by
    intro src q hq e he
    obtain ⟨q', hq', rfl⟩ := GoMap.lookup_mapValues.mp hq
    obtain ⟨posted, skipped, hperm, -⟩ := drainBacklog_spec c.toVoter src (le_refl q'.length)
    exact h.backlogs hq' e (hperm.mem_iff.mpr (mem_append_left _ he))
  posted := by
    intro src msg hmem
    rcases mem_append.mp hmem with hmem | hmem
    · exact h.posted hmem
    · obtain ⟨⟨src', q⟩, hq, hev⟩ := mem_flatMap.mp hmem
      obtain ⟨posted, skipped, hperm, hposted, -⟩ := drainBacklog_spec c.toVoter src' (le_refl q.length)
      rw [hposted] at hev
      obtain ⟨e, he, heq⟩ := mem_map.mp hev
      obtain ⟨rfl, rfl⟩ := InternalEvent.backlogEvent.inj heq
      exact h.backlogs (GoMap.mem_entries_iff.mp hq) e (hperm.mem_iff.mpr (by simp [he]))
  timer := h.timer

theorem processPendingRequests : (c.processPendingRequests B).Queued A where
  backlogs := h.backlogs
  posted := by
    intro src msg hmem
    rcases mem_append.mp hmem with hmem | hmem
    · exact h.posted hmem
    · obtain ⟨r, hr⟩ := requestEvent_of_drainRequests _ _ _ _ hmem
      exact absurd hr (by simp)
  timer := h.timer

theorem setState (s : State) : (c.setState P B s).Queued A := by
  have hs : ({ c with state := s } : Core).Queued A := ⟨h.backlogs, h.posted, h.timer⟩
  unfold Core.setState
  dsimp only
  split_ifs
  · exact hs.processPendingRequests.processBacklog
  · exact hs.processBacklog

theorem newRoundChangeTimer : c.newRoundChangeTimer.Queued A :=
  ⟨h.backlogs, h.posted, fun ht => absurd ht (by simp [Core.newRoundChangeTimer])⟩

theorem sendRoundChange (r : ℕ) : (c.sendRoundChange P B r).Queued A := by
  unfold Core.sendRoundChange
  split_ifs
  · exact h
  · refine onVoter (newRoundChangeTimer ?_) _
    exact ⟨h.backlogs, h.posted, h.timer⟩

theorem proposeAgain : (c.proposeAgain P B).Queued A := by
  unfold Core.proposeAgain
  split_ifs
  · split
    · exact h.onVoter _
    · exact h
  · split
    · exact h.onVoter _
    · exact h

theorem enterView (view : View) (rc : Bool) (lp : Address) : (c.enterView P B view rc lp).Queued A := by
  unfold Core.enterView
  refine newRoundChangeTimer ?_
  split_ifs
  · refine proposeAgain (onVoter (setState ?_ _) _)
    exact ⟨h.backlogs, h.posted, h.timer⟩
  · refine onVoter (setState ?_ _) _
    exact ⟨h.backlogs, h.posted, h.timer⟩

theorem startNewRound (r : ℕ) : (c.startNewRound P B r).Queued A := by
  unfold Core.startNewRound
  dsimp only
  split_ifs
  · exact enterView (c := { c with valSet := B.validators (B.lastProposal .startNewRound).1 })
      ⟨h.backlogs, h.posted, h.timer⟩ _ _ _
  · exact h
  · exact h
  · exact h.enterView _ _ _
  · exact h

theorem commit : (c.commit P B).Queued A := by
  unfold Core.commit
  dsimp only
  split
  · exact h.setState _
  · split_ifs
    · exact (((h.setState _).onVoter _).onVoter _).sendRoundChange _
    · exact (h.setState _).onVoter _

theorem handlePreprepare (hA : A msg src) : (c.handlePreprepare P B msg src).1.Queued A := by
  unfold Core.handlePreprepare
  split
  · exact h
  · rename_i pp _
    split
    · split_ifs
      · dsimp only
        exact h.onVoter _
      · exact h
      · exact h
    · by_cases hproposer : (!c.valSet.isProposer src.address) = true
      · rw [if_pos hproposer]
        exact h
      · rw [if_neg hproposer]
        cases B.verify pp.proposal
        case futureBlock =>
          refine ⟨h.backlogs, h.posted, fun ht => ?_⟩
          obtain ⟨rfl, rfl⟩ := Prod.mk.inj (Option.some.inj ht)
          exact hA
        case invalid => exact h.sendRoundChange _
        case ok =>
          dsimp only
          split_ifs
          · exact ((h.onVoter _).setState _).onVoter _
          · exact h.sendRoundChange _
          · exact ((h.onVoter _).setState _).onVoter _
          · exact h

theorem handlePrepare (msg : Message) : (c.handlePrepare P B msg).1.Queued A := by
  unfold Core.handlePrepare
  split
  · exact h
  · split
    · exact h
    · split
      · exact h
      · dsimp only
        split_ifs
        · exact (((h.onVoter _).onVoter _).setState _).onVoter _
        · exact ⟨h.backlogs, h.posted, h.timer⟩

theorem handleCommit (msg : Message) : (c.handleCommit P B msg).1.Queued A := by
  unfold Core.handleCommit
  split
  · exact h
  · split
    · exact h
    · split
      · exact h
      · dsimp only
        split_ifs
        · exact ((h.onVoter _).onVoter _).commit
        · exact ⟨h.backlogs, h.posted, h.timer⟩

theorem handleRoundChange (msg : Message) : (c.handleRoundChange P B msg).1.Queued A := by
  have hadd : ∀ rcs, ({ c with roundChangeSet := rcs } : Core).Queued A :=
    fun rcs => ⟨h.backlogs, h.posted, h.timer⟩
  unfold Core.handleRoundChange
  split
  · exact h
  · split
    · exact h
    · dsimp only
      split
      · exact hadd _
      · split_ifs
        · exact (hadd _).sendRoundChange _
        · exact hadd _
        · exact (hadd _).startNewRound _
        · exact hadd _
        · exact hadd _

end

theorem testBacklog {r : Core × Option Err} (h : r.1.Queued A)
    (hA : A msg src) : (testBacklog P msg src r).1.Queued A := by
  unfold Core.testBacklog
  split_ifs
  · exact h.storeBacklog hA
  · exact h

theorem handleCheckedMsg (h : c.Queued A) (hA : A msg src) : (c.handleCheckedMsg P B msg src).1.Queued A := by
  unfold Core.handleCheckedMsg
  split_ifs
  · exact (h.handlePreprepare hA).testBacklog hA
  · exact (h.handlePrepare msg).testBacklog hA
  · exact (h.handleCommit msg).testBacklog hA
  · exact (h.handleRoundChange msg).testBacklog hA
  · exact h

theorem gossipIfOk {payload : Bytes} {r : Core × Option Err} (h : r.1.Queued A) :
    (Core.gossipIfOk payload r).Queued A := by
  unfold Core.gossipIfOk
  split_ifs
  · exact h.onVoter _
  · exact h

theorem handleRequestEvent (h : c.Queued A) (request : Option Block) : (c.handleRequestEvent P B request).Queued A := by
  have hrequest : (c.handleRequest P B request).1.Queued A := by
    unfold Core.handleRequest
    split
    · exact h
    · split
      · exact h
      · dsimp only
        split_ifs
        · exact ⟨h.backlogs, h.posted, h.timer⟩
        · exact ⟨h.backlogs, h.posted, h.timer⟩
  unfold Core.handleRequestEvent
  dsimp only
  split
  · exact ⟨hrequest.backlogs, hrequest.posted, hrequest.timer⟩
  · exact hrequest

theorem handleTimeoutMsg (h : c.Queued A) : (c.handleTimeoutMsg P B).Queued A := by
  unfold Core.handleTimeoutMsg
  dsimp only
  split_ifs
  · split
    · split_ifs
      · exact h.sendRoundChange _
      · exact h.startNewRound _
    · exact h.startNewRound _
  · split
    · split_ifs
      · exact h.sendRoundChange _
      · exact h.sendRoundChange _
    · exact h.sendRoundChange _
  · exact h.startNewRound _
  · exact h.sendRoundChange _

end Queued

end Core

theorem queued_advance {A : Message → Validator → Prop} {c : Core} {x : Input} (h : c.Queued A)
    (hA : ∀ msg src, dispatch P c x.2 = some (msg, src) → A msg src) : (advance P c x).Queued A := by
  obtain ⟨B, ev⟩ := x
  cases ev with
  | request p => exact h.handleRequestEvent p
  | message payload =>
    refine Queued.gossipIfOk ?_
    simp only [dispatch] at hA
    unfold handleMsg
    cases hmsg : fromPayload P c.valSet payload with
    | error => exact h
    | ok msg =>
      dsimp only
      cases hsrc : c.valSet.getByAddress msg.address with
      | none => exact h
      | some s => exact h.handleCheckedMsg (hA msg s.2 (by simp [hmsg, hsrc]))
  | posted i =>
    have herase : ({ c with posted := c.posted.eraseIdx i } : Core).Queued A :=
      ⟨h.backlogs, fun hmem => h.posted (mem_of_mem_eraseIdx hmem), h.timer⟩
    simp only [advance, step]
    cases hi : c.posted[i]? with
    | none => exact h
    | some ev =>
      cases ev with
      | backlogEvent =>
        exact (herase.handleCheckedMsg (h.posted (mem_of_getElem? hi))).gossipIfOk
      | requestEvent => exact herase.handleRequestEvent _
  | futurePreprepare =>
    simp only [advance, step]
    cases ht : c.futurePreprepareTimer with
    | none => exact h
    | some e =>
      obtain ⟨src, msg⟩ := e
      refine ⟨h.backlogs, fun {src' msg'} hmem => ?_, fun ht' => absurd ht' (by simp)⟩
      rcases mem_append.mp hmem with hmem | hmem
      · exact h.posted hmem
      · obtain ⟨rfl, rfl⟩ := InternalEvent.backlogEvent.inj (mem_singleton.mp hmem)
        exact h.timer ht
  | timeout => exact h.handleTimeoutMsg
  | finalCommitted => exact h.startNewRound 0

theorem queued_start (A : Message → Validator → Prop) (B : Backend) (a : Address) : (Core.start P B a).Queued A := by
  have h := Queued.new (A := A) a
  exact Queued.enterView (c := { Core.new a with valSet := B.validators (B.lastProposal .startNewRound).1 })
    ⟨h.backlogs, h.posted, h.timer⟩ _ _ _

/-- If the events of a run let only messages with `A` in, then every message of the run that is
dispatched satisfies `A`. -/
theorem meets_of_fresh {A : Message → Validator → Prop} {Q : Core → Input → Prop} {B₀ : Backend}
    {a : Address} {l : List Input}
    (hfresh : ∀ c x payload m i src, Q c x → x.2 = .message payload →
      fromPayload P c.valSet payload = .ok m → c.valSet.getByAddress m.address = some (i, src) →
      A m src)
    (h : Run.Along (advance P) Q (start P B₀ a) l) :
    Meets P (fun _ _ inp => ∀ msg src, inp = some (msg, src) → A msg src) (start P B₀ a) l := by
  have hdispatch : ∀ c x, c.Queued A → Q c x → ∀ msg src, dispatch P c x.2 = some (msg, src) → A msg src := by
    intro c x hc hx msg src hmsg
    rcases dispatch_cases hmsg with ⟨payload, i, hev, hpayload, hsrc⟩ | ⟨i, -, hi⟩
    · exact hfresh c x payload msg i src hx hev hpayload hsrc
    · exact hc.posted (mem_of_getElem? hi)
  exact h.imp (fun c x hc hx => queued_advance hc (hdispatch c x hc hx)) hdispatch (queued_start A B₀ a)

end GoWanchain.Istanbul
