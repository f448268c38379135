import GoWanchain.Istanbul.Authenticity
import GoWanchain.Istanbul.Honest

/-!
# A network of cores

Every address runs a core; an input of the network is an event at one of them. Channels are authenticated:
what is delivered was broadcast by the core it names (`HonestStep`), at any time, in any order, any number
of times or never. The cores are compared at one sequence `s`, with `3 f + 1` validators on top of the
blocks of height `s - 1`.

Agreement rests on the COMMITs that `sendCommit` sent.
-/

namespace GoWanchain.Istanbul

open Core

/-- The cores, by address. -/
abbrev Net := Address → Core

/-- An input of one core. -/
abbrev NetInput := Address × Input

def netStep (P : Primitives) (net : Net) (x : NetInput) : Net :=
  Function.update net x.1 (advance P (net x.1) x.2)

def netStart (P : Primitives) (B₀ : Address → Backend) : Net := fun a => start P (B₀ a) a

/-- The core that the message names broadcast it. -/
def Known (net : Net) (m : Message) : Prop := ∃ w, (w, Effect.broadcast m) ∈ (net m.address).log

/-- Some core committed a block of this hash at sequence `s`. -/
def Committed (P : Primitives) (net : Net) (s : ℕ) (h : Hash) : Prop :=
  ∃ b w p seals, (w, Effect.commit p seals) ∈ (net b).log ∧ w.sequence = s ∧ P.hash p = h

/-- The validator `q` sent a COMMIT for `h` in a view of sequence `s` that it was in. -/
def CommitsTo (P : Primitives) (net : Net) (s : ℕ) (h : Hash) (q : Address) : Prop :=
  ∃ w sub, (net q).Sent P msgCommit w sub ∧ sub.view = w ∧ w.sequence = s ∧ sub.digest = h

/-- More than `2 f` validators sent such a COMMIT. -/
def Backed (P : Primitives) (net : Net) (s f : ℕ) (V : List Address) (h : Hash) : Prop :=
  ∃ Q ⊆ V.toFinset, 2 * f < Q.card ∧ ∀ q ∈ Q, CommitsTo P net s h q

/-- What the environment of the cores guarantees at one input: a reliable backend, authenticated
channels, and a block of height `s` is in a chain only after some core committed it. -/
structure HonestStep (P : Primitives) (s : ℕ) (V : List Address) (net : Net) (x : NetInput) :
    Prop extends x.2.1.Reliable s V where
  delivered : ∀ payload, x.2.2 = .message payload →
    ∃ b w m, (w, Effect.broadcast m) ∈ (net b).log ∧ payload = P.encodeMessage m
  chain : ∀ h, x.2.1.hasPropsal h s = true →
    ∃ b w p seals, (w, Effect.commit p seals) ∈ (net b).log ∧ p.number = s ∧ P.hash p = h

variable {P : Primitives} {net : Net} {x : NetInput} {s f : ℕ} {V : List Address}

/-! ### One input changes one core, and logs only grow -/

theorem netStep_self : netStep P net x x.1 = advance P (net x.1) x.2 := Function.update_self _ _ _

theorem netStep_of_ne {b : Address} (hb : b ≠ x.1) : netStep P net x b = net b :=
  Function.update_of_ne hb _ _

theorem netStep_log_mono {b : Address} {w : View} {e : Effect} (he : (w, e) ∈ (net b).log) :
    (w, e) ∈ (netStep P net x b).log := by
  by_cases hb : b = x.1
  · subst hb
    rw [netStep_self]
    exact Moves.invariant (fun v v' hv hmove => hmove.log_mono hv) (step_moves _ _) he
  · rw [netStep_of_ne hb]
    exact he

theorem known_mono {m : Message} (h : Known net m) : Known (netStep P net x) m := by
  obtain ⟨w, hm⟩ := h
  exact ⟨w, netStep_log_mono hm⟩

theorem committed_mono {h : Hash} (hc : Committed P net s h) : Committed P (netStep P net x) s h := by
  obtain ⟨b, w, p, seals, he, hw, hp⟩ := hc
  exact ⟨b, w, p, seals, netStep_log_mono he, hw, hp⟩

theorem sent_mono {b : Address} {code : UInt64} {w : View} {sub : Subject}
    (h : (net b).Sent P code w sub) : (netStep P net x b).Sent P code w sub := by
  obtain ⟨m, hm, hcode, hdec⟩ := h
  exact ⟨m, netStep_log_mono hm, hcode, hdec⟩

theorem commitsTo_mono {h : Hash} {q : Address} (hq : CommitsTo P net s h q) : CommitsTo P (netStep P net x) s h q := by
  obtain ⟨w, sub, hsent, hview, hsequence, hdigest⟩ := hq
  exact ⟨w, sub, sent_mono hsent, hview, hsequence, hdigest⟩

theorem backed_mono {h : Hash} (hb : Backed P net s f V h) : Backed P (netStep P net x) s f V h := by
  obtain ⟨Q, hQ, hcard, hall⟩ := hb
  exact ⟨Q, hQ, hcard, fun q hq => commitsTo_mono (hall q hq)⟩

/-! ### The invariant -/

structure NetInv (P : Primitives) (s f : ℕ) (V : List Address) (net : Net) : Prop where
  honest : ∀ a, (net a).toVoter.Honest P s V a
  tallies : ∀ a, (net a).toVoter.Tallies P (Known net)
  queued : ∀ a, (net a).Queued fun m _ => Known net m
  oldCommits : ∀ {a w sub}, (net a).Sent P msgCommit w sub → sub.view ≠ w → sub.view.sequence = s →
    Committed P net s sub.digest
  backed : ∀ {h}, Committed P net s h → Backed P net s f V h

namespace NetInv

variable (I : NetInv P s f V net) (hx : HonestStep P s V net x)

include I hx

theorem known_of_dispatch {msg : Message} {src : Validator}
    (h : dispatch P (net x.1) x.2.2 = some (msg, src)) : Known net msg := by
  rcases dispatch_cases h with ⟨payload, i, hev, hmsg, -⟩ | ⟨i, -, hi⟩
  · obtain ⟨b, w, m, hm, rfl⟩ := hx.delivered payload hev
    have hdec := (fromPayload_eq_ok hmsg).1
    rw [P.decode_encodeMessage] at hdec
    cases hdec
    refine ⟨w, ?_⟩
    rw [((I.honest b).signed hm).address]
    exact hm
  · exact (I.queued x.1).posted (List.mem_of_getElem? hi)

theorem calm : Calm P s V x.2.1 (dispatch P (net x.1) x.2.2) where
  toReliable := hx.toReliable
  heights hinp hcode hdec := by
    obtain ⟨w, hm⟩ := I.known_of_dispatch hx hinp
    exact (I.honest _).preprepares hm hcode hdec

theorem committed_of_answersOld {msg : Message} {src : Validator} {pp : Preprepare}
    (hinp : dispatch P (net x.1) x.2.2 = some (msg, src)) (hcode : msg.code = msgPreprepare)
    (hdec : P.decodePreprepare msg.msg = some pp) (hanswer : answersOld P x.2.1 pp src = true)
    (hs : pp.view.sequence = s) : Committed P net s (P.hash pp.proposal) := by
  have hheight := (I.calm hx).heights hinp hcode hdec
  rw [answersOld, Bool.and_eq_true] at hanswer
  have hfound := hanswer.2
  rw [hheight, hs] at hfound
  obtain ⟨b, w, p, seals, hlog, hnumber, hhash⟩ := hx.chain _ hfound
  exact ⟨b, w, p, seals, hlog, ((I.honest b).heights.commits hlog).symm.trans hnumber, hhash⟩

omit hx in
/-- The block that a core commits is backed by the COMMITs it holds, unless one of them answered an old
PRE-PREPARE; then it had been committed before. -/
theorem backed_of_commits (hV : V.length = 3 * f + 1) {a : Address} {v v₀ : Voter} {p : Block}
    {seals : List Bytes} (H : v.Honest P s V a) (T : v.Tallies P (Known net))
    (hc : v.Commits v₀ p seals) (hs : v.current.sequence = s) : Backed P net s f V (P.hash p) := by
  obtain ⟨pp, hpp, rfl⟩ := hc.proposal
  have haddrs := H.validators hs
  have hF : v.valSet.F = f := ValidatorSet.F_of_addresses (haddrs ▸ hV)
  -- every COMMIT that is held was sent by the core it is counted under
  have hsent : ∀ q ∈ v.current.commits.senders,
      ∃ w, (net q).Sent P msgCommit w ⟨v.currentView, P.hash pp.proposal⟩ := by
    intro q hq
    obtain ⟨m, hm⟩ := MessageSet.mem_senders.mp hq
    obtain ⟨rfl, -, ⟨hcode, hdec⟩, w, hlog⟩ := T.commits.mem hm
    refine ⟨w, m, hlog, hcode, ?_⟩
    rw [hdec]
    exact RoundState.subject_eq_some.mpr ⟨pp, hpp, rfl⟩
  by_cases hall : ∀ q ∈ v.current.commits.senders, CommitsTo P net s (P.hash pp.proposal) q
  · refine ⟨v.current.commits.senders, haddrs ▸ T.commits.senders_subset, ?_, hall⟩
    have hquorum := hc.quorum
    rw [MessageSet.card_senders]
    omega
  · push Not at hall
    obtain ⟨q, hq, hnot⟩ := hall
    obtain ⟨w, hw⟩ := hsent q hq
    refine I.backed (I.oldCommits hw (fun heq => hnot ⟨w, _, hw, heq, ?_, rfl⟩) hs)
    rw [← heq]
    exact hs

/-- What one core keeps to while it handles an event in the network `net`. -/
structure Acts (P : Primitives) (s f : ℕ) (V : List Address) (net : Net) (a : Address) (v : Voter) : Prop where
  honest : v.Honest P s V a
  tallies : v.Tallies P (Known net)
  oldCommits : ∀ {w sub}, v.Sent P msgCommit w sub → sub.view ≠ w → sub.view.sequence = s → Committed P net s sub.digest
  backed : ∀ {w p seals}, (w, Effect.commit p seals) ∈ v.log → w.sequence = s → Backed P net s f V (P.hash p)

theorem acts_move (hV : V.length = 3 * f + 1) {v₀ v v' : Voter} (H : Acts P s f V net x.1 v)
    (h : Move P x.2.1 v₀ (dispatch P (net x.1) x.2.2) v v') : Acts P s f V net x.1 v' where
  honest := H.honest.move (I.calm hx) h
  tallies := H.tallies.move (fun msg src hinp _ => I.known_of_dispatch hx hinp) h
  oldCommits := by
    intro w sub hsent hne hs
    rcases h.sent_commit hsent with hold | ⟨hw, -, -, -, hvotes⟩ | ⟨-, -, -, -, hanswer⟩
    · exact H.oldCommits hold hne hs
    · exact absurd (hvotes.view_eq.trans hw.symm) hne
    · obtain ⟨msg, src, pp, hinp, hcode, hdec, rfl, hanswer⟩ := hanswer
      exact I.committed_of_answersOld hx hinp hcode hdec hanswer hs
  backed := by
    intro w p seals hlog hs
    rcases h.commits hlog with hold | ⟨hw, hc⟩
    · exact H.backed hold hs
    · refine I.backed_of_commits hV H.honest H.tallies hc ?_
      rw [← hs, hw]
      rfl

omit hx in
theorem acts (a : Address) : Acts P s f V net a (net a).toVoter where
  honest := I.honest a
  tallies := I.tallies a
  oldCommits := I.oldCommits
  backed hlog hs := I.backed ⟨a, _, _, _, hlog, hs, rfl⟩

theorem acts_step (hV : V.length = 3 * f + 1) : Acts P s f V net x.1 (netStep P net x x.1).toVoter := by
  rw [netStep_self]
  exact Moves.invariant (fun v v' => I.acts_move hx hV) (step_moves _ _) (I.acts x.1)

theorem step (hV : V.length = 3 * f + 1) : NetInv P s f V (netStep P net x) := by
  have hacts := I.acts_step hx hV
  refine ⟨fun b => ?_, fun b => ?_, fun b => ?_, fun {b w sub} hsent hne hs => ?_, fun {h} hc => ?_⟩
  · by_cases hb : b = x.1
    · exact hb ▸ hacts.honest
    · rw [netStep_of_ne hb]
      exact I.honest b
  · by_cases hb : b = x.1
    · exact hb ▸ hacts.tallies.mono fun m => known_mono
    · rw [netStep_of_ne hb]
      exact (I.tallies b).mono fun m => known_mono
  · by_cases hb : b = x.1
    · subst hb
      rw [netStep_self]
      exact (queued_advance (I.queued x.1) fun msg src => I.known_of_dispatch hx).mono fun m _ => known_mono
    · rw [netStep_of_ne hb]
      exact (I.queued b).mono fun m _ => known_mono
  · by_cases hb : b = x.1
    · subst hb
      exact committed_mono (hacts.oldCommits hsent hne hs)
    · rw [netStep_of_ne hb] at hsent
      exact committed_mono (I.oldCommits hsent hne hs)
  · obtain ⟨b, w, p, seals, hlog, hs, rfl⟩ := hc
    by_cases hb : b = x.1
    · subst hb
      exact backed_mono (hacts.backed hlog hs)
    · rw [netStep_of_ne hb] at hlog
      exact backed_mono (I.backed ⟨b, w, p, seals, hlog, hs, rfl⟩)

end NetInv

/-! ### Runs -/

theorem netInv_start {B₀ : Address → Backend} (hB₀ : ∀ a, (B₀ a).Reliable s V) : NetInv P s f V (netStart P B₀) where
  honest a := .start (hB₀ a) a
  tallies a := by
    have hmoves : Moves P (B₀ a) (Core.new a).toVoter none (Core.new a).toVoter
        (netStart P B₀ a).toVoter := start_moves (B₀ a) a
    refine Moves.invariant (fun v v' H => H.move ?_) hmoves (.new a)
    exact fun msg src hinp => absurd hinp (by simp)
  queued a := queued_start _ _ _
  oldCommits := by
    rintro a w sub ⟨m, hm, -⟩
    exact absurd hm (by simp [netStart, start_log])
  backed := by
    rintro h ⟨b, w, p, seals, hlog, -⟩
    exact absurd hlog (by simp [netStart, start_log])

theorem netInv_run (hV : V.length = 3 * f + 1) {B₀ : Address → Backend}
    (hB₀ : ∀ a, (B₀ a).Reliable s V) {l : List NetInput}
    (h : Run.Along (netStep P) (HonestStep P s V) (netStart P B₀) l) :
    NetInv P s f V (Run.run (netStep P) (netStart P B₀) l) :=
  h.invariant (fun _ _ I hx => I.step hx hV) (netInv_start hB₀)

/-! ### Agreement -/

theorem NetInv.backed_unique (I : NetInv P s f V net) (hV : V.length = 3 * f + 1) {h h' : Hash}
    (hh : Backed P net s f V h) (hh' : Backed P net s f V h') : h = h' := by
  obtain ⟨Q, hQ, hcard, hall⟩ := hh
  obtain ⟨Q', hQ', hcard', hall'⟩ := hh'
  have huniverse : V.toFinset.card ≤ 3 * f + 1 := hV ▸ V.toFinset_card_le
  obtain ⟨q, hq, hq'⟩ := Quorum.exists_mem_inter hQ hQ' (by omega)
  obtain ⟨w, sub, hsent, hview, hs, rfl⟩ := hall q hq
  obtain ⟨w', sub', hsent', hview', hs', rfl⟩ := hall' q hq'
  exact (I.honest q).commit_unique hsent hsent' hview hview' (hs.trans hs'.symm)

/-- **Agreement.** In every run of `3 f + 1` validators over authenticated channels, the blocks that
any two cores hand to `backend.Commit` at sequence `s` have one hash. -/
theorem agreement (P : Primitives) (s f : ℕ) (V : List Address) (B₀ : Address → Backend)
    (l : List NetInput) (hV : V.length = 3 * f + 1) (hB₀ : ∀ a, (B₀ a).Reliable s V)
    (h : Run.Along (netStep P) (HonestStep P s V) (netStart P B₀) l)
    (a b : Address) (w w' : View) (p p' : Block) (seals seals' : List Bytes)
    (hp : (w, Effect.commit p seals) ∈ (Run.run (netStep P) (netStart P B₀) l a).log)
    (hp' : (w', Effect.commit p' seals') ∈ (Run.run (netStep P) (netStart P B₀) l b).log)
    (hw : w.sequence = s) (hw' : w'.sequence = s) : P.hash p = P.hash p' := by
  have I := netInv_run hV hB₀ h
  have hbacked := I.backed ⟨a, w, p, seals, hp, hw, rfl⟩
  have hbacked' := I.backed ⟨b, w', p', seals', hp', hw', rfl⟩
  exact I.backed_unique hV hbacked hbacked'

namespace Sample

def four : Net := netStart primitives fun _ => backend 4 genesis

def atGenesis (x : Address × Event) : NetInput := (x.1, backend 4 genesis, x.2)

/-- What the four validators have broadcast. -/
def wire (net : Net) : List Bytes :=
  [1, 2, 3, 4].flatMap fun a => (net a).log.filterMap fun e =>
    match e.2 with
    | .broadcast m => some (messageCode.enc m)
    | _ => none

/-- The event delivers nothing but what was broadcast. -/
def Relays (net : Net) (x : Address × Event) : Prop := ∀ payload ∈ x.2.payload, payload ∈ wire net

instance (net : Net) (x : Address × Event) : Decidable (Relays net x) :=
  inferInstanceAs (Decidable (∀ payload ∈ x.2.payload, payload ∈ wire net))

def sendTo (receivers : List Address) (m : Message) : List (Address × Event) :=
  receivers.map (·, deliver m)

theorem reliable_backend : (backend 4 genesis).Reliable 1 [1, 2, 3, 4] where
  noBad _ _ := rfl
  commits _ _ := rfl
  validators _ _ := show (validators 4).addresses = [1, 2, 3, 4] by decide

theorem honestStep_of_relays {net : Net} {x : Address × Event} (h : Relays net x) :
    HonestStep primitives 1 [1, 2, 3, 4] net (atGenesis x) where
  toReliable := reliable_backend
  delivered payload hx := by
    have hx' : x.2 = .message payload := hx
    have hmem := h payload (by rw [hx']; rfl)
    obtain ⟨b, -, hb⟩ := List.mem_flatMap.mp hmem
    obtain ⟨⟨w, e⟩, he, hpayload⟩ := List.mem_filterMap.mp hb
    cases e with
    | broadcast m => exact ⟨b, w, m, he, (Option.some.inj hpayload).symm⟩
    | gossip | commit | newRound => simp at hpayload
  chain h' hfound := by
    have hfalse := of_decide_eq_true hfound
    exact absurd hfalse.2 (by decide)

theorem along_honestStep {l : List (Address × Event)}
    (h : Run.Along (fun net x => netStep primitives net (atGenesis x)) Relays four l) :
    Run.Along (netStep primitives) (HonestStep primitives 1 [1, 2, 3, 4]) four (l.map atGenesis) :=
  (Run.along_map atGenesis).mpr (h.mono fun _ _ => honestStep_of_relays)

/-- Validator 1 proposes a block; 1, 2 and 3 prepare it, and 1 and 2 see the three COMMITs. -/
def agreeRun : List (Address × Event) :=
  let block : Block := ⟨1, 0, []⟩
  let sub : Subject := ⟨⟨0, 1⟩, hash block⟩
  (1, .request (some block)) :: sendTo [1, 2, 3] (preprepareOf 1 ⟨⟨0, 1⟩, block⟩)
    ++ [1, 2, 3].flatMap (fun a => sendTo [1, 2, 3] (prepareOf a sub))
    ++ [1, 2, 3].flatMap fun a =>
      sendTo [1, 2] (commitOf a sub (sign a (prepareCommittedSeal (hash block))))

def afterFour (l : List (Address × Event)) : Net :=
  Run.run (netStep primitives) four (l.map atGenesis)

theorem agreement_agreeRun : (afterFour agreeRun 1).state = .committed ∧ (afterFour agreeRun 2).state = .committed
      ∧ ∀ w w' p p' seals seals', (w, Effect.commit p seals) ∈ (afterFour agreeRun 1).log →
        (w', Effect.commit p' seals') ∈ (afterFour agreeRun 2).log → w.sequence = 1 →
        w'.sequence = 1 → hash p = hash p' := by
  have hrelays : Run.Along (fun net x => netStep primitives net (atGenesis x)) Relays four agreeRun := by
    decide +kernel
  refine ⟨by decide +kernel, by decide +kernel, ?_⟩
  intro w w' p p' seals seals' hp hp' hw hw'
  unfold afterFour four at hp hp'
  exact agreement primitives 1 1 [1, 2, 3, 4] (fun _ => backend 4 genesis) (agreeRun.map atGenesis)
    rfl (fun _ => reliable_backend) (along_honestStep hrelays) 1 2 w w' p p' seals seals'
    hp hp' hw hw'

end Sample

end GoWanchain.Istanbul
