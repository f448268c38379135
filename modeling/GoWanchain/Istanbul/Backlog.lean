import GoWanchain.Istanbul.Sample

/-!
# Backlogs

The messages of a validator that came too early wait in a priority queue, and `processBacklog` pops them until one is
still early. So what can be delivered must not wait behind what cannot. The numbers by which the messages are ordered,
taken as they are meant and not as the `float32` they are stored as, leave room for a hundred rounds in a sequence: a
message of round 100 waits behind the ROUND CHANGEs of the next sequence (`backlog_delivered_iff`).
-/

namespace GoWanchain.Istanbul

open List

/-- The heap pops a message of the highest priority. -/
def Backend.PopsHighest (B : Backend) : Prop :=
  ∀ q e, q[B.popMessage q % q.length]? = some e → ∀ e' ∈ q, e'.2 ≤ e.2

section

variable {v : Voter} {code : UInt64} {view : View}

theorem Voter.future_of_checkMessage (hcode : code ≠ msgRoundChange)
    (h : v.checkMessage code view = some .futureMessage) : v.currentView < view ∨
      v.currentView = view ∧ (v.waitingForRoundChange = true ∨ v.state = .acceptRequest ∧ code > msgPreprepare) := by
  unfold checkMessage at h
  simp only [if_neg hcode, View.cmp_eq_gt, View.cmp_eq_lt] at h
  split_ifs at h with hgt hlt hwait hstate hpp
  · exact .inl hgt
  · cases h
  · exact .inr ⟨le_antisymm (not_lt.mp hlt) (not_lt.mp hgt), .inl hwait⟩
  · exact .inr ⟨le_antisymm (not_lt.mp hlt) (not_lt.mp hgt), .inr ⟨hstate, hpp⟩⟩

theorem Voter.sequence_lt_of_checkMessage (h : v.checkMessage msgRoundChange view = some .futureMessage) :
    v.currentView.sequence < view.sequence := by
  unfold checkMessage at h
  rw [if_pos rfl] at h
  split_ifs at h with hgt
  · exact hgt
  · cases h

end

namespace Core

/-- The priority as a number without bounds. -/
def exactPriority (code : UInt64) (view : View) : ℤ :=
  if code = msgRoundChange then -(view.sequence * 1000 : ℕ)
  else -(view.sequence * 1000 + view.round * 10 + msgPriority code : ℕ)

theorem msgPriority_le (code : UInt64) : msgPriority code ≤ 3 := by
  unfold msgPriority
  split_ifs <;> omega

theorem toPriority_eq_exactPriority {code : UInt64} {view : View}
    (h : view.sequence * 1000 + view.round * 10 + 3 < 2 ^ 64) : toPriority code view = exactPriority code view := by
  have hcode := msgPriority_le code
  have hfit {n : ℕ} (hn : n ≤ view.sequence * 1000 + view.round * 10 + 3) : uint64 n = n :=
    Nat.mod_eq_of_lt (hn.trans_lt h)
  rw [toPriority, exactPriority, hfit (n := view.sequence) (by omega), hfit (n := view.round) (by omega),
    hfit (by omega), hfit (by omega)]

variable (P : Primitives)

/-- A message as it waits in a backlog: one of the four kinds, with the priority of its view. -/
def Stored (e : Message × ℤ) : Prop :=
  e.1.code ∈ [msgPreprepare, msgPrepare, msgCommit, msgRoundChange] ∧
    ∃ view, viewOf P e.1 = some view ∧ e.2 = exactPriority e.1.code view

/-- What `processBacklog` leaves in the backlogs cannot be delivered, and what it takes out is posted, or old or
invalid. -/
def Delivers (B : Backend) (c : Core) : Prop :=
  ∀ src q, c.backlogs.lookup src = some q → ∃ left posted skipped evs,
    (c.processBacklog P B).backlogs.lookup src = some left ∧ q.Perm (left ++ (posted ++ skipped)) ∧
    (∀ e ∈ left, checkStored P c.toVoter e.1 ≠ none) ∧
    (c.processBacklog P B).posted = c.posted ++ evs ∧ posted.map (fun e => .backlogEvent src e.1) <+ evs ∧
    ∀ e ∈ skipped, checkStored P c.toVoter e.1 = some .oldMessage ∨ checkStored P c.toVoter e.1 = some .invalidMessage

variable {P} {B : Backend} {c : Core} {v : Voter} {e e' : Message × ℤ}

theorem checkStored_of_view {msg : Message} {view : View} (h : viewOf P msg = some view) :
    checkStored P v msg = v.checkMessage msg.code view := by
  rw [checkStored, h]
  rfl

theorem checkStored_cases (msg : Message) : checkStored P v msg = none ∨ checkStored P v msg = some .futureMessage ∨
    checkStored P v msg = some .oldMessage ∨ checkStored P v msg = some .invalidMessage := by
  cases hview : viewOf P msg with
  | none => simp [checkStored, hview]
  | some =>
    rw [checkStored_of_view hview, Voter.checkMessage]
    split_ifs <;> simp

theorem msgPriority_of_vote {code : UInt64} (hcode : code ∈ [msgPreprepare, msgPrepare, msgCommit, msgRoundChange])
    (hrc : code ≠ msgRoundChange) : 1 ≤ msgPriority code ∧ (code > msgPreprepare ↔ 1 < msgPriority code) := by
  simp only [mem_cons, not_mem_nil, or_false] at hcode
  rcases hcode with rfl | rfl | rfl | rfl
  · decide
  · decide
  · decide
  · exact absurd rfl hrc

/-- In the first hundred rounds a message from the future has a lower priority than one that can be delivered. -/
theorem Stored.lt (hround : v.currentView.round < 100 ∨ v.waitingForRoundChange = true) (he : Stored P e)
    (he' : Stored P e') (hfuture : checkStored P v e.1 = some .futureMessage) (hpass : checkStored P v e'.1 = none) :
    e.2 < e'.2 := by
  obtain ⟨hcode, view, hview, hprio⟩ := he
  obtain ⟨hcode', view', hview', hprio'⟩ := he'
  rw [checkStored_of_view hview] at hfuture
  rw [checkStored_of_view hview'] at hpass
  rw [hprio, hprio', exactPriority, exactPriority]
  by_cases hrc' : e'.1.code = msgRoundChange
  · rw [hrc'] at hpass
    have hseq : view'.sequence = v.currentView.sequence := (Voter.roundChange_of_checkMessage hpass).1
    by_cases hrc : e.1.code = msgRoundChange
    · rw [hrc] at hfuture
      have hlt := Voter.sequence_lt_of_checkMessage hfuture
      rw [if_pos hrc, if_pos hrc']
      omega
    · have hpos := (msgPriority_of_vote hcode hrc).1
      have hle : v.currentView ≤ view := by
        rcases Voter.future_of_checkMessage hrc hfuture with hlt | ⟨heq, -⟩
        · exact hlt.le
        · exact heq.le
      rw [View.le_iff] at hle
      rw [if_neg hrc, if_pos hrc']
      omega
  · obtain ⟨rfl, hwait, hstate⟩ := Voter.view_eq_of_checkMessage hrc' hpass
    have hle := msgPriority_le e'.1.code
    have hlimit : v.currentView.round < 100 := by
      rcases hround with hlt | hwaits
      · exact hlt
      · rw [hwait] at hwaits
        cases hwaits
    by_cases hrc : e.1.code = msgRoundChange
    · rw [hrc] at hfuture
      have hlt := Voter.sequence_lt_of_checkMessage hfuture
      rw [if_pos hrc, if_neg hrc']
      omega
    · obtain ⟨hpos, hvote⟩ := msgPriority_of_vote hcode hrc
      rw [if_neg hrc, if_neg hrc']
      rcases Voter.future_of_checkMessage hrc hfuture with hlt | ⟨rfl, hwaits | ⟨haccept, hgt⟩⟩
      · rw [View.lt_iff] at hlt
        omega
      · rw [hwait] at hwaits
        cases hwaits
      · -- a PREPREPARE of the current view waits ahead of the votes
        have hfirst : ¬ 1 < msgPriority e'.1.code := fun h =>
          hstate haccept ((msgPriority_of_vote hcode' hrc').2.mpr h)
        have hlater := hvote.mp hgt
        omega

theorem delivers (hB : B.PopsHighest) (hround : c.currentView.round < 100 ∨ c.waitingForRoundChange = true)
    (hstored : ∀ src q, c.backlogs.lookup src = some q → ∀ e ∈ q, Stored P e) : Delivers P B c := by
  intro src q hq
  obtain ⟨posted, skipped, hperm, hposted, hskipped, hend⟩ :=
    drainBacklog_spec (P := P) (B := B) c.toVoter src (le_refl q.length)
  refine ⟨_, posted, skipped, _, GoMap.lookup_mapValues.mpr ⟨q, hq, rfl⟩, hperm, ?_, rfl, ?_, ?_⟩
  · intro e he hpass
    rcases hend with hnil | ⟨q', f, hf, hleft, hfuture⟩
    · rw [hnil] at he
      cases he
    · have hmem {d : Message × ℤ} (hd : d ∈ q') : Stored P d :=
        hstored src q hq d (hperm.mem_iff.mpr (mem_append_left _ (hleft.mem_iff.mpr hd)))
      have he' := hleft.mem_iff.mp he
      have hlt := Stored.lt hround (hmem (mem_of_getElem? hf)) (hmem he') hfuture hpass
      exact absurd (hB q' f hf e he') (not_le.mpr hlt)
  · rw [← hposted, flatMap_def]
    exact sublist_flatten_of_mem (mem_map_of_mem (GoMap.mem_entries_iff.mpr hq))
  · intro e he
    obtain ⟨hne, hnf⟩ := hskipped e he
    rcases checkStored_cases (P := P) (v := c.toVoter) e.1 with h | h | h
    · exact absurd h hne
    · exact absurd h hnf
    · exact h

section

variable (P) (v)

/-- A PREPREPARE of the current view. -/
def ofView : Message := ⟨msgPreprepare, P.encodePreprepare ⟨v.currentView, ⟨0, 0, []⟩⟩, 0, [], []⟩

/-- A ROUND CHANGE of the next sequence. -/
def ofNext : Message := ⟨msgRoundChange, P.encodeSubject ⟨⟨0, v.currentView.sequence + 1⟩, 0⟩, 0, [], []⟩

/-- Both of them, as they wait. -/
def crossed : List (Message × ℤ) :=
  [(ofView P v, exactPriority msgPreprepare v.currentView),
    (ofNext P v, exactPriority msgRoundChange ⟨0, v.currentView.sequence + 1⟩)]

end

theorem viewOf_ofView : viewOf P (ofView P v) = some v.currentView := by
  simp [viewOf, ofView]

theorem viewOf_ofNext : viewOf P (ofNext P v) = some ⟨0, v.currentView.sequence + 1⟩ := by
  simp [viewOf, ofNext, msgRoundChange, msgPreprepare]

theorem stored_of_mem_crossed (he : e ∈ crossed P v) : Stored P e := by
  simp only [crossed, mem_cons, not_mem_nil, or_false] at he
  rcases he with rfl | rfl
  · exact ⟨by simp [ofView], _, viewOf_ofView, rfl⟩
  · exact ⟨by simp [ofNext], _, viewOf_ofNext, rfl⟩

theorem checkStored_ofView (hwait : v.waitingForRoundChange = false) : checkStored P v (ofView P v) = none := by
  rw [checkStored_of_view viewOf_ofView]
  simp [Voter.checkMessage, ofView, msgPreprepare, msgRoundChange, View.cmp, hwait]

/-- The ROUND CHANGE is popped first, and both of them stay. -/
theorem drainBacklog_crossed (hB : B.PopsHighest) (hround : 100 ≤ v.currentView.round) (src : Validator) :
    (drainBacklog P B v src 2 (crossed P v)).1 = crossed P v := by
  have hlt : exactPriority msgPreprepare v.currentView <
      exactPriority msgRoundChange ⟨0, v.currentView.sequence + 1⟩ := by
    have hcode : msgPreprepare ≠ msgRoundChange := by decide
    have hone : msgPriority msgPreprepare = 1 := rfl
    rw [exactPriority, exactPriority, if_neg hcode, if_pos rfl, hone]
    dsimp only
    omega
  have hpop : B.popMessage (crossed P v) % (crossed P v).length = 1 := by
    have hbound : B.popMessage (crossed P v) % (crossed P v).length < 2 := Nat.mod_lt _ two_pos
    have hne : B.popMessage (crossed P v) % (crossed P v).length ≠ 0 := by
      intro hzero
      have hle := hB (crossed P v) _ (by rw [hzero]; rfl) _ (mem_cons_of_mem _ (mem_cons_self ..))
      exact absurd hle (not_le.mpr hlt)
    omega
  have hfuture : v.checkMessage (ofNext P v).code ⟨0, v.currentView.sequence + 1⟩ = some .futureMessage := by
    simp [Voter.checkMessage, ofNext]
  have hget : (crossed P v)[1]? = some (ofNext P v, exactPriority msgRoundChange ⟨0, v.currentView.sequence + 1⟩) := rfl
  simp only [drainBacklog, hpop, hget, viewOf_ofNext, hfuture]
  rfl

/-- **Delivery of the backlogs.** Whatever waits in the backlogs, processing them delivers all that can be delivered and
drops nothing else than old and invalid messages, exactly if the round is below 100 or a round change is awaited. -/
theorem backlog_delivered_iff (P : Primitives) (B : Backend) (hB : B.PopsHighest) (c : Core) :
    (∀ backlogs : GoMap Validator (List (Message × ℤ)),
      (∀ src q, backlogs.lookup src = some q → ∀ e ∈ q, Stored P e) → Delivers P B { c with backlogs := backlogs }) ↔
    c.currentView.round < 100 ∨ c.waitingForRoundChange = true := by
  constructor
  · intro h
    by_contra hnot
    obtain ⟨hround, hwait⟩ := not_or.mp hnot
    let src : Validator := ⟨0, 0⟩
    let backlogs : GoMap Validator (List (Message × ℤ)) := (∅ : GoMap _ _).insert src (crossed P c.toVoter)
    have hlookup : backlogs.lookup src = some (crossed P c.toVoter) := AList.lookup_insert _
    have hstored : ∀ src' q, backlogs.lookup src' = some q → ∀ e ∈ q, Stored P e := by
      intro src' q hq e he
      rcases GoMap.lookup_insert_cases hq with ⟨-, rfl⟩ | ⟨-, hnone⟩
      · exact stored_of_mem_crossed he
      · rw [AList.lookup_empty] at hnone
        cases hnone
    obtain ⟨left, posted, skipped, evs, hleft, -, hnone, -⟩ := h backlogs hstored src _ hlookup
    obtain ⟨q, hq, rfl⟩ := GoMap.lookup_mapValues.mp hleft
    cases (hlookup.symm.trans hq)
    have hmem : (ofView P c.toVoter, exactPriority msgPreprepare c.currentView) ∈
        (drainBacklog P B c.toVoter src 2 (crossed P c.toVoter)).1 := by
      rw [drainBacklog_crossed hB (not_lt.mp hround)]
      exact mem_cons_self ..
    exact hnone _ hmem (checkStored_ofView (by simpa using hwait))
  · intro hround backlogs hstored
    exact delivers hB hround hstored

end Core

namespace Sample

/-- A heap that compares the priorities as they are. -/
def highest (q : List (Message × ℤ)) : ℕ := (q.map Prod.snd).idxOf ((q.map Prod.snd).max?.getD 0)

def heapBackend : Backend := { backend 4 genesis with popMessage := highest }

theorem heapBackend_popsHighest : heapBackend.PopsHighest := by
  intro q e he e' he'
  cases hmax : (q.map Prod.snd).max? with
  | none =>
    rw [max?_eq_none_iff, map_eq_nil_iff] at hmax
    rw [hmax] at he'
    cases he'
  | some m =>
    obtain ⟨hm, hle⟩ := max?_eq_some_iff.mp hmax
    have hlt : (q.map Prod.snd).idxOf m < q.length := by simpa using idxOf_lt_length_iff.mpr hm
    have hpop : heapBackend.popMessage q % q.length = (q.map Prod.snd).idxOf m := by
      show highest q % q.length = _
      rw [highest, hmax, Option.getD_some, Nat.mod_eq_of_lt hlt]
    have hprio : (q.map Prod.snd)[(q.map Prod.snd).idxOf m]? = some e.2 := by
      rw [getElem?_map, ← hpop, he]
      rfl
    rw [getElem?_idxOf hm] at hprio
    rw [← Option.some.inj hprio]
    exact hle _ (mem_map_of_mem he')

theorem backlog_delivered_iff_two : two.currentView.round < 100 ∧
    ∀ backlogs : GoMap Validator (List (Message × ℤ)),
      (∀ src q, backlogs.lookup src = some q → ∀ e ∈ q, Core.Stored primitives e) →
        Core.Delivers primitives heapBackend { two with backlogs := backlogs } := by
  have hround : two.currentView.round < 100 := by decide +kernel
  exact ⟨hround, (Core.backlog_delivered_iff primitives heapBackend heapBackend_popsHighest two).mpr (.inl hround)⟩

/-- Round 100 of sequence 1, with a PREPREPARE of it and a ROUND CHANGE of sequence 2 in the backlog of validator 3. -/
def late : Core :=
  let c := { two with current := .new ⟨100, 1⟩ (validators 4) 0 none none }
  { c with backlogs := (∅ : GoMap _ _).insert ⟨3, 0⟩ (Core.crossed primitives c.toVoter) }

/-- The PREPREPARE can be delivered and is left in the backlog. -/
theorem preprepare_left_behind : (late.processBacklog primitives heapBackend).posted = [] ∧
    ((late.processBacklog primitives heapBackend).backlogs.lookup ⟨3, 0⟩).map (·.map (·.1)) =
      some [Core.ofView primitives late.toVoter, Core.ofNext primitives late.toVoter] ∧
    Core.checkStored primitives late.toVoter (Core.ofView primitives late.toVoter) = none := by
  decide +kernel

end Sample

end GoWanchain.Istanbul
