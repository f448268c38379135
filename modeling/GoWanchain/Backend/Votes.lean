import GoWanchain.Backend.Snapshot
import GoWanchain.Istanbul.Sample

/-!
# Votes and validators

What every snapshot keeps: the tally counts the live votes, every live vote is for the change that the
validator set allows, it is the only one of its validator on its address, and its validator still is one
(`Sound`). A header changes its coinbase, and no other address, exactly when more than half of the
validators hold a live vote for it (`votes_sound`): a change that gets its majority by the removal of a
validator waits for a header that touches it.
-/

namespace GoWanchain.Backend

open Types List Function
open State (Keccak)
open Istanbul (Primitives ValidatorSet ProposerPolicy hashBytes)

/-! ### Counting -/

def votesOn (votes : List Vote) (a : Address) : ℕ := votes.countP (·.address = a)

theorem votesOn_cons (vote : Vote) (votes : List Vote) (a : Address) :
    votesOn (vote :: votes) a = votesOn votes a + if vote.address = a then 1 else 0 := by
  rw [votesOn, countP_cons]
  simp [votesOn]

/-- The tally has `n a` votes on `a`, for the change `dir a`, and no empty entries. -/
def Counts (tally : GoMap Address Tally) (dir : Address → Bool) (n : Address → ℕ) : Prop :=
  ∀ a, tally.lookup a = if n a = 0 then none else some ⟨dir a, n a⟩

section Counts

variable {tally : GoMap Address Tally} {dir : Address → Bool} {n : Address → ℕ}

section

variable (h : Counts tally dir n)

include h

theorem Counts.insert (a : Address) {k : ℕ} (hk : 0 < k) : Counts (tally.insert a ⟨dir a, k⟩) dir (update n a k) := by
  intro b
  by_cases hb : b = a
  · subst hb
    rw [AList.lookup_insert, update_self, if_neg hk.ne']
  · rw [AList.lookup_insert_ne hb, update_of_ne hb]
    exact h b

theorem Counts.erase (a : Address) : Counts (tally.erase a) dir (update n a 0) := by
  intro b
  by_cases hb : b = a
  · subst hb
    rw [AList.lookup_erase, update_self, if_pos rfl]
  · rw [AList.lookup_erase_ne hb, update_of_ne hb]
    exact h b

theorem Counts.lookup_of_pos {a : Address} (ha : 0 < n a) : tally.lookup a = some ⟨dir a, n a⟩ := by
  rw [h a, if_neg ha.ne']

theorem Counts.lookup_of_zero {a : Address} (ha : n a = 0) : tally.lookup a = none := by
  rw [h a, if_pos ha]

end

theorem Counts.forget {votes : List Vote} (h : Counts tally dir (votesOn votes)) (a : Address)
    {dir' : Address → Bool} (hdir : ∀ b, b ≠ a → dir' b = dir b) :
    Counts (tally.erase a) dir' (votesOn (votes.filter (·.address ≠ a))) := by
  intro b
  by_cases hb : b = a
  · subst hb
    have hzero : votesOn (votes.filter (·.address ≠ b)) b = 0 := by
      rw [votesOn, countP_eq_zero]
      intro v hv
      simpa using (mem_filter.mp hv).2
    rw [AList.lookup_erase, if_pos hzero]
  · have hkeep : votesOn (votes.filter (·.address ≠ a)) b = votesOn votes b := by
      rw [votesOn, countP_filter, votesOn]
      apply countP_congr
      intro v _
      simp only [Bool.and_eq_true, decide_eq_true_eq]
      constructor
      · exact And.left
      · rintro rfl
        exact ⟨rfl, hb⟩
    rw [AList.lookup_erase_ne hb, hkeep, hdir b hb]
    exact h b

end Counts

namespace Snapshot

/-- The change that may be voted for: to authorize who is not a validator. -/
def direction (s : Snapshot) (a : Address) : Bool := decide (a ∉ s.valSet.addresses)

theorem checkVote_eq (s : Snapshot) (a : Address) (authorize : Bool) :
    s.checkVote a authorize = decide (authorize = s.direction a) := by
  have hmem : (s.valSet.getByAddress a).isSome ↔ a ∈ s.valSet.addresses :=
    ValidatorSet.getByAddress_isSome
  rw [checkVote, direction]
  cases hget : s.valSet.getByAddress a with
  | none =>
    rw [hget] at hmem
    have ha : a ∉ s.valSet.addresses := fun h => absurd (hmem.mpr h) (by simp)
    simp [ha]
  | some =>
    rw [hget] at hmem
    have ha : a ∈ s.valSet.addresses := hmem.mp rfl
    cases authorize <;> simp [ha]

theorem uncast_eq (s : Snapshot) (a : Address) (authorize : Bool) :
    (s.uncast a authorize).1 = { s with tally := (s.uncast a authorize).1.tally } := by
  rw [uncast]
  cases s.tally.lookup a with
  | none => rfl
  | some =>
    simp only []
    split_ifs <;> rfl

theorem uncast_counts {s : Snapshot} {dir : Address → Bool} {n : Address → ℕ}
    (h : Counts s.tally dir n) {a : Address} (ha : 0 < n a) :
    Counts (s.uncast a (dir a)).1.tally dir (update n a (n a - 1)) := by
  rw [uncast, h.lookup_of_pos ha]
  simp only [ne_eq, not_true_eq_false, if_false]
  split_ifs with hmany
  · exact h.insert a (by omega)
  · have hzero : n a - 1 = 0 := by omega
    rw [hzero]
    exact h.erase a

theorem cast_of_ne {s : Snapshot} {a : Address} {authorize : Bool} (h : authorize ≠ s.direction a) :
    s.cast a authorize = (s, false) := by
  rw [cast, checkVote_eq, decide_eq_false h]
  rfl

theorem cast_counts {s : Snapshot} {n : Address → ℕ} (h : Counts s.tally s.direction n) (a : Address) :
    ∃ tally, s.cast a (s.direction a) = ({ s with tally := tally }, true) ∧
      Counts tally s.direction (update n a (n a + 1)) := by
  rw [cast, checkVote_eq, decide_eq_true rfl]
  rcases Nat.eq_zero_or_pos (n a) with hzero | hpos
  · refine ⟨s.tally.insert a ⟨s.direction a, 1⟩, by rw [h.lookup_of_zero hzero]; rfl, ?_⟩
    rw [hzero]
    exact h.insert a Nat.one_pos
  · refine ⟨s.tally.insert a ⟨s.direction a, n a + 1⟩, by rw [h.lookup_of_pos hpos]; rfl, ?_⟩
    exact h.insert a (Nat.succ_pos _)

/-! ### What a snapshot keeps -/

/-- Validator and address of a vote. -/
def ballot (vote : Vote) : Address × Address := (vote.validator, vote.address)

/-- The tally counts the live votes; each of them is for the change that is possible, by a validator,
and the only one of that validator on that address. -/
structure Sound (s : Snapshot) : Prop where
  tally : Counts s.tally s.direction (votesOn s.votes)
  direction : ∀ vote ∈ s.votes, vote.authorize = s.direction vote.address
  voters : ∀ vote ∈ s.votes, vote.validator ∈ s.valSet.addresses
  unique : (s.votes.map ballot).Nodup

theorem direction_congr {s t : Snapshot} (h : ∀ a, a ∈ t.valSet.addresses ↔ a ∈ s.valSet.addresses) :
    t.direction = s.direction := by
  funext a
  simp only [Snapshot.direction, h a]

theorem sound_of_nil {s : Snapshot} (hvotes : s.votes = []) (htally : s.tally = ∅) : s.Sound where
  tally a := by
    rw [htally, hvotes]
    rfl
  direction vote hmem := by
    rw [hvotes] at hmem
    cases hmem
  voters vote hmem := by
    rw [hvotes] at hmem
    cases hmem
  unique := by
    rw [hvotes]
    exact nodup_nil

theorem Sound.congr {s t : Snapshot} (h : s.Sound) (hvotes : t.votes = s.votes) (htally : t.tally = s.tally)
    (hmem : ∀ a, a ∈ t.valSet.addresses ↔ a ∈ s.valSet.addresses) : t.Sound := by
  have hdir := direction_congr hmem
  refine ⟨?_, ?_, ?_, ?_⟩
  · rw [htally, hdir, hvotes]
    exact h.tally
  · rw [hvotes, hdir]
    exact h.direction
  · intro vote hvote
    rw [hvotes] at hvote
    exact (hmem _).mpr (h.voters vote hvote)
  · rw [hvotes]
    exact h.unique

theorem Sound.resetAt {s : Snapshot} (h : s.Sound) (number : ℕ) : (s.resetAt number).Sound := by
  rw [Snapshot.resetAt]
  split_ifs
  · exact sound_of_nil rfl rfl
  · exact h

theorem Sound.copy (P : Primitives) {s : Snapshot} (h : s.Sound) : (s.copy P).Sound :=
  h.congr rfl rfl (mem_copy P s)

theorem Sound.sublist {s t : Snapshot} (h : s.Sound) (hvalSet : t.valSet = s.valSet)
    (hvotes : t.votes.Sublist s.votes) (htally : Counts t.tally s.direction (votesOn t.votes)) : t.Sound := by
  have hdir : t.direction = s.direction := direction_congr (by simp [hvalSet])
  refine ⟨?_, ?_, ?_, ?_⟩
  · rw [hdir]
    exact htally
  · intro vote hvote
    rw [hdir]
    exact h.direction vote (hvotes.subset hvote)
  · intro vote hvote
    rw [hvalSet]
    exact h.voters vote (hvotes.subset hvote)
  · exact h.unique.sublist (hvotes.map _)

/-! ### One header -/

theorem Sound.discardVote {s : Snapshot} (h : s.Sound) (validator a : Address) :
    (s.discardVote validator a).Sound ∧ (s.discardVote validator a).valSet = s.valSet ∧
      (validator, a) ∉ (s.discardVote validator a).votes.map ballot := by
  rw [Snapshot.discardVote]
  cases hfind : s.votes.find? (Vote.isOf validator a) with
  | none =>
    refine ⟨h, rfl, fun hmem => ?_⟩
    obtain ⟨vote, hvote, hballot⟩ := mem_map.mp hmem
    have hnone := find?_eq_none.mp hfind vote hvote
    simp only [ballot, Prod.mk.injEq] at hballot
    simp [Vote.isOf, hballot] at hnone
  | some vote =>
    obtain ⟨hvote, older, newer, hsplit, holder⟩ := find?_eq_some_iff_append.mp hfind
    have heraseP : s.votes.eraseP (Vote.isOf validator a) = older ++ newer := by
      rw [hsplit, eraseP_append_right _ (by simpa using holder), eraseP_cons_of_pos hvote]
    rw [Vote.isOf, decide_eq_true_eq] at hvote
    have hmem : vote ∈ s.votes := by
      rw [hsplit]
      simp
    have hcount : ∀ b, votesOn s.votes b = votesOn (older ++ newer) b + if vote.address = b then 1 else 0 := by
      intro b
      rw [hsplit, votesOn, perm_middle.countP_eq]
      exact votesOn_cons vote _ b
    have hunique : (ballot vote :: (older ++ newer).map ballot).Nodup := by
      have hperm : ((vote :: (older ++ newer)).map ballot).Perm (s.votes.map ballot) := by
        rw [hsplit]
        exact perm_middle.symm.map _
      exact hperm.nodup_iff.mpr h.unique
    have htally := uncast_counts h.tally (a := vote.address) (by rw [hcount, if_pos rfl]; omega)
    rw [← h.direction vote hmem] at htally
    simp only []
    rw [heraseP]
    refine ⟨h.sublist ?_ ?_ ?_, ?_, ?_⟩
    · rw [uncast_eq]
    · show (older ++ newer).Sublist s.votes
      rw [hsplit]
      exact Sublist.append_left (sublist_cons_self _ _) _
    · show Counts _ _ (votesOn (older ++ newer))
      convert htally using 1
      funext b
      by_cases hb : b = vote.address
      · subst hb
        rw [update_self, hcount, if_pos rfl]
        omega
      · rw [update_of_ne hb, hcount, if_neg (Ne.symm hb)]
        rfl
    · rw [uncast_eq]
    · show (validator, a) ∉ (older ++ newer).map ballot
      rw [← hvote.1, ← hvote.2]
      exact (nodup_cons.mp hunique).1

/-- What recording the vote of a header leaves: the vote is there if it is for the possible change. -/
theorem Sound.recordVote {s t : Snapshot} (h : s.Sound) {validator : Address} {header : Header}
    (hval : validator ∈ s.valSet.addresses) (hrec : s.recordVote validator header = .ok t) :
    t.Sound ∧ t.valSet = s.valSet ∧ t.epoch = s.epoch ∧ ((validator, header.coinbase) ∈ t.votes.map ballot →
        voteOfNonce header.nonce = some (s.direction header.coinbase)) := by
  obtain ⟨hsound, hvalSet, hfresh⟩ := h.discardVote validator header.coinbase
  have hepoch : (s.discardVote validator header.coinbase).epoch = s.epoch := by
    rw [Snapshot.discardVote]
    split
    · rfl
    · rw [uncast_eq]
  obtain ⟨d, hd⟩ : ∃ d, d = s.discardVote validator header.coinbase := ⟨_, rfl⟩
  rw [← hd] at hsound hvalSet hfresh hepoch
  have hdir : d.direction = s.direction := direction_congr (by simp [hvalSet])
  rw [Snapshot.recordVote, ← hd] at hrec
  simp only [] at hrec
  cases hnonce : voteOfNonce header.nonce with
  | none =>
    rw [hnonce] at hrec
    cases hrec
  | some authorize =>
    rw [hnonce] at hrec
    simp only [Except.ok.injEq] at hrec
    by_cases hmeaningful : authorize = d.direction header.coinbase
    · obtain ⟨tally, hcast, htally⟩ := cast_counts hsound.tally header.coinbase
      rw [hmeaningful, hcast] at hrec
      simp only [if_true] at hrec
      subst hrec
      refine ⟨⟨?_, ?_, ?_, ?_⟩, hvalSet, hepoch, fun _ => by rw [hmeaningful, hdir]⟩
      · show Counts tally d.direction (votesOn (d.votes ++ [_]))
        convert htally using 1
        funext b
        rw [votesOn, countP_append, countP_singleton]
        by_cases hb : b = header.coinbase
        · subst hb
          simp [votesOn]
        · rw [update_of_ne hb]
          simp [votesOn, Ne.symm hb]
      · intro vote hvote
        rcases mem_append.mp hvote with hold | hnew
        · exact hsound.direction vote hold
        · rw [mem_singleton.mp hnew]
          rfl
      · intro vote hvote
        rcases mem_append.mp hvote with hold | hnew
        · exact hsound.voters vote hold
        · rw [mem_singleton.mp hnew]
          show validator ∈ d.valSet.addresses
          rw [hvalSet]
          exact hval
      · show ((d.votes ++ [_]).map ballot).Nodup
        rw [map_append, map_singleton, nodup_append_comm]
        exact nodup_cons.mpr ⟨hfresh, hsound.unique⟩
    · rw [cast_of_ne hmeaningful] at hrec
      simp only [Bool.false_eq_true, if_false] at hrec
      subst hrec
      exact ⟨hsound, hvalSet, hepoch, fun hmem => absurd hmem hfresh⟩

theorem foldl_uncast_counts {s : Snapshot} {dir : Address → Bool} {n : Address → ℕ} (l : List Vote)
    (h : Counts s.tally dir fun a => n a + votesOn l a) (hdir : ∀ vote ∈ l, vote.authorize = dir vote.address) :
    ∃ tally, l.foldl (fun s vote => (s.uncast vote.address vote.authorize).1) s = { s with tally := tally } ∧
      Counts tally dir n := by
  induction l generalizing s with
  | nil => exact ⟨s.tally, rfl, by simpa [votesOn] using h⟩
  | cons vote l ih =>
    have hhead : votesOn (vote :: l) vote.address = votesOn l vote.address + 1 := by
      rw [votesOn_cons, if_pos rfl]
    have hstep := uncast_counts h (a := vote.address) (by simp only [hhead]; omega)
    rw [← hdir vote mem_cons_self] at hstep
    obtain ⟨tally, heq, htally⟩ := ih (s := (s.uncast vote.address vote.authorize).1) (by
      convert hstep using 1
      funext b
      by_cases hb : b = vote.address
      · subst hb
        rw [update_self, hhead]
        omega
      · rw [update_of_ne hb, votesOn_cons, if_neg (Ne.symm hb), Nat.add_zero]) fun v hv => hdir v (mem_cons_of_mem _ hv)
    refine ⟨tally, ?_, htally⟩
    rw [foldl_cons, heq, uncast_eq]

theorem Sound.change {s t : Snapshot} (h : s.Sound) (a : Address) {votes : List Vote}
    {tally : GoMap Address Tally} (hsub : votes.Sublist s.votes)
    (hcounts : Counts tally s.direction (votesOn votes))
    (hmem : ∀ b, b ≠ a → (b ∈ t.valSet.addresses ↔ b ∈ s.valSet.addresses))
    (hvoters : ∀ vote ∈ votes, vote.validator ∈ t.valSet.addresses)
    (hvotes : t.votes = votes.filter (·.address ≠ a)) (htally : t.tally = tally.erase a) : t.Sound := by
  have hdir : ∀ b, b ≠ a → t.direction b = s.direction b := by
    intro b hb
    simp only [Snapshot.direction, hmem b hb]
  refine ⟨?_, ?_, ?_, ?_⟩
  · rw [hvotes, htally]
    exact hcounts.forget a hdir
  · intro vote hvote
    rw [hvotes, mem_filter, decide_eq_true_eq] at hvote
    rw [hdir _ hvote.2]
    exact h.direction vote (hsub.subset hvote.1)
  · intro vote hvote
    rw [hvotes, mem_filter] at hvote
    exact hvoters vote hvote.1
  · rw [hvotes]
    exact h.unique.sublist ((filter_sublist.trans hsub).map _)

section Settle

variable (P : Primitives) {s : Snapshot}

/-- The validators after the vote was settled. -/
def settledSet (s : Snapshot) (a : Address) : ValidatorSet :=
  if s.valSet.size < 2 * votesOn s.votes a then
    if a ∈ s.valSet.addresses then (s.valSet.removeValidator a).1 else (s.valSet.addValidator P a).1
  else s.valSet

theorem mem_addValidator {vs : ValidatorSet} {a : Address} (ha : a ∉ vs.addresses) (b : Address) :
    b ∈ (vs.addValidator P a).1.addresses ↔ b = a ∨ b ∈ vs.addresses := by
  rw [(ValidatorSet.addValidator_of_notMem P ha).mem_iff, mem_cons]

theorem Sound.settle (h : s.Sound) (a : Address) :
    (s.settle P a).Sound ∧ (s.settle P a).valSet = s.settledSet P a ∧ (s.settle P a).epoch = s.epoch := by
  rcases Nat.eq_zero_or_pos (votesOn s.votes a) with hzero | hpos
  · have hsame : s.settle P a = s := by
      rw [Snapshot.settle, h.tally.lookup_of_zero hzero]
      simp
    rw [hsame, settledSet, hzero, if_neg (by omega)]
    exact ⟨h, rfl, rfl⟩
  rw [Snapshot.settle, h.tally.lookup_of_pos hpos]
  simp only [Option.getD_some]
  by_cases hpass : s.valSet.size < 2 * votesOn s.votes a
  swap
  · rw [if_neg (by omega), settledSet, if_neg hpass]
    exact ⟨h, rfl, rfl⟩
  rw [if_pos (by omega), settledSet, if_pos hpass]
  by_cases ha : a ∈ s.valSet.addresses
  · -- the deauthorized validator's votes are uncast, before those on it are forgotten
    have hfalse : s.direction a = false := by simp [Snapshot.direction, ha]
    have hsplit : ∀ b, votesOn s.votes b
        = votesOn (s.votes.filter (·.validator ≠ a)) b + votesOn (s.votes.filter (·.validator = a)) b := by
      intro b
      rw [votesOn, countP_eq_countP_filter_add _ _ (fun vote : Vote => decide (vote.validator = a)), Nat.add_comm]
      simp [votesOn]
    obtain ⟨tally, hfold, hcounts⟩ := foldl_uncast_counts (s := { s with valSet := (s.valSet.removeValidator a).1 })
      (n := votesOn (s.votes.filter (·.validator ≠ a))) (s.votes.filter (·.validator = a))
      (by simpa only [← hsplit] using h.tally) fun vote hvote => h.direction vote (mem_filter.mp hvote).1
    have herase := (ValidatorSet.removeValidator_of_mem ha).2
    have hdiscard : Snapshot.discardVotesOf { s with valSet := (s.valSet.removeValidator a).1 } a = { s with
            valSet := (s.valSet.removeValidator a).1
            tally := tally
            votes := s.votes.filter (·.validator ≠ a) } := by
      rw [discardVotesOf, hfold]
    rw [if_pos ha, hfalse]
    simp only [Bool.false_eq_true, if_false]
    rw [hdiscard]
    refine ⟨h.change a filter_sublist hcounts ?_ ?_ rfl rfl, rfl, rfl⟩
    · intro b hb
      show b ∈ (s.valSet.removeValidator a).1.addresses ↔ _
      rw [herase, mem_erase_of_ne hb]
    · intro vote hvote
      rw [mem_filter, decide_eq_true_eq] at hvote
      show vote.validator ∈ (s.valSet.removeValidator a).1.addresses
      rw [herase, mem_erase_of_ne hvote.2]
      exact h.voters vote hvote.1
  · have htrue : s.direction a = true := by simp [Snapshot.direction, ha]
    rw [if_neg ha, htrue, if_pos rfl]
    refine ⟨h.change a (Sublist.refl _) h.tally ?_ ?_ rfl rfl, rfl, rfl⟩
    · intro b hb
      exact (mem_addValidator P ha b).trans (or_iff_right hb)
    · intro vote hvote
      exact (mem_addValidator P ha _).mpr (.inr (h.voters vote hvote))

theorem nodup_settledSet (hnodup : s.valSet.addresses.Nodup) (a : Address) : (s.settledSet P a).addresses.Nodup := by
  rw [settledSet]
  split_ifs with hpass ha
  · rw [(ValidatorSet.removeValidator_of_mem ha).2]
    exact hnodup.erase a
  · exact (ValidatorSet.addValidator_of_notMem P ha).nodup_iff.mpr (nodup_cons.mpr ⟨ha, hnodup⟩)
  · exact hnodup

theorem settledSet_changes (hnodup : s.valSet.addresses.Nodup) (a b : Address) :
    ¬ (b ∈ (s.settledSet P a).addresses ↔ b ∈ s.valSet.addresses) ↔ b = a ∧ s.valSet.size < 2 * votesOn s.votes a := by
  rw [settledSet]
  split_ifs with hpass ha
  · rw [(ValidatorSet.removeValidator_of_mem ha).2]
    by_cases hb : b = a
    · subst hb
      simp [hnodup.not_mem_erase, ha, hpass]
    · simp [mem_erase_of_ne hb, hb]
  · rw [mem_addValidator P ha]
    by_cases hb : b = a
    · subst hb
      simp [ha, hpass]
    · simp [hb]
  · simp [hpass]

end Settle

/-- The validators that hold a live vote for the change of the address. -/
def holders (s : Snapshot) (a : Address) : List Address :=
  s.valSet.addresses.filter fun v =>
    s.votes.any fun vote => vote.isOf v a && vote.authorize == s.direction a

theorem Sound.length_holders {s : Snapshot} (h : s.Sound) (hnodup : s.valSet.addresses.Nodup) (a : Address) :
    (s.holders a).length = votesOn s.votes a := by
  have hvoters : ((s.votes.filter (·.address = a)).map (·.validator)).Nodup := by
    have hballots : ((s.votes.filter (·.address = a)).map ballot).Nodup :=
      h.unique.sublist (filter_sublist.map _)
    refine Nodup.of_map (·, a) ?_
    rw [map_map]
    convert hballots using 1
    apply map_congr_left
    intro vote hvote
    rw [mem_filter, decide_eq_true_eq] at hvote
    rw [ballot, hvote.2]
    rfl
  have hperm : (s.holders a).Perm ((s.votes.filter (·.address = a)).map (·.validator)) := by
    refine (perm_ext_iff_of_nodup (hnodup.filter _) hvoters).mpr fun v => ?_
    simp only [mem_filter, any_eq_true, mem_map, Bool.and_eq_true, Vote.isOf, decide_eq_true_eq, beq_iff_eq]
    constructor
    · rintro ⟨-, vote, hvote, ⟨hval, haddr⟩, -⟩
      exact ⟨vote, ⟨hvote, haddr⟩, hval⟩
    · rintro ⟨vote, ⟨hvote, rfl⟩, rfl⟩
      exact ⟨h.voters vote hvote, vote, hvote, ⟨rfl, rfl⟩, h.direction vote hvote⟩
  rw [hperm.length_eq, length_map, votesOn, countP_eq_length_filter]

/-! ### Whole histories -/

variable [Keccak] (P : Primitives)

/-- `s` is reached from `g` by calls of `apply` that accepted the headers. -/
inductive Applied (g : Snapshot) : List Header → Snapshot → Prop
  | nil : Applied g [] g
  | apply {hs headers : List Header} {s t : Snapshot} {recentAddresses recentAddresses' : AddressCache} :
    Applied g hs s → s.apply P recentAddresses headers = (.ok t, recentAddresses') → Applied g (hs ++ headers) t

variable {P} {g s t : Snapshot} {recentAddresses recentAddresses' : AddressCache} {header : Header}
  {hs headers : List Header}

theorem Sound.applyHeader (h : s.Sound) (happly : s.applyHeader P recentAddresses header = (.ok t, recentAddresses')) :
    ∃ validator mid, ecrecover P recentAddresses header = (.ok validator, recentAddresses') ∧
      validator ∈ s.valSet.addresses ∧
      (s.resetAt (uint64 header.number)).recordVote validator header = .ok mid ∧ mid.Sound ∧
      mid.valSet = s.valSet ∧ t.Sound ∧ t.valSet = mid.settledSet P header.coinbase ∧
      ((validator, header.coinbase) ∈ mid.votes.map ballot →
        voteOfNonce header.nonce = some (s.direction header.coinbase)) := by
  obtain ⟨-, validator, mid, hrecover, hval, hrec, rfl⟩ := applyHeader_eq_ok happly
  obtain ⟨hmid, hsame, -, hvote⟩ := (h.resetAt _).recordVote (by rw [valSet_resetAt]; exact hval) hrec
  rw [valSet_resetAt] at hsame
  rw [direction_congr (s := s) (t := s.resetAt _) (by simp)] at hvote
  obtain ⟨hsound, hset, -⟩ := hmid.settle P header.coinbase
  exact ⟨validator, mid, hrecover, hval, hrec, hmid, hsame, hsound, hset, hvote⟩

/-- What every header preserves, and does not depend on number, hash and the order of the validators,
holds along every history. -/
theorem Applied.invariant {I : Snapshot → Prop} (h : Applied P g hs s)
    (hcopy : ∀ s, I s → I (s.copy P)) (hmove : ∀ s number hash, I s → I { s with number := number, hash := hash })
    (hstep : ∀ s cache header t cache', I s → s.applyHeader P cache header = (.ok t, cache') → I t)
    (hg : I g) : I s := by
  induction h with
  | nil => exact hg
  | apply _ happly ih =>
    rcases apply_eq_ok happly with ⟨-, rfl, -⟩ | ⟨hne, -, -, u, hloop, rfl⟩
    · exact ih
    · exact hmove u _ _ (applyHeaders_invariant hstep (hcopy _ ih) hloop)

theorem Applied.sound (h : Applied P g hs s) (hg : g.Sound) : s.Sound :=
  h.invariant (fun _ hs => hs.copy P) (fun _ _ _ hs => hs.congr rfl rfl fun _ => Iff.rfl)
    (fun s cache header t cache' hs happly => by
      obtain ⟨-, -, -, -, -, -, -, hsound, -, -⟩ := hs.applyHeader happly
      exact hsound) hg

theorem Applied.nodup (h : Applied P g hs s) (hg : g.Sound) (hnodup : g.valSet.addresses.Nodup) :
    s.valSet.addresses.Nodup := by
  refine (h.invariant (I := fun s => s.Sound ∧ s.valSet.addresses.Nodup) ?_ ?_ ?_ ⟨hg, hnodup⟩).2
  · rintro s ⟨hs, hnodup⟩
    exact ⟨hs.copy P, (s.valSet.copy_addresses P).nodup_iff.mpr hnodup⟩
  · rintro s number hash ⟨hs, hnodup⟩
    exact ⟨hs.congr rfl rfl fun _ => Iff.rfl, hnodup⟩
  · rintro s cache header t cache' ⟨hs, hnodup⟩ happly
    obtain ⟨-, mid, -, -, -, -, hsame, hsound, hset, -⟩ := hs.applyHeader happly
    refine ⟨hsound, ?_⟩
    rw [hset]
    exact nodup_settledSet P (by rw [hsame]; exact hnodup) _

/-- **Votes.** In every snapshot that is reached from distinct genesis validators, the tally counts the
live votes, which are for possible changes, by validators, one a validator and address. And when one
more header is accepted, then an address changes exactly if it is the coinbase and more than half of the
validators before the change hold a live vote for it, once the header's vote is recorded. -/
theorem votes_sound (P : Primitives) (epoch : ℕ) (hash : Hash) (addrs : List Address)
    (policy : ProposerPolicy) (hnodup : addrs.Nodup) {hs : List Header} {s : Snapshot}
    (h : Applied P (newSnapshot epoch 0 hash (ValidatorSet.newSet P addrs policy)) hs s) :
    s.Sound ∧ ∀ cache cache' header t, s.apply P cache [header] = (.ok t, cache') →
      ∃ validator mid, ecrecover P cache header = (.ok validator, cache') ∧
        ((s.copy P).resetAt (uint64 header.number)).recordVote validator header = .ok mid ∧ mid.Sound ∧
        (∀ a, a ∈ mid.valSet.addresses ↔ a ∈ s.valSet.addresses) ∧
        ∀ a, ¬ (a ∈ t.valSet.addresses ↔ a ∈ s.valSet.addresses) ↔
          a = header.coinbase ∧ s.valSet.size < 2 * (mid.holders a).length := by
  have hg : (newSnapshot epoch 0 hash (ValidatorSet.newSet P addrs policy)).Sound := sound_of_nil rfl rfl
  have hsound := h.sound hg
  have hdistinct := h.nodup hg ((ValidatorSet.newSet_addresses P addrs policy).nodup_iff.mpr hnodup)
  refine ⟨hsound, fun cache cache' header t happly => ?_⟩
  rcases apply_eq_ok happly with ⟨hnil, -⟩ | ⟨-, -, -, u, hloop, rfl⟩
  · cases hnil
  obtain ⟨u', cache'', hheader, hrest⟩ := applyHeaders_cons_eq_ok hloop
  obtain ⟨hok, rfl⟩ := Prod.mk.inj hrest
  cases hok
  obtain ⟨validator, mid, hrecover, -, hrec, hmid, hsame, -, hset, -⟩ :=
    (hsound.copy P).applyHeader hheader
  have hmem : ∀ a, a ∈ mid.valSet.addresses ↔ a ∈ s.valSet.addresses := by
    intro a
    rw [hsame]
    exact mem_copy P s a
  have hperm : mid.valSet.addresses.Perm s.valSet.addresses := by
    rw [hsame]
    exact s.valSet.copy_addresses P
  have hmidNodup := hperm.nodup_iff.mpr hdistinct
  have hsize : mid.valSet.size = s.valSet.size := by
    rw [← ValidatorSet.length_addresses, hperm.length_eq, ValidatorSet.length_addresses]
  refine ⟨validator, mid, hrecover, hrec, hmid, hmem, fun a => ?_⟩
  have hchanges := settledSet_changes P hmidNodup header.coinbase a
  rw [← hset, hmem a, hsize] at hchanges
  rw [hmid.length_holders hmidNodup]
  refine hchanges.trans ?_
  constructor
  · rintro ⟨rfl, hpass⟩
    exact ⟨rfl, hpass⟩
  · rintro ⟨rfl, hpass⟩
    exact ⟨rfl, hpass⟩

/-! ### The last validator -/

/-- A header that leaves no validator is the vote of the only one against itself. -/
theorem Sound.last_validator (h : s.Sound) (happly : s.applyHeader P recentAddresses header = (.ok t, recentAddresses'))
    (hempty : t.valSet.addresses = []) : s.valSet.addresses = [header.coinbase] ∧
      ecrecover P recentAddresses header = (.ok header.coinbase, recentAddresses') ∧
      voteOfNonce header.nonce = some false := by
  obtain ⟨validator, mid, hrecover, hval, -, hmid, hsame, -, hset, hvote⟩ := h.applyHeader happly
  rw [hset, settledSet] at hempty
  split_ifs at hempty with hpass hmem
  · -- the coinbase was removed, and nothing is left
    rw [(ValidatorSet.removeValidator_of_mem hmem).2, hsame] at hempty
    rw [hsame] at hmem hpass
    have hone : s.valSet.addresses = [header.coinbase] := by
      have hperm := perm_cons_erase hmem
      rw [hempty] at hperm
      exact perm_singleton.mp hperm
    have hsigner : validator = header.coinbase := by
      rw [hone] at hval
      exact mem_singleton.mp hval
    -- the votes that removed it are its own
    have hpos : 0 < votesOn mid.votes header.coinbase := by omega
    obtain ⟨vote, hvote', haddr⟩ := countP_pos_iff.mp hpos
    rw [decide_eq_true_eq] at haddr
    have hvoter := hmid.voters vote hvote'
    rw [hsame, hone, mem_singleton] at hvoter
    have hballot : (validator, header.coinbase) ∈ mid.votes.map ballot :=
      mem_map.mpr ⟨vote, hvote', by rw [ballot, hvoter, haddr, hsigner]⟩
    refine ⟨hone, by rw [hrecover, hsigner], ?_⟩
    rw [hvote hballot, Snapshot.direction, hone]
    simp
  · rw [← length_eq_zero_iff, (ValidatorSet.addValidator_of_notMem P hmem).length_eq] at hempty
    simp at hempty
  · rw [hsame] at hempty
    rw [hempty] at hval
    cases hval

theorem apply_of_append {header : Header}
    (h : s.apply P recentAddresses (headers ++ [header]) = (.ok t, recentAddresses')) :
    ∃ u v cache, applyHeaders P (s.copy P) recentAddresses headers = (.ok u, cache) ∧
      u.applyHeader P cache header = (.ok v, recentAddresses') ∧ t.valSet = v.valSet ∧
      ∃ t₀, s.apply P recentAddresses headers = (.ok t₀, cache) ∧ t₀.valSet.addresses.Perm u.valSet.addresses := by
  rcases apply_eq_ok h with ⟨hnil, -⟩ | ⟨hne, hchain, hfirst, w, hloop, rfl⟩
  · simp at hnil
  rw [applyHeaders_append] at hloop
  rcases hrun : applyHeaders P (s.copy P) recentAddresses headers with ⟨err | u, cache⟩
  · rw [hrun] at hloop
    cases (Prod.mk.inj hloop).1
  rw [hrun] at hloop
  obtain ⟨v, cache', hheader, hrest⟩ := applyHeaders_cons_eq_ok hloop
  obtain ⟨hok, rfl⟩ := Prod.mk.inj hrest
  obtain rfl := Except.ok.inj hok
  refine ⟨u, v, cache, rfl, hheader, rfl, ?_⟩
  cases headers with
  | nil =>
    obtain ⟨hok, rfl⟩ := Prod.mk.inj hrun
    cases hok
    exact ⟨s, rfl, (s.valSet.copy_addresses P).symm⟩
  | cons first =>
    have hfirst' : uint64 first.number = (s.number + 1) % 2 ^ 64 := by simpa using hfirst
    exact ⟨_, apply_of_loop (by simp) hchain.left_of_append hfirst' hrun, Perm.refl _⟩

/-- **Validators remain.** However the validators vote, the set that headers leave of a non-empty one
is not empty, unless the last header is the vote of the only validator against itself. -/
theorem validators_remain (P : Primitives) (epoch : ℕ) (hash : Hash) (addrs : List Address)
    (policy : ProposerPolicy) (hne : addrs ≠ []) {hs : List Header} {s : Snapshot}
    (h : Applied P (newSnapshot epoch 0 hash (ValidatorSet.newSet P addrs policy)) hs s) :
    s.valSet.addresses ≠ [] ∨ ∃ hs₀ header t cache, hs = hs₀ ++ [header] ∧
      Applied P (newSnapshot epoch 0 hash (ValidatorSet.newSet P addrs policy)) hs₀ t ∧
      t.valSet.addresses = [header.coinbase] ∧ (ecrecover P cache header).1 = .ok header.coinbase ∧
      voteOfNonce header.nonce = some false := by
  obtain ⟨g, hg⟩ : ∃ g, g = newSnapshot epoch 0 hash (ValidatorSet.newSet P addrs policy) := ⟨_, rfl⟩
  have hgsound : g.Sound := by
    rw [hg]
    exact sound_of_nil rfl rfl
  have hgne : g.valSet.addresses ≠ [] := by
    rw [hg]
    intro hempty
    have hperm := ValidatorSet.newSet_addresses P addrs policy
    rw [show (ValidatorSet.newSet P addrs policy).addresses = [] from hempty] at hperm
    exact hne hperm.nil_eq.symm
  rw [← hg] at h ⊢
  induction h with
  | nil => exact .inl hgne
  | @apply hs headers s t recentAddresses recentAddresses' hs' happly ih =>
    rcases eq_nil_or_concat headers with rfl | ⟨headers, header, rfl⟩
    · rcases apply_eq_ok happly with ⟨-, rfl, -⟩ | ⟨hne, -⟩
      · rw [append_nil]
        exact ih
      · exact absurd rfl hne
    · rw [concat_eq_append] at happly ⊢
      obtain ⟨u, v, cache, hloop, hheader, hvalSet, t₀, ht₀, hperm⟩ := apply_of_append happly
      by_cases hempty : t.valSet.addresses = []
      · right
        have hu : u.Sound := applyHeaders_invariant (fun s cache header t cache' hs happly => by
          obtain ⟨-, -, -, -, -, -, -, hsound, -, -⟩ := hs.applyHeader happly
          exact hsound) ((hs'.sound hgsound).copy P) hloop
        rw [hvalSet] at hempty
        obtain ⟨hone, hrecover, hnonce⟩ := hu.last_validator hheader hempty
        rw [hone] at hperm
        refine ⟨hs ++ headers, header, t₀, cache, by rw [append_assoc], hs'.apply ht₀,
          perm_singleton.mp hperm, by rw [hrecover], hnonce⟩
      · exact .inl hempty

end Snapshot

namespace Sample

open Snapshot

attribute [local instance] keccak

def voteHeader (number : ℤ) (signer address : Address) (authorize : Bool) : Header :=
  let h := { header 0 number [1, 2, 3, 4] with
    coinbase := address
    nonce := if authorize then 0xffffffffffffffff else 0 }
  (writeSeal h (Istanbul.Sample.sign signer (hashBytes (sigHash h)))).toOption.getD h

def genesis (addrs : List Address) : Snapshot :=
  newSnapshot 30000 0 0 (ValidatorSet.newSet Istanbul.Sample.primitives addrs .roundRobin)

/-- Validators 1 and 2 vote for 5, which needs three votes; then 1, 2 and 3 drop 4. -/
def dropFour : List Header :=
  [voteHeader 1 1 5 true, voteHeader 2 2 5 true, voteHeader 3 1 4 false, voteHeader 4 2 4 false, voteHeader 5 3 4 false]

theorem applied_dropFour :
    ∃ s, Applied Istanbul.Sample.primitives (genesis [1, 2, 3, 4]) dropFour s ∧ s.valSet.addresses = [1, 2, 3] := by
  have hok : (((genesis [1, 2, 3, 4]).apply Istanbul.Sample.primitives (fun _ => none) dropFour).1.map fun s =>
      s.valSet.addresses) = .ok [1, 2, 3] := by decide +kernel
  rcases happly : (genesis [1, 2, 3, 4]).apply Istanbul.Sample.primitives (fun _ => none) dropFour with
    ⟨err | s, cache⟩ <;> rw [happly] at hok
  · cases hok
  · exact ⟨s, .apply .nil happly, Except.ok.inj hok⟩

theorem votes_sound_dropFour : ∃ s, Applied Istanbul.Sample.primitives (genesis [1, 2, 3, 4]) dropFour s ∧ s.Sound := by
  obtain ⟨s, hs, -⟩ := applied_dropFour
  exact ⟨s, hs, (votes_sound Istanbul.Sample.primitives 30000 0 [1, 2, 3, 4] .roundRobin (by decide) hs).1⟩

/-- Two of the three validators that are left want 5, and a header on another address does not add it. -/
theorem majority_waits :
    (((genesis [1, 2, 3, 4]).apply Istanbul.Sample.primitives (fun _ => none) dropFour).1.map fun s =>
        (s.valSet.addresses, s.holders 5)) = .ok ([1, 2, 3], [1, 2]) ∧
      (((genesis [1, 2, 3, 4]).apply Istanbul.Sample.primitives (fun _ => none)
        (dropFour ++ [voteHeader 6 3 0 false])).1.map fun s => (s.valSet.addresses, s.holders 5))
        = .ok ([1, 2, 3], [1, 2]) := by
  decide +kernel

theorem validators_remain_dropFour :
    ∃ s, Applied Istanbul.Sample.primitives (genesis [1, 2, 3, 4]) dropFour s ∧ s.valSet.addresses ≠ [] := by
  obtain ⟨s, hs, haddresses⟩ := applied_dropFour
  refine ⟨s, hs, ?_⟩
  rcases validators_remain Istanbul.Sample.primitives 30000 0 [1, 2, 3, 4] .roundRobin (by decide) hs with
    hne | ⟨hs₀, header, t, cache, hlast, -, -, -, hnonce⟩
  · exact hne
  · rw [haddresses]
    decide

/-- The only validator drops itself. -/
theorem last_validator_drops_itself :
    ((genesis [1]).apply Istanbul.Sample.primitives (fun _ => none) [voteHeader 1 1 1 false]).1.map
      (fun s => s.valSet.addresses) = .ok [] := by
  decide +kernel

end Sample

end GoWanchain.Backend
