import GoWanchain.Istanbul.Network

/-!
# Committed seals

`verifyCommittedSeals` of `backend/engine.go`, and whether the seals that a core hands to
`backend.Commit` pass it. `handleCommit` compares the subject of a COMMIT and never looks at its seal,
so a seal that does not verify is collected with the others; the seals pass as long as every COMMIT
for the current subject carries a seal of its sender over the block.
-/

namespace GoWanchain.Istanbul

open Core List

/-! ### The check -/

/-- The errors of `verifyCommittedSeals`; the first two come from the code it calls. -/
inductive SealErr
  | snapshot
  | extra
  | emptyCommittedSeals
  | invalidSignature
  | invalidCommittedSeals
deriving DecidableEq

/-- What the check reads of a header. `Header.Hash` leaves the committed seals out, so `hash` is the
hash of the proposal that was sealed; the seals are what `ExtractIstanbulExtra` finds. -/
structure SealedHeader where
  number : ℕ
  hash : Hash
  committedSeal : Except SealErr (List Bytes)

def countSeals (P : Primitives) (proposalSeal : Bytes) : ValidatorSet → ℕ → List Bytes → Except SealErr ℕ
  | _, validSeal, [] => .ok validSeal
  | validators, validSeal, sealBytes :: rest =>
    match P.recover proposalSeal sealBytes with
    | none => .error .invalidSignature
    | some addr =>
      if (validators.removeValidator addr).2 then
        countSeals P proposalSeal (validators.removeValidator addr).1 (validSeal + 1) rest
      else .error .invalidCommittedSeals

def verifyCommittedSeals (P : Primitives) (snap : Except SealErr ValidatorSet) (header : SealedHeader) :
    Except SealErr Unit :=
  if uint64 header.number = 0 then .ok ()
  else match snap with
    | .error err => .error err
    | .ok valSet =>
      match header.committedSeal with
      | .error err => .error err
      | .ok seals =>
        if seals = [] then .error .emptyCommittedSeals
        else match countSeals P (prepareCommittedSeal header.hash) (valSet.copy P) 0 seals with
          | .error err => .error err
          | .ok validSeal =>
            if (validSeal : ℤ) ≤ 2 * valSet.F then .error .invalidCommittedSeals else .ok ()

/-- Every seal is that of a validator over the block of hash `h`, no two are of one validator, and
there are more than `2 F`. -/
structure SealedBy (P : Primitives) (vs : ValidatorSet) (h : Hash) (seals : List Bytes) : Prop where
  signed : ∀ s ∈ seals, ∃ a ∈ vs.addresses, P.recover (prepareCommittedSeal h) s = some a
  distinct : (seals.map (P.recover (prepareCommittedSeal h))).Nodup
  quorum : 2 * vs.F < (seals.length : ℤ)

variable {P : Primitives} {vs : ValidatorSet} {h : Hash} {seals : List Bytes}

theorem countSeals_eq_ok {proposalSeal : Bytes} (validSeal : ℕ)
    (hsigned : ∀ s ∈ seals, ∃ a ∈ vs.addresses, P.recover proposalSeal s = some a)
    (hdistinct : (seals.map (P.recover proposalSeal)).Nodup) :
    countSeals P proposalSeal vs validSeal seals = .ok (validSeal + seals.length) := by
  induction seals generalizing vs validSeal with
  | nil => rfl
  | cons s _ ih =>
    obtain ⟨a, ha, hrecover⟩ := hsigned s mem_cons_self
    obtain ⟨hremoved, herase⟩ := ValidatorSet.removeValidator_of_mem ha
    rw [map_cons, nodup_cons] at hdistinct
    simp only [countSeals, hrecover, hremoved, if_true]
    rw [ih (validSeal + 1) ?_ hdistinct.2, length_cons]
    · congr 1
      omega
    · -- another seal is of another validator, which is still in the set
      intro s' hs'
      obtain ⟨b, hb, hrecover'⟩ := hsigned s' (mem_cons_of_mem _ hs')
      have hne : b ≠ a := by
        rintro rfl
        exact hdistinct.1 (mem_map.mpr ⟨s', hs', hrecover'.trans hrecover.symm⟩)
      exact ⟨b, herase ▸ (mem_erase_of_ne hne).mpr hb, hrecover'⟩

theorem of_countSeals_eq_ok {proposalSeal : Bytes} {validSeal n : ℕ} (hnodup : vs.addresses.Nodup)
    (h : countSeals P proposalSeal vs validSeal seals = .ok n) :
    n = validSeal + seals.length ∧ (∀ s ∈ seals, ∃ a ∈ vs.addresses, P.recover proposalSeal s = some a) ∧
      (seals.map (P.recover proposalSeal)).Nodup := by
  induction seals generalizing vs validSeal with
  | nil =>
    cases h
    exact ⟨rfl, by simp, by simp⟩
  | cons s _ ih =>
    rw [countSeals] at h
    cases hrecover : P.recover proposalSeal s with
    | none =>
      rw [hrecover] at h
      cases h
    | some a =>
      simp only [hrecover] at h
      by_cases ha : a ∈ vs.addresses
      swap
      · rw [ValidatorSet.removeValidator, if_neg ha] at h
        cases h
      obtain ⟨hremoved, herase⟩ := ValidatorSet.removeValidator_of_mem ha
      rw [if_pos hremoved] at h
      obtain ⟨hn, hsigned, hdistinct⟩ := ih (by rw [herase]; exact hnodup.erase a) h
      rw [herase] at hsigned
      refine ⟨by rw [hn, length_cons]; omega, ?_, ?_⟩
      · intro s' hs'
        rcases mem_cons.mp hs' with rfl | hs'
        · exact ⟨a, ha, hrecover⟩
        · obtain ⟨b, hb, hrecover'⟩ := hsigned s' hs'
          exact ⟨b, mem_of_mem_erase hb, hrecover'⟩
      · -- the validator of the first seal is no longer in the set
        rw [map_cons, nodup_cons]
        refine ⟨fun hmem => ?_, hdistinct⟩
        obtain ⟨s', hs', heq⟩ := mem_map.mp hmem
        obtain ⟨b, hb, hrecover'⟩ := hsigned s' hs'
        rw [hrecover, hrecover', Option.some.injEq] at heq
        exact hnodup.not_mem_erase (heq ▸ hb)

theorem SealedBy.verify (hs : SealedBy P vs h seals) (hvs : vs.addresses ≠ []) (number : ℕ) :
    verifyCommittedSeals P (.ok vs) ⟨number, h, .ok seals⟩ = .ok () := by
  have hF := ValidatorSet.F_nonneg hvs
  have hquorum := hs.quorum
  have hne : seals ≠ [] := by
    rintro rfl
    rw [length_nil] at hquorum
    omega
  have hcount : countSeals P (prepareCommittedSeal h) (vs.copy P) 0 seals = .ok (0 + seals.length) := by
    apply countSeals_eq_ok 0 _ hs.distinct
    intro s hmem
    obtain ⟨a, ha, hrecover⟩ := hs.signed s hmem
    exact ⟨a, (vs.copy_addresses P).mem_iff.mpr ha, hrecover⟩
  unfold verifyCommittedSeals
  by_cases hzero : uint64 number = 0
  · rw [if_pos hzero]
  · simp only [if_neg hzero, if_neg hne, hcount]
    rw [if_neg]
    omega

theorem SealedBy.perm {seals' : List Bytes} (hs : SealedBy P vs h seals) (hperm : seals'.Perm seals) :
    SealedBy P vs h seals' where
  signed s hmem := hs.signed s (hperm.mem_iff.mp hmem)
  distinct := (hperm.map _).nodup_iff.mpr hs.distinct
  quorum := by
    rw [hperm.length_eq]
    exact hs.quorum

/-! ### The seals of a decided block -/

/-- A COMMIT whose seal is that of its sender, over the block that the COMMIT is for. -/
def SealFits (P : Primitives) (m : Message) : Prop :=
  m.code = msgCommit → ∀ sub ∈ P.decodeSubject m.msg,
    P.recover (prepareCommittedSeal sub.digest) m.copiedSeal = some m.address

/-- If the event dispatches a COMMIT for the current subject, then its seal is that of its sender over
the block. -/
def SealsFit (P : Primitives) (_ : Backend) (v : Voter) (inp : Option (Message × Validator)) : Prop :=
  ∀ e ∈ inp, P.decodeSubject e.1.msg = v.current.subject P → SealFits P e.1

/-- The same, for a core that has validators. -/
def SealsFitIn (P : Primitives) (c : Core) (x : Input) : Prop :=
  c.valSet.addresses ≠ [] ∧ SealsFit P x.1 c.toVoter (dispatch P c x.2)

instance (P : Primitives) (m : Message) : Decidable (SealFits P m) :=
  inferInstanceAs (Decidable (m.code = msgCommit → ∀ sub ∈ P.decodeSubject m.msg, _))

instance (P : Primitives) (c : Core) (x : Input) : Decidable (SealsFitIn P c x) :=
  inferInstanceAs (Decidable (c.valSet.addresses ≠ [] ∧ ∀ e ∈ dispatch P c x.2, _))

variable {B : Backend} {v₀ v v' : Voter} {inp : Option (Message × Validator)}

theorem tallies_sealFits_move (H : v.Tallies P (SealFits P)) (hC : SealsFit P B v₀ inp)
    (hmove : Move P B v₀ inp v v') : v'.Tallies P (SealFits P) := by
  refine H.move (fun msg src hinp hcounts hcode => ?_) hmove
  rcases hcounts with ⟨hprepare, -⟩ | ⟨-, hsub⟩ | ⟨hroundChange, -⟩
  · exact absurd (hcode.symm.trans hprepare) (by decide)
  · exact hC (msg, src) hinp hsub hcode
  · exact absurd (hcode.symm.trans hroundChange) (by decide)

theorem Voter.Tallies.sealedBy (H : v.Tallies P (SealFits P)) {p : Block}
    (hc : v.Commits v₀ p seals) : SealedBy P v₀.valSet (P.hash p) seals := by
  obtain ⟨pp, hpp, rfl⟩ := hc.proposal
  obtain rfl := hc.seals_eq
  have hfits : ∀ a m, v.current.commits.messages.lookup a = some m → a ∈ v.valSet.addresses
      ∧ P.recover (prepareCommittedSeal (P.hash pp.proposal)) m.copiedSeal = some a := by
    intro a m hm
    obtain ⟨rfl, hmem, ⟨hcode, hdec⟩, hfits⟩ := H.commits.mem hm
    rw [RoundState.subject_eq_some.mpr ⟨pp, hpp, rfl⟩] at hdec
    exact ⟨hmem, hfits hcode _ hdec⟩
  refine ⟨fun s hs => ?_, ?_, ?_⟩
  · obtain ⟨m, hm, rfl⟩ := mem_map.mp hs
    obtain ⟨a, ha⟩ := MessageSet.mem_values_iff.mp hm
    exact ⟨a, hc.valSet ▸ (hfits a m ha).1, (hfits a m ha).2⟩
  · -- the seals recover to the keys of the map
    have hkeys : v.committedSeals.map (P.recover (prepareCommittedSeal (P.hash pp.proposal)))
        = v.current.commits.messages.keys.map some := by
      rw [Voter.committedSeals, map_map]
      exact GoMap.map_values_eq fun a m hm => (hfits a m hm).2
    rw [hkeys]
    exact (AList.keys_nodup _).map (Option.some_injective _)
  · rw [Voter.committedSeals, length_map, ← hc.valSet]
    have hlength : v.current.commits.values.length = v.current.commits.size := GoMap.length_values _
    rw [hlength]
    exact hc.quorum

theorem sealedBy_of_advance {c : Core} {x : Input} (H : c.toVoter.Tallies P (SealFits P))
    (hC : SealsFit P x.1 c.toVoter (dispatch P c x.2)) :
    ∃ es, (advance P c x).log = c.log ++ es ∧ ∀ w p seals, (w, Effect.commit p seals) ∈ es →
      SealedBy P c.valSet (P.hash p) seals := by
  let I : Voter → Prop := fun v => v.Tallies P (SealFits P) ∧ ∃ es, v.log = c.log ++ es
    ∧ ∀ w p seals, (w, Effect.commit p seals) ∈ es → SealedBy P c.valSet (P.hash p) seals
  have hstep : ∀ v v', I v → Move P x.1 c.toVoter (dispatch P c x.2) v v' → I v' := by
    rintro v v' ⟨hT, es, hlog, hes⟩ hmove
    obtain ⟨es', hlog', hadds⟩ := hmove.log_append
    refine ⟨tallies_sealFits_move hT hC hmove, es ++ es', ?_, fun w p seals hmem => ?_⟩
    · rw [hlog', hlog, append_assoc]
    · rcases mem_append.mp hmem with hold | hnew
      · exact hes w p seals hold
      · exact hT.sealedBy ((hadds _ hnew).2 p seals rfl).2
  have hstart : I c.toVoter := ⟨H, [], by simp, fun w p seals hmem => absurd hmem (by simp)⟩
  exact (Moves.invariant hstep (step_moves c x.2) hstart).2

/-- **A decided block is sealed.** If every COMMIT handled for the current subject carries its sender's
seal over the block, then whenever an event makes the core call `backend.Commit`, the seals, in any
order, pass `verifyCommittedSeals` against the current validators. -/
theorem decided_block_sealed (P : Primitives) (B₀ : Backend) (a : Address) (l : List Input)
    (h : Run.Along (advance P) (SealsFitIn P) (start P B₀ a) l) : Run.Along (advance P) (fun c x => ∀ w p seals seals',
      (w, Effect.commit p seals) ∈ (advance P c x).log.drop c.log.length → seals'.Perm seals →
        SealedBy P c.valSet (P.hash p) seals'
        ∧ verifyCommittedSeals P (.ok c.valSet) ⟨p.number, P.hash p, .ok seals'⟩ = .ok ())
      (start P B₀ a) l := by
  have hstart : (start P B₀ a).toVoter.Tallies P (SealFits P) := by
    have hmoves : Moves P B₀ (Core.new a).toVoter none (Core.new a).toVoter (start P B₀ a).toVoter :=
      start_moves B₀ a
    refine Moves.invariant (fun v v' H => tallies_sealFits_move H ?_) hmoves (.new a)
    exact fun e he => absurd he (by simp)
  refine h.imp (I := fun c => c.toVoter.Tallies P (SealFits P)) (fun c x H hx => ?_)
    (fun c x H hx w p seals seals' hmem hperm => ?_) hstart
  · exact Moves.invariant (fun v v' H' => tallies_sealFits_move H' hx.2) (step_moves c x.2) H
  · obtain ⟨es, hlog, hsealed⟩ := sealedBy_of_advance H hx.2
    rw [hlog, drop_left] at hmem
    have hperm' := (hsealed w p seals hmem).perm hperm
    exact ⟨hperm', hperm'.verify hx.1 p.number⟩

namespace Sample

theorem decided_block_sealed_decideRun : (afterTwo (decideRun ⟨1, 0, []⟩)).state = .committed
      ∧ Run.Along (advance primitives) (fun c x => ∀ w p seals seals',
        (w, Effect.commit p seals) ∈ (advance primitives c x).log.drop c.log.length →
          seals'.Perm seals → SealedBy primitives c.valSet (hash p) seals'
          ∧ verifyCommittedSeals primitives (.ok c.valSet) ⟨p.number, hash p, .ok seals'⟩ = .ok ())
        two (decideRun ⟨1, 0, []⟩) := by
  have hfits : Run.Along (advance primitives) (SealsFitIn primitives) two (decideRun ⟨1, 0, []⟩) := by
    decide +kernel
  exact ⟨by decide +kernel, decided_block_sealed primitives (backend 4 genesis) 2 _ hfits⟩

/-- Validators 1, 2 and 3 run the core; an event delivers what they broadcast, or a message that
validator 4 signs in its own name. -/
def RelaysOrFour (net : Net) (x : Address × Event) : Prop :=
  x.1 ∈ [1, 2, 3] ∧ ∀ payload ∈ x.2.payload, payload ∈ wire net ∨ ∃ m ∈ messageCode.decode payload, m.address = 4
      ∧ recover (m.payloadNoSig primitives) m.signature = some 4

instance (net : Net) (x : Address × Event) : Decidable (RelaysOrFour net x) :=
  inferInstanceAs (Decidable (x.1 ∈ [1, 2, 3] ∧ ∀ payload ∈ x.2.payload, _))

/-- Validators 1, 2 and 3 prepare a block. Then 2 is given the COMMITs of 1 and of itself, and one of
validator 4 that carries no seal. -/
def noSealRun : List (Address × Event) :=
  let block : Block := ⟨1, 0, []⟩
  let sub : Subject := ⟨⟨0, 1⟩, hash block⟩
  (1, .request (some block)) :: sendTo [1, 2, 3] (preprepareOf 1 ⟨⟨0, 1⟩, block⟩)
    ++ [1, 2, 3].flatMap (fun a => sendTo [1, 2] (prepareOf a sub))
    ++ sendTo [2] (commitOf 1 sub (sign 1 (prepareCommittedSeal (hash block))))
    ++ sendTo [2] (commitOf 2 sub (sign 2 (prepareCommittedSeal (hash block))))
    ++ sendTo [2] (commitOf 4 sub [])

/-- Validator 2 commits, with the seals of 1 and 2 and 65 zeros. -/
theorem commits_unsealed_block :
    Run.Along (fun net x => netStep primitives net (atGenesis x)) RelaysOrFour four noSealRun
      ∧ (afterFour noSealRun 2).valSet.F = 1
      ∧ (⟨0, 1⟩, Effect.commit ⟨1, 0, []⟩ (afterFour noSealRun 2).committedSeals) ∈ (afterFour noSealRun 2).log
      ∧ verifyCommittedSeals primitives (.ok (afterFour noSealRun 2).valSet)
          ⟨1, hash ⟨1, 0, []⟩, .ok (afterFour noSealRun 2).committedSeals⟩
        = .error .invalidSignature := by
  refine ⟨by decide +kernel, ?_, by decide +kernel, ?_⟩
  · rw [ValidatorSet.F_eq]
    decide +kernel
  · decide +kernel

end Sample

end GoWanchain.Istanbul
