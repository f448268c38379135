import GoWanchain.Istanbul.Tallies
import GoWanchain.Istanbul.Sample

/-!
# Whose votes are counted

A vote is counted under the address that the message names, and `FromPayload` drops the address that
the signature check returns: it only has to be some validator's. The votes counted under `a` are
signed by `a` as long as no validator signs a message that names another one.
-/

namespace GoWanchain.Istanbul

open Core

variable {P : Primitives}

def Message.Authentic (P : Primitives) (m : Message) : Prop :=
  P.recover (m.payloadNoSig P) m.signature = some m.address

/-- The payload that an event delivers. -/
def Event.payload : Event → Option Bytes
  | .message payload => some payload
  | _ => none

/-- If a delivered message names a validator and passes the signature check, then the check returns
the address that the message names. -/
def SignerIsSender (P : Primitives) (c : Core) (x : Input) : Prop :=
  ∀ payload ∈ x.2.payload, ∀ m ∈ P.decodeMessage payload, m.address ∈ c.valSet.addresses →
    (checkValidatorSignature P c.valSet (m.payloadNoSig P) m.signature).isOk = true →
    checkValidatorSignature P c.valSet (m.payloadNoSig P) m.signature = .ok m.address

instance (P : Primitives) (c : Core) (x : Input) : Decidable (SignerIsSender P c x) :=
  inferInstanceAs (Decidable (∀ payload ∈ x.2.payload, _))

/-- The sets in which a voter counts votes. -/
def Voter.voteSets (v : Voter) : List MessageSet :=
  v.current.prepares :: v.current.commits :: GoMap.values v.roundChangeSet.roundChanges

theorem fromPayload_eq_ok {valSet : ValidatorSet} {payload : Bytes} {m : Message}
    (h : fromPayload P valSet payload = .ok m) : P.decodeMessage payload = some m
      ∧ (checkValidatorSignature P valSet (m.payloadNoSig P) m.signature).isOk = true := by
  unfold fromPayload at h
  cases hdec : P.decodeMessage payload with
  | none => simp [hdec] at h
  | some m' =>
    rw [hdec] at h
    cases hcheck : checkValidatorSignature P valSet (m'.payloadNoSig P) m'.signature with
    | error => simp [hcheck] at h
    | ok =>
      simp only [hcheck, Except.ok.injEq] at h
      subst h
      exact ⟨rfl, by rw [hcheck]; rfl⟩

theorem checkValidatorSignature_eq_ok {valSet : ValidatorSet} {data sig : Bytes} {a : Address} :
    checkValidatorSignature P valSet data sig = .ok a ↔ P.recover data sig = some a ∧ a ∈ valSet.addresses := by
  unfold checkValidatorSignature
  cases hrec : P.recover data sig with
  | none => simp
  | some signer =>
    dsimp only
    cases hval : valSet.getByAddress signer with
    | none =>
      have hnot := ValidatorSet.getByAddress_eq_none.mp hval
      simp only [reduceCtorEq, Option.some.injEq, false_iff, not_and]
      rintro rfl
      exact hnot
    | some =>
      have haddr := ValidatorSet.getByAddress_address hval
      have hmem := ValidatorSet.mem_of_getByAddress hval
      simp only [haddr, Except.ok.injEq, Option.some.injEq]
      exact ⟨fun h => ⟨h, h ▸ hmem⟩, And.left⟩

/-- What a dispatched message and its sender have in common. -/
def SentBy (P : Primitives) (msg : Message) (src : Validator) : Prop :=
  src.address = msg.address ∧ msg.Authentic P

theorem meets_sentBy {B₀ : Backend} {a : Address} {l : List Input}
    (h : Run.Along (advance P) (SignerIsSender P) (start P B₀ a) l) :
    Meets P (fun _ _ inp => ∀ msg src, inp = some (msg, src) → SentBy P msg src) (start P B₀ a) l := by
  refine meets_of_fresh (fun c x payload m i src hx hev hmsg hsrc => ?_) h
  obtain ⟨hdec, hok⟩ := fromPayload_eq_ok hmsg
  have hnamed := ValidatorSet.mem_of_getByAddress hsrc
  have hpayload : payload ∈ x.2.payload := by
    rw [hev]
    rfl
  have hcheck := hx payload hpayload m hdec hnamed hok
  exact ⟨ValidatorSet.getByAddress_address hsrc, (checkValidatorSignature_eq_ok.mp hcheck).1⟩

theorem run_tallies_authentic {B₀ : Backend} {a : Address} {l : List Input}
    (h : Run.Along (advance P) (SignerIsSender P) (start P B₀ a) l) :
    (Run.run (advance P) (start P B₀ a) l).toVoter.Tallies P (Message.Authentic P) := by
  refine run_invariant (.new a) ?_ (fun B v₀ inp v v' hC H hmove => ?_) (meets_sentBy h)
  · exact fun msg src hinp => absurd hinp (by simp)
  · exact H.move (fun msg src hinp _ => (hC msg src hinp).2) hmove

/-- **No vote is invented.** Whatever a core is given, the votes it counts are for its subject, or for a round of its
sequence, each under its sender, who is one of its validators; and the message came to it in the run. -/
theorem votes_received (P : Primitives) (B₀ : Backend) (a : Address) (l : List Input) :
    (Run.run (advance P) (start P B₀ a) l).toVoter.Tallies P fun m =>
      Run.Sometime (advance P) (fun c x => ∃ src, dispatch P c x.2 = some (m, src)) (start P B₀ a) l := by
  refine run_history (C := fun _ _ _ => True) (I := fun l v => v.Tallies P fun m =>
      Run.Sometime (advance P) (fun c x => ∃ src, dispatch P c x.2 = some (m, src)) (start P B₀ a) l) (.new a)
    (fun v v' H hmove => H.move ?_ hmove) (fun l x v H => H.mono fun m hm => Run.sometime_concat.mpr (.inl hm))
    (fun l x v v' _ H hmove => H.move ?_ hmove) (Run.along_of_forall (fun _ _ => trivial) _ _)
  · exact fun msg src hinp => absurd hinp (by simp)
  · exact fun msg src hinp _ => Run.sometime_concat.mpr (.inr ⟨src, hinp⟩)

theorem Voter.Tallies.voteSets {v : Voter} {A : Message → Prop} (H : v.Tallies P A) {ms : MessageSet}
    (hms : ms ∈ v.voteSets) : ms.Holds v.valSet.addresses A := by
  rcases List.mem_cons.mp hms with rfl | hms
  · exact H.prepares.mono fun m h => h.2
  rcases List.mem_cons.mp hms with rfl | hms
  · exact H.commits.mono fun m h => h.2
  · obtain ⟨k, hk⟩ := GoMap.mem_values.mp hms
    exact (H.roundChanges hk).mono fun m h => h.2

/-- **Message authenticity.** If no delivered message names one validator and is signed by another,
then every message is dispatched under the address that signed it, every vote counted under `a`
carries a signature from which `CheckValidatorSignature` recovers `a`, and `k` votes are signed by
`k` distinct validators. -/
theorem votes_authentic (P : Primitives) (B₀ : Backend) (a : Address) (l : List Input)
    (h : Run.Along (advance P) (SignerIsSender P) (start P B₀ a) l) :
    Run.Along (advance P) (fun c x => ∀ msg src, dispatch P c x.2 = some (msg, src) →
        P.recover (msg.payloadNoSig P) msg.signature = some src.address) (start P B₀ a) l
      ∧ ∀ ms ∈ (Run.run (advance P) (start P B₀ a) l).voteSets,
        (∀ sender m, ms.get sender = some m → checkValidatorSignature P
          (Run.run (advance P) (start P B₀ a) l).valSet (m.payloadNoSig P) m.signature = .ok sender)
        ∧ ∃ signers : Finset Address, signers.card = ms.size ∧ ∀ signer ∈ signers, ∃ m ∈ ms.values,
          P.recover (m.payloadNoSig P) m.signature = some signer := by
  have hmeets := meets_sentBy h
  refine ⟨?_, fun ms hms => ?_⟩
  · refine hmeets.mono fun c x hx msg src hd => ?_
    obtain ⟨hsrc, hauth⟩ := hx msg src hd
    rw [hsrc]
    exact hauth
  · have hholds := (run_tallies_authentic h).voteSets hms
    refine ⟨fun sender m hm => ?_, ms.senders, ms.card_senders, fun signer hsigner => ?_⟩
    · obtain ⟨rfl, hmem, hauth⟩ := hholds.mem hm
      exact checkValidatorSignature_eq_ok.mpr ⟨hauth, hmem⟩
    · obtain ⟨m, hm⟩ := MessageSet.mem_senders.mp hsigner
      obtain ⟨rfl, -, hauth⟩ := hholds.mem hm
      exact ⟨m, MessageSet.mem_values_iff.mpr ⟨_, hm⟩, hauth⟩

section Sample

open Sample

theorem votes_authentic_decideRun : (afterTwo (decideRun ⟨1, 0, []⟩)).current.commits.size = 3
      ∧ ∀ ms ∈ (afterTwo (decideRun ⟨1, 0, []⟩)).voteSets, ∃ signers : Finset Address,
        signers.card = ms.size ∧ ∀ signer ∈ signers, ∃ m ∈ ms.values,
          primitives.recover (m.payloadNoSig primitives) m.signature = some signer := by
  have hsigners : Run.Along (advance primitives) (SignerIsSender primitives) two
      (decideRun ⟨1, 0, []⟩) := by decide +kernel
  refine ⟨by decide +kernel, fun ms hms => ?_⟩
  exact ((votes_authentic primitives (backend 4 genesis) 2 _ hsigners).2 ms hms).2

/-- Validator 4 sends a round change vote in the name of 1 and one in the name of 3. -/
def otherNamesRun : List Input :=
  [1, 3].map fun a =>
    (backend 4 genesis, deliver (signedAs 4 a msgRoundChange (subjectCode.enc ⟨⟨1, 1⟩, 0⟩) []))

/-- Both are counted, although the only signer is 4. -/
theorem counts_votes_of_other_names : ((afterTwo otherNamesRun).roundChangeSet.votes 1).size = 2
      ∧ ((afterTwo otherNamesRun).roundChangeSet.votes 1).values.map (fun m =>
        checkValidatorSignature primitives (afterTwo otherNamesRun).valSet
          (m.payloadNoSig primitives) m.signature) = [.ok 4, .ok 4]
      ∧ ((afterTwo otherNamesRun).roundChangeSet.votes 1).messages.keys = [3, 1] := by
  decide +kernel

end Sample

end GoWanchain.Istanbul
