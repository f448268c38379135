import GoWanchain.Backend.Snapshot
import GoWanchain.Lib.Guard

/-!
# Snapshots that agree

Two snapshots agree if they have the same validators, votes and tally at the same block. They may still
differ in the order of the tally, which is a Go map, and in the proposer of the set, which `copy` and a load
from disk set to the first validator and which voting never reads.
-/

namespace GoWanchain.Backend

open Types
open State (Keccak)
open Istanbul (Primitives ValidatorSet)

namespace Snapshot

/-- The same validators, votes and tally. -/
structure Agrees (s t : Snapshot) : Prop where
  epoch : s.epoch = t.epoch
  votes : s.votes = t.votes
  tally : ∀ a, s.tally.lookup a = t.tally.lookup a
  validators : s.valSet.validators = t.valSet.validators
  policy : s.valSet.policy = t.valSet.policy

/-- They agree at the same block. -/
structure SameAs (s t : Snapshot) : Prop extends s.Agrees t where
  number : s.number = t.number
  hash : s.hash = t.hash

theorem Agrees.refl (s : Snapshot) : s.Agrees s := ⟨rfl, rfl, fun _ => rfl, rfl, rfl⟩

theorem SameAs.refl (s : Snapshot) : s.SameAs s := ⟨.refl s, rfl, rfl⟩

theorem SameAs.symm {s t : Snapshot} (h : s.SameAs t) : t.SameAs s :=
  ⟨⟨h.epoch.symm, h.votes.symm, fun a => (h.tally a).symm, h.validators.symm, h.policy.symm⟩, h.number.symm,
    h.hash.symm⟩

theorem SameAs.trans {s t u : Snapshot} (h : s.SameAs t) (h' : t.SameAs u) : s.SameAs u :=
  ⟨⟨h.epoch.trans h'.epoch, h.votes.trans h'.votes, fun a => (h.tally a).trans (h'.tally a),
    h.validators.trans h'.validators, h.policy.trans h'.policy⟩, h.number.trans h'.number, h.hash.trans h'.hash⟩

end Snapshot

/-- Both fail with the same error, or both succeed with snapshots that are related. -/
inductive Outcomes (R : Snapshot → Snapshot → Prop) : Except Err Snapshot → Except Err Snapshot → Prop
  | error (err : Err) : Outcomes R (.error err) (.error err)
  | ok {s t : Snapshot} : R s t → Outcomes R (.ok s) (.ok t)

variable {R : Snapshot → Snapshot → Prop} {r r' : Except Err Snapshot}

theorem Outcomes.of_ok {s : Snapshot} (h : Outcomes R (.ok s) r) : ∃ t, r = .ok t ∧ R s t := by
  cases h with
  | ok h => exact ⟨_, rfl, h⟩

theorem Outcomes.of_error {err : Err} (h : Outcomes R (.error err) r) : r = .error err := by
  cases h with
  | error => rfl

open Snapshot (SameAs)

theorem Outcomes.symm (h : Outcomes SameAs r r') : Outcomes SameAs r' r := by
  cases h with
  | error err => exact .error err
  | ok h => exact .ok h.symm

theorem Outcomes.trans {r'' : Except Err Snapshot} (h : Outcomes SameAs r r')
    (h' : Outcomes SameAs r' r'') : Outcomes SameAs r r'' := by
  cases h with
  | error => exact h'
  | ok h =>
    cases h' with
    | ok h' => exact .ok (h.trans h')

theorem Outcomes.bind {R' : Snapshot → Snapshot → Prop} (h : Outcomes R r r')
    {f g : Snapshot → Except Err Snapshot} (hfg : ∀ s t, R s t → Outcomes R' (f s) (g t)) :
    Outcomes R' (r >>= f) (r' >>= g) := by
  cases h with
  | error err => exact .error err
  | ok h => exact hfg _ _ h

theorem Outcomes.map {R' : Snapshot → Snapshot → Prop} (h : Outcomes R r r')
    {f g : Snapshot → Snapshot} (hfg : ∀ s t, R s t → R' (f s) (g t)) : Outcomes R' (r.map f) (r'.map g) := by
  cases h with
  | error err => exact .error err
  | ok h => exact .ok (hfg _ _ h)

namespace Snapshot

/-! ### Voting does not tell them apart -/

section Voting

variable {s t : Snapshot}

section

variable (h : s.Agrees t)

include h

theorem Agrees.addresses : s.valSet.addresses = t.valSet.addresses := by
  rw [ValidatorSet.addresses, h.validators, ValidatorSet.addresses]

theorem Agrees.getByAddress (a : Address) : s.valSet.getByAddress a = t.valSet.getByAddress a := by
  rw [ValidatorSet.getByAddress, h.validators, ValidatorSet.getByAddress]

theorem Agrees.insert (a : Address) (e : Tally) :
    Agrees { s with tally := s.tally.insert a e } { t with tally := t.tally.insert a e } where
  epoch := h.epoch
  votes := h.votes
  tally b := by
    by_cases hb : b = a
    · rw [hb, AList.lookup_insert, AList.lookup_insert]
    · rw [AList.lookup_insert_ne hb, AList.lookup_insert_ne hb, h.tally b]
  validators := h.validators
  policy := h.policy

theorem Agrees.erase (a : Address) :
    Agrees { s with tally := s.tally.erase a } { t with tally := t.tally.erase a } where
  epoch := h.epoch
  votes := h.votes
  tally b := by
    by_cases hb : b = a
    · rw [hb, AList.lookup_erase, AList.lookup_erase]
    · rw [AList.lookup_erase_ne hb, AList.lookup_erase_ne hb, h.tally b]
  validators := h.validators
  policy := h.policy

theorem Agrees.withVotes (votes : List Vote) : Agrees { s with votes } { t with votes } :=
  { h with votes := rfl }

theorem Agrees.cast (a : Address) (authorize : Bool) :
    (s.cast a authorize).2 = (t.cast a authorize).2 ∧ (s.cast a authorize).1.Agrees (t.cast a authorize).1 := by
  have hcheck : s.checkVote a authorize = t.checkVote a authorize := by
    rw [checkVote, h.getByAddress, checkVote]
  rw [Snapshot.cast, Snapshot.cast, hcheck, h.tally a]
  split_ifs
  · exact ⟨rfl, h⟩
  · cases t.tally.lookup a with
    | none | some => exact ⟨rfl, h.insert a _⟩

theorem Agrees.uncast (a : Address) (authorize : Bool) : (s.uncast a authorize).1.Agrees (t.uncast a authorize).1 := by
  rw [Snapshot.uncast, Snapshot.uncast, h.tally a]
  cases t.tally.lookup a with
  | none => exact h
  | some =>
    simp only []
    split_ifs
    · exact h
    · exact h.insert a _
    · exact h.erase a

theorem Agrees.foldl_uncast (l : List Vote) :
    Agrees (l.foldl (fun s vote => (s.uncast vote.address vote.authorize).1) s)
      (l.foldl (fun s vote => (s.uncast vote.address vote.authorize).1) t) := by
  induction l generalizing s t with
  | nil => exact h
  | cons vote _ ih => exact ih (h.uncast vote.address vote.authorize)

theorem Agrees.discardVote (validator a : Address) :
    (s.discardVote validator a).Agrees (t.discardVote validator a) := by
  rw [Snapshot.discardVote, Snapshot.discardVote, h.votes]
  cases t.votes.find? (Vote.isOf validator a) with
  | none => exact h
  | some vote => exact (h.uncast vote.address vote.authorize).withVotes _

theorem Agrees.discardVotesOf (validator : Address) :
    (s.discardVotesOf validator).Agrees (t.discardVotesOf validator) := by
  rw [Snapshot.discardVotesOf, Snapshot.discardVotesOf, h.votes]
  exact (h.foldl_uncast _).withVotes _

theorem Agrees.recordVote (validator : Address) (header : Header) :
    Outcomes Agrees (s.recordVote validator header) (t.recordVote validator header) := by
  have hdiscard := h.discardVote validator header.coinbase
  rw [Snapshot.recordVote, Snapshot.recordVote]
  cases voteOfNonce header.nonce with
  | none => exact .error _
  | some authorize =>
    obtain ⟨hok, hcast⟩ := hdiscard.cast header.coinbase authorize
    simp only []
    rcases hs : (s.discardVote validator header.coinbase).cast header.coinbase authorize with ⟨u, ok⟩
    rcases ht : (t.discardVote validator header.coinbase).cast header.coinbase authorize with ⟨v, ok'⟩
    rw [hs, ht] at hok hcast
    replace hok : ok = ok' := hok
    replace hcast : u.Agrees v := hcast
    refine .ok ?_
    rw [hok, hcast.votes]
    split_ifs
    · exact hcast.withVotes _
    · exact hcast

end

theorem Agrees.settle (P : Primitives) (h : s.Agrees t) (a : Address) : (s.settle P a).Agrees (t.settle P a) := by
  have hadd : Agrees { s with valSet := (s.valSet.addValidator P a).1 }
      { t with valSet := (t.valSet.addValidator P a).1 } := by
    rw [ValidatorSet.addValidator, ValidatorSet.addValidator, h.addresses, h.validators]
    split_ifs
    · exact h
    · exact { h with validators := rfl }
  have hremove : Agrees { s with valSet := (s.valSet.removeValidator a).1 }
      { t with valSet := (t.valSet.removeValidator a).1 } := by
    rw [ValidatorSet.removeValidator, ValidatorSet.removeValidator, h.addresses, h.validators]
    split_ifs
    · exact { h with validators := rfl }
    · exact h
  rw [Snapshot.settle, Snapshot.settle, h.tally a, ValidatorSet.size, h.validators, ValidatorSet.size]
  by_cases hpassed : ((t.tally.lookup a).getD ⟨false, 0⟩).votes > t.valSet.validators.length / 2
  swap
  · simp only [hpassed, if_false]
    exact h
  cases ((t.tally.lookup a).getD ⟨false, 0⟩).authorize with
  | false =>
    have hdiscard := hremove.discardVotesOf a
    simp only [hpassed, if_true, Bool.false_eq_true, if_false, hdiscard.votes]
    exact (hdiscard.erase a).withVotes _
  | true =>
    simp only [hpassed, if_true, h.votes]
    exact (hadd.erase a).withVotes _

theorem Agrees.resetAt (h : s.Agrees t) (number : ℕ) : (s.resetAt number).Agrees (t.resetAt number) := by
  have hmod : number % s.epoch = number % t.epoch := by rw [h.epoch]
  rw [Snapshot.resetAt, Snapshot.resetAt, hmod]
  split_ifs
  · exact { h with votes := rfl, tally := fun _ => rfl }
  · exact h

end Voting

/-! ### One header -/

/-- `applyHeader` once the signer is known. -/
def applySigned (P : Primitives) (s : Snapshot) (signer : Except Err Address) (header : Header) : Except Err Snapshot :=
  if s.epoch = 0 then .error .panic
  else
    match signer with
    | .error err => .error err
    | .ok validator =>
      match s.valSet.getByAddress validator with
      | none => .error .unauthorized
      | some _ =>
        match (s.resetAt (uint64 header.number)).recordVote validator header with
        | .error err => .error err
        | .ok s => .ok (s.settle P header.coinbase)

theorem Agrees.applySigned {P : Primitives} {s t : Snapshot} (h : s.Agrees t)
    (signer : Except Err Address) (header : Header) :
    Outcomes Agrees (s.applySigned P signer header) (t.applySigned P signer header) := by
  rw [applySigned.eq_def, applySigned.eq_def, h.epoch]
  split_ifs
  · exact .error _
  cases signer with
  | error err => exact .error err
  | ok validator =>
    simp only [h.getByAddress validator]
    cases t.valSet.getByAddress validator with
    | none => exact .error _
    | some =>
      have hrecord := (h.resetAt (uint64 header.number)).recordVote validator header
      simp only []
      generalize (s.resetAt (uint64 header.number)).recordVote validator header = r at hrecord ⊢
      generalize (t.resetAt (uint64 header.number)).recordVote validator header = r' at hrecord ⊢
      cases hrecord with
      | error err => exact .error err
      | ok h => exact .ok (h.settle P header.coinbase)

theorem applySigned_base {P : Primitives} {s t : Snapshot} {signer : Except Err Address} {header : Header}
    (h : s.applySigned P signer header = .ok t) :
    t.epoch = s.epoch ∧ t.number = s.number ∧ (s.valSet.Canonical P → t.valSet.Canonical P) := by
  rw [applySigned.eq_def] at h
  split_ifs at h
  cases signer with
  | error => cases h
  | ok validator =>
    simp only [] at h
    cases hget : s.valSet.getByAddress validator with
    | none =>
      rw [hget] at h
      cases h
    | some =>
      rw [hget] at h
      cases hrec : (s.resetAt (uint64 header.number)).recordVote validator header with
      | error =>
        rw [hrec] at h
        cases h
      | ok mid =>
        rw [hrec] at h
        cases h
        have hmid := (base_recordVote hrec).trans (s.base_resetAt _)
        obtain ⟨valSet, hbase, hcases⟩ := mid.settle_base P header.coinbase
        simp only [base, Prod.mk.injEq] at hmid hbase
        refine ⟨hbase.1.trans hmid.1, hbase.2.1.trans hmid.2.1, fun hcanon => ?_⟩
        rw [hbase.2.2.2]
        rw [← hmid.2.2.2] at hcanon
        rcases hcases with rfl | rfl | rfl
        · exact hcanon
        · exact hcanon.addValidator _
        · exact hcanon.removeValidator _

variable [Keccak] (P : Primitives)

/-- The snapshot after one more header, whose signer is recovered from its seal. -/
def step (s : Snapshot) (header : Header) : Except Err Snapshot :=
  (s.applySigned P (recoverSigner P header) header).map fun t =>
    { t with number := (s.number + 1) % 2 ^ 64, hash := header.hash }

variable {P} {s t : Snapshot} {recentAddresses : AddressCache} {header : Header}

theorem applyHeader_eq : s.applyHeader P recentAddresses header =
    (s.applySigned P (ecrecover P recentAddresses header).1 header,
      if s.epoch = 0 then recentAddresses else (ecrecover P recentAddresses header).2) := by
  rw [applyHeader, applySigned.eq_def]
  split_ifs
  · rfl
  · rcases ecrecover P recentAddresses header with ⟨err | validator, cache⟩
    · rfl
    · simp only [valSet_resetAt]
      cases s.valSet.getByAddress validator with
      | none => rfl
      | some => cases (s.resetAt (uint64 header.number)).recordVote validator header <;> rfl

theorem SameAs.step (h : s.SameAs t) (header : Header) : Outcomes SameAs (s.step P header) (t.step P header) :=
  (h.toAgrees.applySigned _ header).map fun _ _ h' => ⟨{ h' with }, by rw [h.number], rfl⟩

theorem SameAs.foldlM (h : s.SameAs t) (headers : List Header) :
    Outcomes SameAs (headers.foldlM (Snapshot.step P) s) (headers.foldlM (Snapshot.step P) t) := by
  induction headers generalizing s t with
  | nil => exact .ok h
  | cons header _ ih =>
    rw [List.foldlM_cons, List.foldlM_cons]
    exact (h.step header).bind fun s t h => ih h

/-! ### The cache of signers -/

/-- The cache knows the signer of every header of the set that it has an entry for. -/
def KnowsSigners (P : Primitives) (S : Set Header) (recentAddresses : AddressCache) : Prop :=
  ∀ h ∈ S, ∀ a, recentAddresses h.hash = some a → recoverSigner P h = .ok a

/-- Headers of one hash have one signer. -/
def HashFixesSigner (P : Primitives) (S : Set Header) : Prop :=
  ∀ h ∈ S, ∀ h' ∈ S, h.hash = h'.hash → recoverSigner P h = recoverSigner P h'

variable {S : Set Header} {headers : List Header}

theorem hashFixesSigner_of_noCollision (hmix : ∀ h ∈ S, h.mixDigest = istanbulDigest)
    (hfits : ∀ h ∈ S, h.Fits) (he : ∀ h ∈ S, h.Encodable) (hno : ∀ h ∈ S, ∀ h' ∈ S, NoCollision h h') :
    HashFixesSigner P S := by
  intro h hh h' hh' hhash
  rcases sealsApart_of_hash_eq (hmix h hh) (hmix h' hh') (hfits h hh) (he h hh) (hno h hh h' hh') hhash with
    rfl | ⟨ist, seals, hext, rfl⟩
  · rfl
  · have hlen := (hfits _ hh').extra
    have hext' := extract_withExtra (extractIstanbulExtra_eq_ok.mp hext).1 hlen
    have hsig := congrArg State.keccak256 (sigPreimage_withExtra hext (by rfl) hlen)
    rw [recoverSigner, recoverSigner, hext, hext', sigHash, sigHash, hsig]

theorem HashFixesSigner.mono {T : Set Header} (h : HashFixesSigner P S) (hsub : T ⊆ S) : HashFixesSigner P T :=
  fun a ha b hb => h a (hsub ha) b (hsub hb)

theorem knowsSigners_empty : KnowsSigners P S fun _ => none := by
  intro h _ a ha
  cases ha

section

variable (hknows : KnowsSigners P S recentAddresses)

include hknows

theorem KnowsSigners.ecrecover_fst (hmem : header ∈ S) :
    (ecrecover P recentAddresses header).1 = recoverSigner P header := by
  rw [ecrecover]
  cases hcache : recentAddresses header.hash with
  | some a => exact (hknows header hmem a hcache).symm
  | none => cases recoverSigner P header <;> rfl

theorem KnowsSigners.ecrecover_snd (hfix : HashFixesSigner P S)
    (hmem : header ∈ S) : KnowsSigners P S (ecrecover P recentAddresses header).2 := by
  rw [ecrecover]
  cases hcache : recentAddresses header.hash with
  | some => exact hknows
  | none =>
    cases hrec : recoverSigner P header with
    | error => exact hknows
    | ok addr =>
      intro h hh a ha
      replace ha : Function.update recentAddresses header.hash (some addr) h.hash = some a := ha
      by_cases heq : h.hash = header.hash
      · rw [heq, Function.update_self, Option.some.injEq] at ha
        rw [hfix h hh header hmem heq, hrec, ha]
      · rw [Function.update_of_ne heq] at ha
        exact hknows h hh a ha

theorem KnowsSigners.applyHeader (hfix : HashFixesSigner P S)
    (hmem : header ∈ S) : (s.applyHeader P recentAddresses header).1 = s.applySigned P (recoverSigner P header) header ∧
      KnowsSigners P S (s.applyHeader P recentAddresses header).2 := by
  rw [applyHeader_eq, hknows.ecrecover_fst hmem]
  refine ⟨rfl, ?_⟩
  split_ifs
  · exact hknows
  · exact hknows.ecrecover_snd hfix hmem

/-- The loop of `apply` is a fold of `step`, but for the number and the hash, which `apply` sets at the end. -/
theorem KnowsSigners.applyHeaders (hfix : HashFixesSigner P S) (hmem : ∀ h ∈ headers, h ∈ S) (h : s.Agrees t) :
    Outcomes Agrees (applyHeaders P s recentAddresses headers).1 (headers.foldlM (Snapshot.step P) t) ∧
      KnowsSigners P S (Snapshot.applyHeaders P s recentAddresses headers).2 := by
  induction headers generalizing s t recentAddresses with
  | nil => exact ⟨.ok h, hknows⟩
  | cons header _ ih =>
    obtain ⟨hfst, hsnd⟩ := hknows.applyHeader (s := s) hfix (hmem header List.mem_cons_self)
    have hstep := h.applySigned (P := P) (recoverSigner P header) header
    rw [← hfst] at hstep
    rw [Snapshot.applyHeaders, List.foldlM_cons, Snapshot.step]
    rcases happly : s.applyHeader P recentAddresses header with ⟨r, cache⟩
    rw [happly] at hstep hsnd
    generalize t.applySigned P (recoverSigner P header) header = r' at hstep ⊢
    cases hstep with
    | error err => exact ⟨.error err, hsnd⟩
    | ok hmid => exact ih hsnd (fun h hh => hmem h (List.mem_cons_of_mem _ hh)) { hmid with }

end

/-! ### Many headers -/

/-- The hash of the last of the headers, which come after the block `hash`. -/
def tip (hash : Hash) (headers : List Header) : Hash := (headers.getLast?.map Header.hash).getD hash

theorem tip_concat (hash : Hash) (headers : List Header) (header : Header) :
    tip hash (headers ++ [header]) = header.hash := by
  simp [tip]

theorem step_eq_ok (h : s.step P header = .ok t) :
    t.epoch = s.epoch ∧ t.number = (s.number + 1) % 2 ^ 64 ∧ t.hash = header.hash ∧
      (s.valSet.Canonical P → t.valSet.Canonical P) := by
  rw [Snapshot.step] at h
  cases hsigned : s.applySigned P (recoverSigner P header) header with
  | error =>
    rw [hsigned] at h
    cases h
  | ok =>
    rw [hsigned] at h
    cases h
    obtain ⟨hepoch, -, hcanon⟩ := applySigned_base hsigned
    exact ⟨hepoch, rfl, rfl, hcanon⟩

theorem foldlM_step_eq_ok (hnumber : s.number < 2 ^ 64) (h : headers.foldlM (Snapshot.step P) s = .ok t) :
    t.epoch = s.epoch ∧ t.number = (s.number + headers.length) % 2 ^ 64 ∧ t.hash = tip s.hash headers ∧
      (s.valSet.Canonical P → t.valSet.Canonical P) := by
  induction headers using List.reverseRecOn generalizing t with
  | nil =>
    cases h
    exact ⟨rfl, (Nat.mod_eq_of_lt hnumber).symm, rfl, id⟩
  | append_singleton _ _ ih =>
    rw [List.foldlM_append, bind_eq_ok] at h
    obtain ⟨mid, hmid, hlast⟩ := h
    rw [List.foldlM_cons, bind_eq_ok] at hlast
    obtain ⟨u, hstep, hu⟩ := hlast
    cases hu
    obtain ⟨hepoch, hnum, -, hcanon⟩ := ih hmid
    obtain ⟨hepoch', hnum', hhash', hcanon'⟩ := step_eq_ok hstep
    refine ⟨hepoch'.trans hepoch, ?_, hhash'.trans (tip_concat _ _ _).symm, hcanon' ∘ hcanon⟩
    rw [hnum', hnum, List.length_append, List.length_singleton]
    omega

theorem applyHeaders_number (h : (applyHeaders P s recentAddresses headers).1 = .ok t) : t.number = s.number := by
  refine applyHeaders_invariant (P := P) (I := fun u => u.number = s.number) ?_ rfl (Prod.ext h rfl)
  intro u cache header v cache' hu happly
  have hfst := congrArg Prod.fst happly
  rw [applyHeader_eq] at hfst
  rw [(applySigned_base hfst).2.1, hu]

/-- **`apply` is the fold of `step`**, whatever it copies on the way and whoever asks for the signers. -/
theorem apply_agrees (hknows : KnowsSigners P S recentAddresses) (hfix : HashFixesSigner P S)
    (hmem : ∀ h ∈ headers, h ∈ S) (hcanon : s.valSet.Canonical P) (hnumber : s.number < 2 ^ 64)
    (hchain : headers.IsChain Follows)
    (hfirst : ∀ h, headers.head? = some h → uint64 h.number = (s.number + 1) % 2 ^ 64) :
    Outcomes SameAs (s.apply P recentAddresses headers).1 (headers.foldlM (Snapshot.step P) s) := by
  cases headers with
  | nil => exact .ok (.refl s)
  | cons first rest =>
    have hcopy : (s.copy P).Agrees s := { Agrees.refl s with validators := hcanon.copy_validators }
    have hloop := (hknows.applyHeaders hfix hmem hcopy).1
    have hnum : ∀ u, (applyHeaders P (s.copy P) recentAddresses (first :: rest)).1 = .ok u →
        u.number = (s.copy P).number := fun u hu => applyHeaders_number hu
    have hfold : ∀ t, (first :: rest).foldlM (Snapshot.step P) s = .ok t →
        t.number = (s.number + (first :: rest).length) % 2 ^ 64 ∧ t.hash = tip s.hash (first :: rest) :=
      fun t ht => ⟨(foldlM_step_eq_ok hnumber ht).2.1, (foldlM_step_eq_ok hnumber ht).2.2.1⟩
    rw [apply, if_neg (not_not.mpr hchain), if_neg (not_not.mpr (hfirst first rfl))]
    rcases hrun : applyHeaders P (s.copy P) recentAddresses (first :: rest) with ⟨r, cache⟩
    rw [hrun] at hloop hnum
    generalize (first :: rest).foldlM (Snapshot.step P) s = r' at hloop hfold ⊢
    cases hloop with
    | error err => exact .error err
    | ok hagrees =>
      obtain ⟨htnum, hhash⟩ := hfold _ rfl
      refine .ok ⟨{ hagrees with }, ?_, ?_⟩
      · show (_ + _) % _ = _
        rw [hnum _ rfl, htnum]
        rfl
      · rw [hhash, tip, List.getLast?_eq_getLast_of_ne_nil (by simp)]
        rfl

theorem KnowsSigners.apply (hknows : KnowsSigners P S recentAddresses) (hfix : HashFixesSigner P S)
    (hmem : ∀ h ∈ headers, h ∈ S) : KnowsSigners P S (s.apply P recentAddresses headers).2 := by
  cases headers with
  | nil => exact hknows
  | cons first rest =>
    have hloop := (hknows.applyHeaders hfix hmem (.refl (s.copy P))).2
    rw [Snapshot.apply]
    by_cases hchain : (first :: rest).IsChain Follows
    swap
    · rw [if_pos hchain]
      exact hknows
    by_cases hfirst : uint64 first.number = (s.number + 1) % 2 ^ 64
    swap
    · rw [if_neg (not_not.mpr hchain), if_pos hfirst]
      exact hknows
    rw [if_neg (not_not.mpr hchain), if_neg (not_not.mpr hfirst)]
    rcases hrun : Snapshot.applyHeaders P (s.copy P) recentAddresses (first :: rest) with ⟨err | u, cache⟩
    · rw [hrun] at hloop
      exact hloop
    · rw [hrun] at hloop
      exact hloop

end Snapshot

end GoWanchain.Backend
