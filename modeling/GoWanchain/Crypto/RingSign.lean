import GoWanchain.Crypto.Curve
import GoWanchain.Lib.Guard

/-!
# Ring signatures

`RingSign` and `VerifyRingSign` of `crypto/crypto.go`, with which the owner of a one-time address signs as
one of several. The caller puts the signer's key first and `RingSign` exchanges it with the one at a random
position `s`.

The random source is a parameter: the number that the `i`-th read gives, or none where it fails.
-/

namespace GoWanchain.Crypto

open State List

inductive RingSignError where
  | errInvalidRingSignParams
  | errRingSignFail
  /-- The error of the random source. -/
  | read
deriving DecidableEq

section

variable {A : Type}

/-- A random element of the field, from the number that was read. -/
def randFieldElement2528 (C : Curve A) (k : Option ℕ) : Option ℕ := k.map fun k => k % (C.N - 1) + 1

/-- `PublicKeys[0], PublicKeys[s] = PublicKeys[s], PublicKeys[0]`. -/
def exchange (l : List A) (s : ℕ) : List A :=
  if s > 0 then
    match l[0]?, l[s]? with
    | some a, some b => (l.set 0 b).set s a
    | _, _ => l
  else l

variable [Keccak]

/-- Calculates `[x]Hash(P)`. -/
def xScalarHashP (C : Curve A) (x : ℕ) (pub : A) : Option A := do
  let keyImg ← C.scalarMult pub (hashPub C pub)
  C.scalarMult keyImg x

/-- What the first loop of `RingSign` has drawn and computed. -/
structure Signing where
  q : List ℕ
  w : List ℕ
  sumC : ℕ
  /-- What was written to the hash. -/
  digest : Bytes

omit [Keccak] in
/-- A round of the first loop, for the member at the position `p.2`. -/
def signLeft (C : Curve A) (s : ℕ) (rand : ℕ → Option ℕ) (σ : Signing) (p : A × ℕ) : Except RingSignError Signing := do
  let q ← need (randFieldElement2528 C (rand (2 * p.2))) .read
  let w ← need (randFieldElement2528 C (rand (2 * p.2 + 1))) .read
  let lpub ← need (C.scalarMult C.G q) .errRingSignFail
  if p.2 = s then
    return ⟨σ.q ++ [q], σ.w ++ [w], σ.sumC, σ.digest ++ C.marshal lpub⟩
  else
    let ppub ← need (C.scalarMult p.1 w) .errRingSignFail
    return ⟨σ.q ++ [q], σ.w ++ [w], (σ.sumC + w) % C.N, σ.digest ++ C.marshal (C.add lpub ppub)⟩

/-- A round of the second loop. -/
def signRight (C : Curve A) (s : ℕ) (image : A) (q w : List ℕ) (digest : Bytes) (p : A × ℕ) :
    Except RingSignError Bytes := do
  let rpub ← need (xScalarHashP C (q.getD p.2 0) p.1) .errRingSignFail
  if p.2 = s then
    return digest ++ C.marshal rpub
  else
    let ppub ← need (C.scalarMult image (w.getD p.2 0)) .errRingSignFail
    return digest ++ C.marshal (C.add rpub ppub)

/-- The keys in their new order, the key image, and the lists W and Q. -/
def ringSign (C : Curve A) (M : Option Bytes) (x : Option ℕ) (publicKeys : List (Option A)) (intn : ℕ)
    (rand : ℕ → Option ℕ) : Except RingSignError (List A × A × List ℕ × List ℕ) := do
  let M ← need M .errInvalidRingSignParams
  let x ← need x .errInvalidRingSignParams
  match publicKeys.mapM id with
  | none | some [] => throw .errInvalidRingSignParams
  | some (P :: Ps) =>
    let image ← need (xScalarHashP C x P) .errRingSignFail
    let s := intn % (Ps.length + 1)
    let keys := exchange (P :: Ps) s
    let σ ← keys.zipIdx.foldlM (signLeft C s rand) ⟨[], [], 0, M⟩
    let digest ← keys.zipIdx.foldlM (signRight C s image σ.q σ.w) σ.digest
    let cs := subMod C.N (keccak256 digest).toNat σ.sumC
    let rs := subMod C.N (σ.q.getD s 0) (cs * x)
    return (keys, image, σ.w.set s cs, σ.q.set s rs)

omit [Keccak] in
def verifyLeft (C : Curve A) (c r : List ℕ) (σ : ℕ × Bytes) (p : A × ℕ) : Option (ℕ × Bytes) := do
  let lpub ← C.scalarMult C.G (r.getD p.2 0)
  let ppub ← C.scalarMult p.1 (c.getD p.2 0)
  return ((σ.1 + c.getD p.2 0) % C.N, σ.2 ++ C.marshal (C.add lpub ppub))

/-- A round of the second loop. -/
def verifyRight (C : Curve A) (image : A) (c r : List ℕ) (digest : Bytes) (p : A × ℕ) : Option Bytes := do
  let rpub ← xScalarHashP C (r.getD p.2 0) p.1
  let ppub ← C.scalarMult image (c.getD p.2 0)
  return digest ++ C.marshal (C.add rpub ppub)

def verifyRingSign (C : Curve A) (M : Option Bytes) (publicKeys : List (Option A)) (image : Option A)
    (c r : List (Option ℕ)) : Bool :=
  match M, publicKeys.mapM id, image, c.mapM id, r.mapM id with
  | some M, some keys, some image, some c, some r =>
    if keys.length = 0 ∨ keys.length ≠ c.length ∨ keys.length ≠ r.length then false
    else
      let hashed := do
        let (sumC, digest) ← keys.zipIdx.foldlM (verifyLeft C c r) (0, M)
        let digest ← keys.zipIdx.foldlM (verifyRight C image c r) digest
        return (sumC, (keccak256 digest).toNat)
      match hashed with
      | some (sumC, hash) => hash % C.N == sumC
      | none => false
  | _, _, _, _, _ => false

/-! ### What the loops compute -/

section Loops

variable [AddCommGroup A] {C : Curve A} {valid : ℕ → Prop} [DecidablePred valid]

/-- The point of a row that the first loops write, for its challenge `c` and its response `r`. -/
def leftPoint (C : Curve A) (c r : ℕ → ℕ) (p : A × ℕ) : A := r p.2 • C.G + c p.2 • p.1

/-- The point of a row that the second loops write. -/
def rightPoint (C : Curve A) (image : A) (c r : ℕ → ℕ) (p : A × ℕ) : A :=
  r p.2 • hashPub C p.1 • p.1 + c p.2 • image

/-- All that is hashed. -/
def transcript (C : Curve A) (M : Bytes) (image : A) (c r : ℕ → ℕ) (rows : List (A × ℕ)) : Bytes :=
  M ++ rows.flatMap (fun p => C.marshal (leftPoint C c r p)) ++
    rows.flatMap fun p => C.marshal (rightPoint C image c r p)

omit [Keccak] [AddCommGroup A] in
theorem mapM_id_map_some {β : Type} (l : List β) : (l.map some).mapM id = some l :=
  mapM_map_of_forall fun _ _ => rfl

theorem xScalarHashP_eq (hC : C.Implements valid) (x : ℕ) (P : A) :
    xScalarHashP C x P = if valid (hashPub C P) ∧ valid x then some (x • hashPub C P • P) else none := by
  rw [xScalarHashP, hC.scalarMult_eq]
  by_cases hhash : valid (hashPub C P)
  · simp [hhash, hC.scalarMult_eq]
  · simp [hhash]

/-- The signature passes if its scalars can be multiplied by, and the challenges add up to the hash. -/
theorem verifyRingSign_iff (hC : C.Implements valid) {M : Bytes} {keys : List A} {image : A} {c r : List ℕ}
    (hne : keys ≠ []) (hc : c.length = keys.length) (hr : r.length = keys.length) :
    verifyRingSign C (some M) (keys.map some) (some image) (c.map some) (r.map some) = true ↔
      (∀ p ∈ keys.zipIdx, valid (hashPub C p.1) ∧ valid (r.getD p.2 0) ∧ valid (c.getD p.2 0)) ∧
      (keccak256 (transcript C M image (c.getD · 0) (r.getD · 0) keys.zipIdx)).toNat % C.N =
        (keys.zipIdx.map fun p => c.getD p.2 0).sum % C.N := by
  have hleft (σ : ℕ × Bytes) (p : A × ℕ) : verifyLeft C c r σ p = if valid (r.getD p.2 0) ∧ valid (c.getD p.2 0) then
        some ((σ.1 + c.getD p.2 0) % C.N, σ.2 ++ C.marshal (leftPoint C (c.getD · 0) (r.getD · 0) p)) else none := by
    rw [verifyLeft, hC.scalarMult_eq, hC.scalarMult_eq]
    split_ifs <;> simp_all [hC.add_eq, leftPoint]
  have hright (digest : Bytes) (p : A × ℕ) : verifyRight C image c r digest p =
      if valid (hashPub C p.1) ∧ valid (r.getD p.2 0) ∧ valid (c.getD p.2 0) then
        some (digest ++ C.marshal (rightPoint C image (c.getD · 0) (r.getD · 0) p)) else none := by
    rw [verifyRight, xScalarHashP_eq hC, hC.scalarMult_eq]
    split_ifs <;> simp_all [hC.add_eq, rightPoint]
  have hshape : ¬ (keys.length = 0 ∨ keys.length ≠ c.length ∨ keys.length ≠ r.length) := by
    simp [hne, hc, hr]
  simp only [verifyRingSign, mapM_id_map_some]
  rw [if_neg hshape, foldlM_guard hleft]
  by_cases hrows : ∀ p ∈ keys.zipIdx, valid (hashPub C p.1) ∧ valid (r.getD p.2 0) ∧ valid (c.getD p.2 0)
  · have hfold := foldl_sum_append C.N (fun p : A × ℕ => c.getD p.2 0)
      (fun p => C.marshal (leftPoint C (c.getD · 0) (r.getD · 0) p)) keys.zipIdx 0 M
    rw [Nat.zero_mod, Nat.zero_add] at hfold
    rw [if_pos fun p hp => (hrows p hp).2, hfold]
    simp only [Option.bind_eq_bind, Option.bind_some, foldlM_guard hright, if_pos hrows, foldl_append_flatMap,
      Option.pure_def, beq_iff_eq, transcript, and_iff_right hrows]
  · refine iff_of_false ?_ fun h => hrows h.1
    split_ifs
    · simp only [Option.bind_eq_bind, Option.bind_some, foldlM_guard hright, if_neg hrows, Option.bind_none]
      simp
    · simp

/-- The challenge and the response that are drawn for the row `i`. -/
def drawnW (C : Curve A) (rnd : ℕ → ℕ) (i : ℕ) : ℕ := rnd (2 * i + 1) % (C.N - 1) + 1

def drawnQ (C : Curve A) (rnd : ℕ → ℕ) (i : ℕ) : ℕ := rnd (2 * i) % (C.N - 1) + 1

/-- The challenges as far as they are known before the points are hashed. -/
def openW (C : Curve A) (rnd : ℕ → ℕ) (s i : ℕ) : ℕ := if i = s then 0 else drawnW C rnd i

omit [Keccak] in
theorem foldl_signing (C : Curve A) (rnd : ℕ → ℕ) (s : ℕ) (rows : List (A × ℕ)) (q w : List ℕ) (n : ℕ) (d : Bytes) :
    rows.foldl (fun σ p => (⟨σ.q ++ [drawnQ C rnd p.2], σ.w ++ [drawnW C rnd p.2],
        if p.2 = s then σ.sumC else (σ.sumC + drawnW C rnd p.2) % C.N,
        σ.digest ++ C.marshal (leftPoint C (openW C rnd s) (drawnQ C rnd) p)⟩ : Signing)) ⟨q, w, n % C.N, d⟩ =
      ⟨q ++ rows.map (drawnQ C rnd ·.2), w ++ rows.map (drawnW C rnd ·.2),
        (n + (rows.map (openW C rnd s ·.2)).sum) % C.N,
        d ++ rows.flatMap fun p => C.marshal (leftPoint C (openW C rnd s) (drawnQ C rnd) p)⟩ := by
  induction rows generalizing q w n d with
  | nil => simp
  | cons p _ ih =>
    have hsum : (if p.2 = s then n % C.N else (n % C.N + drawnW C rnd p.2) % C.N) = (n + openW C rnd s p.2) % C.N := by
      rw [openW]
      split_ifs
      · rw [Nat.add_zero]
      · rw [Nat.mod_add_mod]
    rw [foldl_cons]
    simp only [hsum]
    rw [ih]
    simp only [map_cons, sum_cons, flatMap_cons, append_assoc, singleton_append, Nat.add_assoc]

omit [Keccak] [AddCommGroup A] in
theorem inRange_drawn (hN : 1 < C.N) (k : ℕ) : C.InRange (k % (C.N - 1) + 1) := by
  have hlt := Nat.mod_lt k (show 0 < C.N - 1 by omega)
  exact ⟨by omega, by omega⟩

omit [Keccak] in
theorem signLeft_run (hC : C.Implements valid) (hvalid : ∀ k, C.InRange k → valid k) (rnd : ℕ → ℕ) (s : ℕ)
    (rows : List (A × ℕ)) (M : Bytes) : rows.foldlM (signLeft C s (some ∘ rnd)) ⟨[], [], 0, M⟩ =
      .ok ⟨rows.map (drawnQ C rnd ·.2), rows.map (drawnW C rnd ·.2), (rows.map (openW C rnd s ·.2)).sum % C.N,
        M ++ rows.flatMap fun p => C.marshal (leftPoint C (openW C rnd s) (drawnQ C rnd) p)⟩ := by
  have hfold := foldl_signing C rnd s rows [] [] 0 M
  rw [Nat.zero_mod, Nat.zero_add, nil_append, nil_append] at hfold
  rw [← hfold]
  apply foldlM_ok
  intro σ p _
  have hq : valid (drawnQ C rnd p.2) := hvalid _ (inRange_drawn hC.prime.one_lt _)
  have hw : valid (drawnW C rnd p.2) := hvalid _ (inRange_drawn hC.prime.one_lt _)
  have hreadQ : need (randFieldElement2528 C ((some ∘ rnd) (2 * p.2))) RingSignError.read =
      .ok (drawnQ C rnd p.2) := rfl
  have hreadW : need (randFieldElement2528 C ((some ∘ rnd) (2 * p.2 + 1))) RingSignError.read =
      .ok (drawnW C rnd p.2) := rfl
  simp only [signLeft, hreadQ, hreadW, ok_bind, hC.scalarMult_of_valid _ hq, hC.scalarMult_of_valid _ hw, need_some,
    hC.add_eq, leftPoint, openW]
  by_cases hs : p.2 = s
  · simp only [if_pos hs, zero_nsmul, add_zero]
    rfl
  · simp only [if_neg hs]
    rfl

theorem signRight_run (hC : C.Implements valid) (hvalid : ∀ k, C.InRange k → valid k) (rnd : ℕ → ℕ) (s : ℕ) (image : A)
    {q w : List ℕ} {rows : List (A × ℕ)} (hhash : ∀ p ∈ rows, valid (hashPub C p.1))
    (hq : ∀ p ∈ rows, q.getD p.2 0 = drawnQ C rnd p.2) (hw : ∀ p ∈ rows, w.getD p.2 0 = drawnW C rnd p.2)
    (d : Bytes) : rows.foldlM (signRight C s image q w) d =
      .ok (d ++ rows.flatMap fun p => C.marshal (rightPoint C image (openW C rnd s) (drawnQ C rnd) p)) := by
  rw [← foldl_append_flatMap]
  apply foldlM_ok
  intro d p hp
  have hvalidQ : valid (drawnQ C rnd p.2) := hvalid _ (inRange_drawn hC.prime.one_lt _)
  have hvalidW : valid (drawnW C rnd p.2) := hvalid _ (inRange_drawn hC.prime.one_lt _)
  simp only [signRight, hq p hp, hw p hp, xScalarHashP_eq hC, if_pos (And.intro (hhash p hp) hvalidQ), ok_bind,
    need_some, hC.scalarMult_of_valid _ hvalidW, hC.add_eq, rightPoint, openW]
  by_cases hs : p.2 = s
  · simp only [if_pos hs, zero_nsmul, add_zero]
    rfl
  · simp only [if_neg hs]
    rfl

end Loops

/-! ### Signatures verify -/

section Verify

omit [Keccak] in
theorem exchange_spec {P : A} {Ps : List A} {s : ℕ} (hs : s < Ps.length + 1) :
    (exchange (P :: Ps) s).Perm (P :: Ps) ∧ (exchange (P :: Ps) s)[s]? = some P := by
  have hlen : s < (P :: Ps).length := hs
  have hpos : 0 < (P :: Ps).length := Nat.succ_pos _
  unfold exchange
  split_ifs with h0
  · simp only [List.getElem?_eq_getElem hlen, List.getElem?_eq_getElem hpos]
    refine ⟨set_set_perm hpos hlen, ?_⟩
    rw [List.getElem?_set_self (by simpa using hlen)]
    rfl
  · rw [Nat.eq_zero_of_not_pos h0]
    exact ⟨.refl _, rfl⟩

variable [AddCommGroup A] {C : Curve A} {valid : ℕ → Prop} [DecidablePred valid]

omit [Keccak] in
/-- The response of the signer, by which the point of a row comes out as it was drawn. -/
theorem response_point (hC : C.Implements valid) (x c q : ℕ) (H : A) :
    subMod C.N q (c * x) • H + c • x • H = q • H := by
  rw [← mul_nsmul', ← add_nsmul]
  exact nsmul_of_modEq (hC.order H) (subMod_add_modEq hC.prime.pos q (c * x))

theorem transcript_eq (hC : C.Implements valid) {x s cs : ℕ} {rows : List (A × ℕ)} {M : Bytes} {rnd : ℕ → ℕ}
    (hs : ∀ p ∈ rows, p.2 = s → p.1 = x • C.G) {c r : ℕ → ℕ}
    (hc : ∀ p ∈ rows, c p.2 = if p.2 = s then cs else drawnW C rnd p.2)
    (hr : ∀ p ∈ rows, r p.2 = if p.2 = s then subMod C.N (drawnQ C rnd s) (cs * x) else drawnQ C rnd p.2) :
    transcript C M (x • hashPub C (x • C.G) • x • C.G) c r rows =
      transcript C M (x • hashPub C (x • C.G) • x • C.G) (openW C rnd s) (drawnQ C rnd) rows := by
  have hleft : ∀ p ∈ rows, leftPoint C c r p = leftPoint C (openW C rnd s) (drawnQ C rnd) p := by
    intro p hp
    rw [leftPoint, leftPoint, hc p hp, hr p hp, openW]
    split_ifs with hps
    · rw [hs p hp hps, response_point hC, hps, zero_nsmul, add_zero]
    · rfl
  have hright : ∀ p ∈ rows, rightPoint C (x • hashPub C (x • C.G) • x • C.G) c r p =
      rightPoint C (x • hashPub C (x • C.G) • x • C.G) (openW C rnd s) (drawnQ C rnd) p := by
    intro p hp
    rw [rightPoint, rightPoint, hc p hp, hr p hp, openW]
    split_ifs with hps
    · rw [hs p hp hps, response_point hC, hps, zero_nsmul, add_zero]
    · rfl
  have hlefts := flatMap_congr fun p hp => congrArg C.marshal (hleft p hp)
  have hrights := flatMap_congr fun p hp => congrArg C.marshal (hright p hp)
  rw [transcript, transcript, hlefts, hrights]

section

omit [Keccak] [AddCommGroup A]

theorem map_zipIdx_snd {β : Type} (keys : List A) (f : ℕ → β) :
    keys.zipIdx.map (fun p => f p.2) = (List.range keys.length).map f := by
  rw [range_eq_range', ← zipIdx_map_snd 0 keys, map_map]
  rfl

theorem lt_length_of_mem_zipIdx {keys : List A} {p : A × ℕ} (hp : p ∈ keys.zipIdx) : p.2 < keys.length := by
  have hget : keys[p.2]? = some p.1 := mem_zipIdx_iff_getElem?.mp hp
  exact (List.getElem?_eq_some_iff.mp hget).1

end

omit [Keccak] in
theorem getD_map_range {n i : ℕ} (hi : i < n) (f : ℕ → ℕ) : ((List.range n).map f).getD i 0 = f i := by
  simp [hi]

omit [Keccak] in
theorem getD_set_map_range {n i : ℕ} (hi : i < n) (f : ℕ → ℕ) (s a : ℕ) :
    (((List.range n).map f).set s a).getD i 0 = if i = s then a else f i := by
  by_cases his : i = s
  · subst his
    simp [hi]
  · rw [getD_eq_getElem?_getD, List.getElem?_set_ne (Ne.symm his), ← getD_eq_getElem?_getD,
      getD_map_range hi, if_neg his]

/-- The challenge of the signer: what is missing to the hash of the points. -/
def signerChallenge (C : Curve A) (M : Bytes) (image : A) (rnd : ℕ → ℕ) (s : ℕ) (keys : List A) : ℕ :=
  subMod C.N (keccak256 (transcript C M image (openW C rnd s) (drawnQ C rnd) keys.zipIdx)).toNat
    (((List.range keys.length).map (openW C rnd s)).sum % C.N)

/-- The lists W and Q of a signature, with the challenge `cs` in the row of the signer. -/
def signedW (C : Curve A) (rnd : ℕ → ℕ) (s n cs : ℕ) : List ℕ := ((List.range n).map (drawnW C rnd)).set s cs

def signedQ (C : Curve A) (rnd : ℕ → ℕ) (s n x cs : ℕ) : List ℕ :=
  ((List.range n).map (drawnQ C rnd)).set s (subMod C.N (drawnQ C rnd s) (cs * x))

theorem ringSign_run (hC : C.Implements valid) (hvalid : ∀ k, C.InRange k → valid k) (M : Bytes) {x : ℕ} (hx : valid x)
    {P : A} {Ps : List A} (hhash : ∀ Q ∈ P :: Ps, valid (hashPub C Q)) {intn s : ℕ} (hs : s = intn % (Ps.length + 1))
    (rnd : ℕ → ℕ) : let keys := exchange (P :: Ps) s
    let image := x • hashPub C P • P
    let cs := signerChallenge C M image rnd s keys
    ringSign C (some M) (some x) ((P :: Ps).map some) intn (some ∘ rnd) =
      .ok (keys, image, signedW C rnd s keys.length cs, signedQ C rnd s keys.length x cs) := by
  intro keys image cs
  have hlt : s < Ps.length + 1 := hs ▸ Nat.mod_lt _ (Nat.succ_pos _)
  obtain ⟨hperm, -⟩ : keys.Perm (P :: Ps) ∧ _ := exchange_spec hlt
  have hslen : s < keys.length := by rwa [hperm.length_eq]
  have hrows : ∀ p ∈ keys.zipIdx, valid (hashPub C p.1) := by
    intro p hp
    have hget : keys[p.2]? = some p.1 := mem_zipIdx_iff_getElem?.mp hp
    exact hhash _ (hperm.mem_iff.mp (mem_of_getElem? hget))
  have hleft := signLeft_run hC hvalid rnd s keys.zipIdx M
  rw [map_zipIdx_snd keys (drawnQ C rnd), map_zipIdx_snd keys (drawnW C rnd),
    map_zipIdx_snd keys (openW C rnd s)] at hleft
  have hright := signRight_run hC hvalid rnd s image hrows
    (fun p hp => getD_map_range (lt_length_of_mem_zipIdx hp) (drawnQ C rnd))
    (fun p hp => getD_map_range (lt_length_of_mem_zipIdx hp) (drawnW C rnd))
    (M ++ keys.zipIdx.flatMap fun p => C.marshal (leftPoint C (openW C rnd s) (drawnQ C rnd) p))
  have himage : xScalarHashP C x P = some image := by
    rw [xScalarHashP_eq hC, if_pos ⟨hhash P (by simp), hx⟩]
  simp only [ringSign, need_some, ok_bind, mapM_id_map_some, himage, ← hs]
  rw [hleft, ok_bind]
  simp only [getD_map_range hslen]
  rw [hright]
  rfl

/-- The signature passes unless the challenge or the response of the signer's row is a scalar that the curve does not
multiply by. -/
theorem verify_signed_iff (hC : C.Implements valid) (hvalid : ∀ k, C.InRange k → valid k) (M : Bytes) {x s : ℕ}
    {keys : List A} (hhash : ∀ Q ∈ keys, valid (hashPub C Q)) (hself : keys[s]? = some (x • C.G)) (rnd : ℕ → ℕ) :
    let image := x • hashPub C (x • C.G) • x • C.G
    let cs := signerChallenge C M image rnd s keys
    verifyRingSign C (some M) (keys.map some) (some image) ((signedW C rnd s keys.length cs).map some)
        ((signedQ C rnd s keys.length x cs).map some) = true ↔
      valid cs ∧ valid (subMod C.N (drawnQ C rnd s) (cs * x)) := by
  intro image cs
  have hslen : s < keys.length := (List.getElem?_eq_some_iff.mp hself).1
  have hget : ∀ p ∈ keys.zipIdx, keys[p.2]? = some p.1 := fun p hp => mem_zipIdx_iff_getElem?.mp hp
  have hc : ∀ p ∈ keys.zipIdx, (signedW C rnd s keys.length cs).getD p.2 0 = if p.2 = s then cs else drawnW C rnd p.2 :=
    fun p hp => getD_set_map_range (lt_length_of_mem_zipIdx hp) _ s cs
  have hr : ∀ p ∈ keys.zipIdx, (signedQ C rnd s keys.length x cs).getD p.2 0 =
      if p.2 = s then subMod C.N (drawnQ C rnd s) (cs * x) else drawnQ C rnd p.2 :=
    fun p hp => getD_set_map_range (lt_length_of_mem_zipIdx hp) _ s _
  rw [verifyRingSign_iff hC (ne_nil_of_length_pos (by omega)) (by simp [signedW]) (by simp [signedQ])]
  have hsigner : ∀ p ∈ keys.zipIdx, p.2 = s → p.1 = x • C.G := by
    intro p hp hps
    have hkey := hget p hp
    rw [hps, hself] at hkey
    exact (Option.some.inj hkey).symm
  have htranscript := transcript_eq (M := M) (c := fun i => (signedW C rnd s keys.length cs).getD i 0)
    (r := fun i => (signedQ C rnd s keys.length x cs).getD i 0) hC hsigner hc hr
  have hsum : (keys.zipIdx.map fun p => (signedW C rnd s keys.length cs).getD p.2 0).sum =
      ((List.range keys.length).map (openW C rnd s)).sum + cs := by
    rw [map_congr_left hc, map_zipIdx_snd keys fun i => if i = s then cs else drawnW C rnd i]
    exact sum_range_split hslen (drawnW C rnd) cs
  have hhashed : (keccak256 (transcript C M image (openW C rnd s) (drawnQ C rnd) keys.zipIdx)).toNat % C.N =
      (((List.range keys.length).map (openW C rnd s)).sum + cs) % C.N := by
    have hsub : cs + ((List.range keys.length).map (openW C rnd s)).sum % C.N ≡ _ [MOD C.N] :=
      subMod_add_modEq hC.prime.pos _ _
    calc _ = (cs + ((List.range keys.length).map (openW C rnd s)).sum % C.N) % C.N := hsub.symm
      _ = _ := by rw [Nat.add_mod_mod, Nat.add_comm]
  rw [htranscript, hsum, and_iff_left hhashed]
  constructor
  · intro h
    have hs := h (x • C.G, s) (mem_zipIdx_iff_getElem?.mpr hself)
    rw [hc _ (mem_zipIdx_iff_getElem?.mpr hself), hr _ (mem_zipIdx_iff_getElem?.mpr hself), if_pos rfl,
      if_pos rfl] at hs
    exact ⟨hs.2.2, hs.2.1⟩
  · rintro ⟨hcs, hrs⟩ p hp
    rw [hc p hp, hr p hp]
    refine ⟨hhash _ (mem_of_getElem? (hget p hp)), ?_⟩
    split_ifs
    · exact ⟨hrs, hcs⟩
    · exact ⟨hvalid _ (inRange_drawn hC.prime.one_lt _), hvalid _ (inRange_drawn hC.prime.one_lt _)⟩

/-- Whoever knows the private key of the first key obtains a signature under the ring, and it passes. -/
theorem ringSign_verifies (hC : C.Implements fun _ => True) (M : Bytes) (x : ℕ) (others : List A) (intn : ℕ)
    (rnd : ℕ → ℕ) : ∃ keys image w q, ringSign C (some M) (some x) ((x • C.G :: others).map some) intn (some ∘ rnd) =
        .ok (keys, image, w, q) ∧
      keys.Perm (x • C.G :: others) ∧ keys[intn % (others.length + 1)]? = some (x • C.G) ∧
      verifyRingSign C (some M) (keys.map some) (some image) (w.map some) (q.map some) = true := by
  have hlt : intn % (others.length + 1) < others.length + 1 := Nat.mod_lt _ (Nat.succ_pos _)
  obtain ⟨hperm, hself⟩ := exchange_spec (P := x • C.G) hlt
  refine ⟨_, _, _, _, ringSign_run hC (fun _ _ => trivial) M trivial (fun _ _ => trivial) rfl rnd, hperm, hself, ?_⟩
  exact (verify_signed_iff hC (fun _ _ => trivial) M (fun _ _ => trivial) hself rnd).mpr ⟨trivial, trivial⟩

/-- Over a curve that does not multiply by zero, `RingSign` may come out with a zero in the signer's row, and then the
signature does not pass. -/
theorem ringSign_verifies_iff (hC : C.Implements C.InRange) (M : Bytes) {x : ℕ} (hx : C.InRange x) {others : List A}
    (hhash : ∀ Q ∈ x • C.G :: others, C.InRange (hashPub C Q)) (intn : ℕ) (rnd : ℕ → ℕ) :
    ∃ keys image w q, ringSign C (some M) (some x) ((x • C.G :: others).map some) intn (some ∘ rnd) =
        .ok (keys, image, w, q) ∧
      (verifyRingSign C (some M) (keys.map some) (some image) (w.map some) (q.map some) = true ↔
        w.getD (intn % (others.length + 1)) 0 ≠ 0 ∧ q.getD (intn % (others.length + 1)) 0 ≠ 0) := by
  have hlt : intn % (others.length + 1) < others.length + 1 := Nat.mod_lt _ (Nat.succ_pos _)
  obtain ⟨hperm, hself⟩ := exchange_spec (P := x • C.G) hlt
  refine ⟨_, _, _, _, ringSign_run hC (fun _ h => h) M hx hhash rfl rnd, ?_⟩
  have hverify := verify_signed_iff hC (fun _ h => h) M (fun Q hQ => hhash Q (hperm.mem_iff.mp hQ)) hself rnd
  refine hverify.trans ?_
  rw [signedW, signedQ, getD_set_map_range (by rwa [hperm.length_eq]),
    getD_set_map_range (by rwa [hperm.length_eq]), if_pos rfl, if_pos rfl]
  simp only [Curve.InRange, Nat.pos_iff_ne_zero, signerChallenge, subMod_lt hC.prime.pos, and_true]

end Verify

end

namespace Sample

attribute [local instance] State.Sample.keccak

theorem ringSign_verifies_three : curve.Implements (fun _ => True) ∧
    ∃ keys image w q, ringSign curve (some [1]) (some 2) (((2 : ℕ) • curve.G :: [3, 5]).map some) 1 (some ∘ id) =
        .ok (keys, image, w, q) ∧
      keys.Perm ((2 : ℕ) • curve.G :: [3, 5]) ∧ keys[1 % 3]? = some ((2 : ℕ) • curve.G) ∧
      verifyRingSign curve (some [1]) (keys.map some) (some image) (w.map some) (q.map some) = true :=
  ⟨curve_implements, ringSign_verifies curve_implements [1] 2 [3, 5] 1 id⟩

/-- The same group, not multiplied by zero or by an overflow. -/
def strict : Curve (ZMod 7) :=
  { curve with
    scalarMult := fun P k => if curve.InRange k then some (k • P) else none
    marshal := fun _ => [] }

theorem ringSign_verifies_iff_alone : strict.InRange 2 ∧
    ∃ keys image w q, ringSign strict (some [1]) (some 2) ([(2 : ℕ) • strict.G].map some) 1 (some ∘ id) =
        .ok (keys, image, w, q) ∧
      (verifyRingSign strict (some [1]) (keys.map some) (some image) (w.map some) (q.map some) = true ↔
        w.getD 0 0 ≠ 0 ∧ q.getD 0 0 ≠ 0) := by
  have hstrict : strict.Implements strict.InRange := { curve_implements with scalarMult_eq := fun _ _ => rfl }
  have htwo : strict.InRange 2 := by decide
  exact ⟨htwo, ringSign_verifies_iff hstrict [1] htwo (fun _ _ => show strict.InRange 1 by decide) 1 id⟩

end Sample

end GoWanchain.Crypto
