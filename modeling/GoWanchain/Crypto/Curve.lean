import GoWanchain.Lib.Scalar
import GoWanchain.State.Object
import Mathlib.Data.ZMod.Basic

/-!
# One-time addresses

The part of `crypto/crypto.go` by which the sender of a payment makes a one-time public key for
the recipient, and the recipient finds it and derives its private key. The functions are written
over what `S256()` offers (`Curve`); coordinates that are nil, with which the code fails or
panics, are `none`.

`Curve.Implements` says which group of prime order a curve is. The curve multiplies by all
scalars, if it is nothing but the group, and by those between 0 and the order, if it is the one
that `secp256k1_pubkey_scalar_mul` of `crypto/secp256k1/ext.h` computes on (`Curve.InRange`).
-/

namespace GoWanchain.Crypto

open State

/-- What `S256()` offers over the points `A` of a curve. -/
structure Curve (A : Type) where
  /-- `Params().N`, which `secp256k1_N` is as well. -/
  N : ℕ
  /-- The base point. -/
  G : A
  scalarMult : A → ℕ → Option A
  add : A → A → A
  /-- `FromECDSAPub`. -/
  marshal : A → Bytes

variable {A : Type}

/-- The curve is a group of prime order that its base point generates; it multiplies by the valid scalars. -/
structure Curve.Implements [AddCommGroup A] (C : Curve A) (valid : ℕ → Prop) [DecidablePred valid] : Prop where
  prime : C.N.Prime
  card : Nat.card A = C.N
  generates : ∀ P : A, ∃ k : ℕ, P = k • C.G
  add_eq : ∀ P Q, C.add P Q = P + Q
  scalarMult_eq : ∀ P k, C.scalarMult P k = if valid k then some (k • P) else none

/-- The scalars that are neither zero nor an overflow. -/
def Curve.InRange (C : Curve A) (k : ℕ) : Prop := 0 < k ∧ k < C.N

instance (C : Curve A) : DecidablePred C.InRange := fun k => inferInstanceAs (Decidable (0 < k ∧ k < C.N))

section Group

variable [AddCommGroup A] {C : Curve A} {valid : ℕ → Prop} [DecidablePred valid] (hC : C.Implements valid)

include hC

theorem Curve.Implements.order (P : A) : C.N • P = 0 := by
  rw [← hC.card]
  exact card_nsmul_eq_zero'

theorem Curve.Implements.scalarMult_of_valid (P : A) {k : ℕ} (hk : valid k) : C.scalarMult P k = some (k • P) := by
  rw [hC.scalarMult_eq, if_pos hk]

theorem Curve.Implements.scalarMult_eq_some {P Q : A} {k : ℕ} (h : C.scalarMult P k = some Q) :
    valid k ∧ Q = k • P := by
  rw [hC.scalarMult_eq] at h
  split at h
  · rename_i hk
    exact ⟨hk, (Option.some.inj h).symm⟩
  · simp at h

end Group

section

variable [Keccak]

/-- `Keccak256(FromECDSAPub(pub))`, as a scalar. -/
def hashPub (C : Curve A) (pub : A) : ℕ := (keccak256 (C.marshal pub)).toNat

/-- `A1 = [hash([r]B)]G + A`. -/
def generateA1 (C : Curve A) (r : ℕ) (a b : A) : Option A := do
  let s ← C.scalarMult b r
  let a1 ← C.scalarMult C.G (hashPub C s)
  return C.add a1 a

def compareA1 [DecidableEq A] (C : Curve A) (b : ℕ) (a s1 a1 : A) : Bool := decide (generateA1 C b a s1 = some a1)

/-- The one-time key `A1` for the recipient and the key `R` of the sender's randomness `r`. -/
def generateOneTimeKey2528 (C : Curve A) (a b : A) (r : ℕ) : Option (A × A) := do
  let pubR ← C.scalarMult C.G r
  let a1 ← generateA1 C r a b
  return (a1, pubR)

/-- The private key of the one-time key; the code takes its public key as well, and does not read it. -/
def generateOneTimePrivateKey2528 (C : Curve A) (privateKey privateKey2 : ℕ) (destPubB : A) : Option ℕ := do
  let pub ← C.scalarMult destPubB privateKey2
  return (hashPub C pub + privateKey) % C.N

section Correctness

variable [AddCommGroup A] [DecidableEq A] {C : Curve A} {valid : ℕ → Prop} [DecidablePred valid]

theorem oneTimeKey_opens (hC : C.Implements valid) {a b r : ℕ} {A1 R : A} (hb : valid b)
    (h : generateOneTimeKey2528 C (a • C.G) (b • C.G) r = some (A1, R)) :
    (∃ k, generateOneTimePrivateKey2528 C a b R = some k ∧ k • C.G = A1) ∧ compareA1 C b (a • C.G) R A1 = true := by
  simp only [generateOneTimeKey2528, generateA1, Option.bind_eq_bind, Option.bind_eq_some_iff, Option.pure_def,
    Option.some.injEq, Prod.mk.injEq] at h
  obtain ⟨pubR, hR, a1, ⟨s, hs, base, hbase, rfl⟩, rfl, rfl⟩ := h
  obtain ⟨-, rfl⟩ := hC.scalarMult_eq_some hR
  obtain ⟨-, rfl⟩ := hC.scalarMult_eq_some hs
  obtain ⟨hvalid, rfl⟩ := hC.scalarMult_eq_some hbase
  -- the recipient multiplies `R` by `b`, as the sender did `B` by `r`
  have hshared : C.scalarMult (r • C.G) b = some (r • b • C.G) := by
    rw [hC.scalarMult_of_valid _ hb, nsmul_left_comm]
  constructor
  · refine ⟨(hashPub C (r • b • C.G) + a) % C.N, by simp [generateOneTimePrivateKey2528, hshared], ?_⟩
    rw [nsmul_of_modEq (hC.order _) (Nat.mod_modEq _ _), add_nsmul, hC.add_eq]
  · simp [compareA1, generateA1, hshared, hbase]

/-- Over the group itself every payment has a one-time address, and the recipient opens it. -/
theorem oneTimeKey_correct (hC : C.Implements fun _ => True) (a b r : ℕ) :
    ∃ A1 R k, generateOneTimeKey2528 C (a • C.G) (b • C.G) r = some (A1, R) ∧
      generateOneTimePrivateKey2528 C a b R = some k ∧ k • C.G = A1 ∧
      compareA1 C b (a • C.G) R A1 = true := by
  have hmult (P : A) (k : ℕ) : C.scalarMult P k = some (k • P) := hC.scalarMult_of_valid P trivial
  have hkey : generateOneTimeKey2528 C (a • C.G) (b • C.G) r =
      some (C.add (hashPub C (r • b • C.G) • C.G) (a • C.G), r • C.G) := by
    simp [generateOneTimeKey2528, generateA1, hmult]
  obtain ⟨⟨k, hk, hG⟩, hcompare⟩ := oneTimeKey_opens hC trivial hkey
  exact ⟨_, _, k, hkey, hk, hG, hcompare⟩

end Correctness

end

namespace Sample

attribute [local instance] State.Sample.keccak

/-- The residues modulo seven. -/
def curve : Curve (ZMod 7) where
  N := 7
  G := 1
  scalarMult P k := some (k • P)
  add P Q := P + Q
  marshal P := [UInt8.ofNat P.val]

theorem curve_implements : curve.Implements fun _ => True where
  prime := by decide
  card := Nat.card_zmod 7
  generates P := ⟨P.val, by rw [show curve.G = 1 from rfl, nsmul_one, ZMod.natCast_zmod_val]⟩
  add_eq _ _ := rfl
  scalarMult_eq _ _ := rfl

theorem oneTimeKey_correct_seven : curve.Implements (fun _ => True) ∧
    ∃ A1 R k, generateOneTimeKey2528 curve ((2 : ℕ) • curve.G) ((3 : ℕ) • curve.G) 4 = some (A1, R) ∧
      generateOneTimePrivateKey2528 curve 2 3 R = some k ∧ k • curve.G = A1 ∧
      compareA1 curve 3 ((2 : ℕ) • curve.G) R A1 = true :=
  ⟨curve_implements, oneTimeKey_correct curve_implements 2 3 4⟩

end Sample

end GoWanchain.Crypto
