import GoWanchain.Istanbul.Types
import GoWanchain.Lib.Quorum
import Mathlib.Data.Rat.Floor

/-!
# Validator sets

`consensus/istanbul/validator/default.go`: a sorted list of validators with a proposer and a policy
that picks the next one. A `Validator` is a pointer in the source: two validators of one address may
be different map keys, while `reflect.DeepEqual` sees only the address.
-/

namespace GoWanchain.Istanbul

open List

structure Validator where
  address : Address
  ptr : ℕ
deriving DecidableEq

inductive ProposerPolicy
  | roundRobin
  | sticky
deriving DecidableEq

structure ValidatorSet where
  validators : List Validator
  policy : ProposerPolicy
  proposer : Option Validator

namespace ValidatorSet

def size (vs : ValidatorSet) : ℕ := vs.validators.length

def addresses (vs : ValidatorSet) : List Address := vs.validators.map (·.address)

def getByIndex (vs : ValidatorSet) (i : ℕ) : Option Validator := vs.validators[i]?

def findAddress (addr : Address) : ℕ → List Validator → Option (ℕ × Validator)
  | _, [] => none
  | i, val :: rest => if addr = val.address then some (i, val) else findAddress addr (i + 1) rest

/-- `GetByAddress`; `none` is `(-1, nil)`. -/
def getByAddress (vs : ValidatorSet) (addr : Address) : Option (ℕ × Validator) :=
  findAddress addr 0 vs.validators

/-- `IsProposer`. `reflect.DeepEqual` of two nil interfaces is true, so everyone is the proposer of the
empty set. -/
def isProposer (vs : ValidatorSet) (addr : Address) : Bool :=
  vs.proposer.map (·.address) == (vs.getByAddress addr).map (·.2.address)

/-! ### The next proposer -/

def calcSeed (vs : ValidatorSet) (proposer : Address) (round : ℕ) : ℕ :=
  uint64 (((vs.getByAddress proposer).map (·.1)).getD 0 + round)

def roundRobinProposer (vs : ValidatorSet) (proposer : Address) (round : ℕ) : Option Validator :=
  if vs.size = 0 then none
  else
    let seed := if proposer = 0 then round else uint64 (vs.calcSeed proposer round + 1)
    vs.getByIndex (seed % vs.size)

def stickyProposer (vs : ValidatorSet) (proposer : Address) (round : ℕ) : Option Validator :=
  if vs.size = 0 then none
  else
    let seed := if proposer = 0 then round else vs.calcSeed proposer round
    vs.getByIndex (seed % vs.size)

/-- `CalcProposer` with the selector that `newDefaultSet` sets for the policy. -/
def calcProposer (vs : ValidatorSet) (lastProposer : Address) (round : ℕ) : ValidatorSet :=
  { vs with
    proposer := match vs.policy with
      | .roundRobin => vs.roundRobinProposer lastProposer round
      | .sticky => vs.stickyProposer lastProposer round }

/-! ### Construction -/

/-- `Validators.Less` compares the text forms. -/
def addressLe (P : Primitives) (a b : Validator) : Prop :=
  P.addressString a.address ≤ P.addressString b.address

instance (P : Primitives) : DecidableRel (addressLe P) := fun a b =>
  inferInstanceAs (Decidable (P.addressString a.address ≤ P.addressString b.address))

/-- `newDefaultSet`; the pointers are fresh, and nothing that is modelled keeps them. -/
def newSet (P : Primitives) (addrs : List Address) (policy : ProposerPolicy) : ValidatorSet :=
  let validators := (addrs.map fun a => (⟨a, 0⟩ : Validator)).insertionSort (addressLe P)
  { validators := validators, policy := policy, proposer := validators[0]? }

def copy (P : Primitives) (vs : ValidatorSet) : ValidatorSet := newSet P vs.addresses vs.policy

/-- `RemoveValidator`: the set afterwards, and whether the address was in it. -/
def removeValidator (vs : ValidatorSet) (addr : Address) : ValidatorSet × Bool :=
  if addr ∈ vs.addresses then
    ({ vs with validators := vs.validators.eraseP fun v => decide (v.address = addr) }, true)
  else (vs, false)

/-- `AddValidator`: the set afterwards, and whether the address is new. -/
def addValidator (P : Primitives) (vs : ValidatorSet) (addr : Address) : ValidatorSet × Bool :=
  if addr ∈ vs.addresses then (vs, false)
  else ({ vs with validators := (vs.validators ++ [(⟨addr, 0⟩ : Validator)]).insertionSort (addressLe P) }, true)

/-- `F`: `int(math.Ceil(float64(Size())/3)) - 1`, with the division exact. -/
def F (vs : ValidatorSet) : ℤ := ⌈(vs.size : ℚ) / 3⌉ - 1

/-! ### Facts -/

variable {addr : Address} {i : ℕ} {vs : ValidatorSet}

theorem findAddress_eq_none {l : List Validator} : findAddress addr i l = none ↔ addr ∉ l.map (·.address) := by
  induction l generalizing i with
  | nil => simp [findAddress]
  | cons _ _ ih =>
    simp only [findAddress, map_cons, mem_cons, not_or]
    split_ifs with h
    · simp [h]
    · simp [h, ih]

theorem findAddress_eq_some {j : ℕ} {l : List Validator} {v : Validator}
    (h : findAddress addr i l = some (j, v)) : i ≤ j ∧ l[j - i]? = some v ∧ v.address = addr := by
  induction l generalizing i with
  | nil => simp [findAddress] at h
  | cons _ _ ih =>
    simp only [findAddress] at h
    split_ifs at h with hw
    · cases h
      simp [hw]
    · obtain ⟨hle, hget, haddress⟩ := ih h
      obtain ⟨k, rfl⟩ : ∃ k, j = i + 1 + k := ⟨j - (i + 1), by omega⟩
      rw [show i + 1 + k - i = (i + 1 + k - (i + 1)) + 1 by omega]
      exact ⟨by omega, hget, haddress⟩

theorem getByAddress_address {v : Validator} (h : vs.getByAddress addr = some (i, v)) : v.address = addr :=
  (findAddress_eq_some h).2.2

theorem getByAddress_eq_none : vs.getByAddress addr = none ↔ addr ∉ vs.addresses :=
  findAddress_eq_none

theorem getByAddress_isSome : (vs.getByAddress addr).isSome ↔ addr ∈ vs.addresses := by
  rw [← not_iff_not, ← getByAddress_eq_none]
  simp

theorem mem_of_getByAddress {p : ℕ × Validator} (h : vs.getByAddress addr = some p) : addr ∈ vs.addresses := by
  rw [← getByAddress_isSome, h]
  rfl

@[simp] theorem calcProposer_addresses (vs : ValidatorSet) (a : Address) (r : ℕ) :
    (vs.calcProposer a r).addresses = vs.addresses := rfl

theorem length_addresses (vs : ValidatorSet) : vs.addresses.length = vs.size := by
  simp [addresses, size]

theorem newSet_addresses (P : Primitives) (addrs : List Address) (policy : ProposerPolicy) :
    (newSet P addrs policy).addresses.Perm addrs := by
  have hsort := perm_insertionSort (addressLe P) (addrs.map fun a => (⟨a, 0⟩ : Validator))
  have hmap := hsort.map Validator.address
  rw [map_map] at hmap
  simpa [newSet, addresses, Function.comp_def] using hmap

theorem copy_addresses (P : Primitives) (vs : ValidatorSet) : (vs.copy P).addresses.Perm vs.addresses :=
  newSet_addresses P vs.addresses vs.policy

theorem removeValidator_of_mem {a : Address} (ha : a ∈ vs.addresses) :
    (vs.removeValidator a).2 = true ∧ (vs.removeValidator a).1.addresses = vs.addresses.erase a := by
  have hselect : (fun v : Validator => decide (v.address = a)) = (fun b => a == b) ∘ (·.address) := by
    funext v
    simp [Bool.beq_eq_decide_eq, eq_comm]
  rw [removeValidator, if_pos ha]
  refine ⟨rfl, ?_⟩
  show (vs.validators.eraseP fun v => decide (v.address = a)).map (·.address) = vs.addresses.erase a
  rw [hselect, addresses, erase_eq_eraseP, eraseP_map]

theorem addValidator_of_notMem (P : Primitives) {a : Address}
    (ha : a ∉ vs.addresses) : (vs.addValidator P a).1.addresses.Perm (a :: vs.addresses) := by
  have hsort := perm_insertionSort (addressLe P) (vs.validators ++ [⟨a, 0⟩])
  have hmap := hsort.map Validator.address
  rw [map_append] at hmap
  rw [addValidator, if_neg ha]
  exact hmap.trans perm_append_comm

/-! ### Sorted sets -/

instance (P : Primitives) : Std.Total (addressLe P) :=
  ⟨fun a b => List.le_total (P.addressString a.address) (P.addressString b.address)⟩

instance (P : Primitives) : IsTrans Validator (addressLe P) :=
  ⟨fun _ _ _ hab hbc => List.le_trans hab hbc⟩

/-- The set is as `newDefaultSet` and `AddValidator` leave it: sorted. -/
structure Canonical (P : Primitives) (vs : ValidatorSet) : Prop where
  ptr : ∀ v ∈ vs.validators, v.ptr = 0
  sorted : vs.validators.Pairwise (addressLe P)

theorem canonical_newSet (P : Primitives) (addrs : List Address) (policy : ProposerPolicy) :
    (newSet P addrs policy).Canonical P where
  ptr v hv := by
    obtain ⟨a, -, rfl⟩ := mem_map.mp ((mem_insertionSort _).mp hv)
    rfl
  sorted := pairwise_insertionSort _ _

namespace Canonical

variable {P : Primitives} {vs : ValidatorSet}

section

variable (h : vs.Canonical P)

include h

theorem addValidator (a : Address) : (vs.addValidator P a).1.Canonical P := by
  rw [ValidatorSet.addValidator]
  split_ifs
  · exact h
  · refine ⟨fun v hv => ?_, pairwise_insertionSort _ _⟩
    rcases mem_append.mp ((mem_insertionSort _).mp hv) with hv | hv
    · exact h.ptr v hv
    · rw [mem_singleton.mp hv]

theorem removeValidator (a : Address) : (vs.removeValidator a).1.Canonical P := by
  rw [ValidatorSet.removeValidator]
  split_ifs
  · exact ⟨fun v hv => h.ptr v (mem_of_mem_eraseP hv), h.sorted.sublist eraseP_sublist⟩
  · exact h

theorem congr {vs' : ValidatorSet} (heq : vs'.validators = vs.validators) : vs'.Canonical P :=
  ⟨heq ▸ h.ptr, heq ▸ h.sorted⟩

theorem map_addresses : (vs.addresses.map fun a => (⟨a, 0⟩ : Validator)) = vs.validators := by
  rw [addresses, map_map]
  refine (map_congr_left fun v hv => ?_).trans (map_id _)
  rw [Function.comp_apply, ← h.ptr v hv, id]

theorem copy_validators : (vs.copy P).validators = vs.validators := by
  rw [copy, newSet, h.map_addresses]
  exact h.sorted.insertionSort_eq

theorem newSet_of_perm (hinj : Function.Injective P.addressString)
    {addrs : List Address} (hperm : addrs.Perm vs.addresses) (policy : ProposerPolicy) :
    (newSet P addrs policy).validators = vs.validators := by
  have hnew := canonical_newSet P addrs policy
  refine List.Perm.eq_of_pairwise (fun v w hv hw hle hge => ?_) hnew.sorted h.sorted ?_
  · have haddr : v.address = w.address := hinj (List.le_antisymm hle hge)
    have hptr : v.ptr = w.ptr := (hnew.ptr v hv).trans (h.ptr w hw).symm
    cases v
    cases w
    exact Validator.mk.injEq .. ▸ ⟨haddr, hptr⟩
  · rw [← h.map_addresses]
    exact (perm_insertionSort _ _).trans (hperm.map _)

end

end Canonical

theorem F_eq (vs : ValidatorSet) : vs.F = ((vs.size : ℤ) + 2) / 3 - 1 := by
  have hceil : ⌈(vs.size : ℚ) / 3⌉ = ((vs.size : ℤ) + 2) / 3 := by
    rw [Int.ceil_eq_iff]
    have h1 := Int.emod_add_mul_ediv ((vs.size : ℤ) + 2) 3
    have h2 := Int.emod_nonneg ((vs.size : ℤ) + 2) (show (3 : ℤ) ≠ 0 by decide)
    have h3 := Int.emod_lt_of_pos ((vs.size : ℤ) + 2) (show (0 : ℤ) < 3 by decide)
    have h4 : (3 : ℤ) * (((vs.size : ℤ) + 2) / 3) ≤ vs.size + 2 := by omega
    have h5 : (vs.size : ℤ) ≤ 3 * (((vs.size : ℤ) + 2) / 3) := by omega
    have h4' : (3 : ℚ) * ((((vs.size : ℤ) + 2) / 3 : ℤ) : ℚ) ≤ vs.size + 2 := by exact_mod_cast h4
    have h5' : (vs.size : ℚ) ≤ 3 * ((((vs.size : ℤ) + 2) / 3 : ℤ) : ℚ) := by exact_mod_cast h5
    constructor <;> linarith
  rw [F, hceil]

theorem F_of_addresses {f : ℕ} (h : vs.addresses.length = 3 * f + 1) : vs.F = f := by
  rw [F_eq, ← length_addresses, h]
  omega

theorem F_nonneg (h : vs.addresses ≠ []) : 0 ≤ vs.F := by
  have hlength := length_pos_iff.mpr h
  rw [length_addresses] at hlength
  rw [F_eq]
  omega

/-! ### Quorums

`handleCommit` and `verifyCommittedSeals` ask for more than `2 F` votes, whatever the size of the set.
With `3 k + 1` validators two such sets share `k + 1 = F + 1` members; with `3 k + 2` or `3 k + 3`
validators `F` is still `k`, and the first and the last `2 k + 1` share no more than `k`. -/

/-- Enough votes to commit. -/
def IsQuorum (vs : ValidatorSet) (A : Finset Address) : Prop :=
  A ⊆ vs.addresses.toFinset ∧ 2 * vs.F < (A.card : ℤ)

theorem F_lt_card_inter (hnodup : vs.addresses.Nodup) (hsize : vs.size % 3 = 1)
    {A B : Finset Address} (hA : vs.IsQuorum A) (hB : vs.IsQuorum B) : vs.F < ((A ∩ B).card : ℤ) := by
  have hinter := Quorum.card_add_le_inter hA.1 hB.1
  have hcardA := hA.2
  have hcardB := hB.2
  rw [toFinset_card_of_nodup hnodup, length_addresses] at hinter
  rw [F_eq] at hcardA hcardB ⊢
  omega

theorem exists_quorums (hnodup : vs.addresses.Nodup) (hsize : 1 ≤ vs.size) :
    ∃ A B, vs.IsQuorum A ∧ vs.IsQuorum B ∧ (A ∩ B).card = 2 * (2 * ((vs.size + 2) / 3 - 1) + 1) - vs.size := by
  obtain ⟨k, hk⟩ : ∃ k, 2 * ((vs.size + 2) / 3 - 1) + 1 = k := ⟨_, rfl⟩
  have hle : k ≤ vs.addresses.length := by
    rw [length_addresses]
    omega
  have hF : 2 * vs.F < (k : ℤ) := by
    rw [F_eq]
    omega
  have htake : (vs.addresses.take k).toFinset.card = k := by
    rw [toFinset_card_of_nodup (hnodup.sublist (take_sublist _ _)), length_take]
    omega
  have hdrop : (vs.addresses.drop (vs.addresses.length - k)).toFinset.card = k := by
    rw [toFinset_card_of_nodup (hnodup.sublist (drop_sublist _ _)), length_drop]
    omega
  refine ⟨(vs.addresses.take k).toFinset, (vs.addresses.drop (vs.addresses.length - k)).toFinset,
    ⟨?_, by rw [htake]; exact hF⟩, ⟨?_, by rw [hdrop]; exact hF⟩, ?_⟩
  · exact fun a ha => mem_toFinset.mpr (mem_of_mem_take (mem_toFinset.mp ha))
  · exact fun a ha => mem_toFinset.mpr (mem_of_mem_drop (mem_toFinset.mp ha))
  · rw [Quorum.card_ends_inter hnodup hle, length_addresses, hk]

/-- **Quorum intersection.** Any two quorums share more than `F` validators, one of them outside any
`F` faulty ones, exactly if the number of validators is `3 k + 1`. -/
theorem quorums_intersect_iff (vs : ValidatorSet) (hnodup : vs.addresses.Nodup) (hsize : 1 ≤ vs.size) :
    (∀ A B, vs.IsQuorum A → vs.IsQuorum B → vs.F < ((A ∩ B).card : ℤ)
        ∧ ∀ X : Finset Address, (X.card : ℤ) ≤ vs.F → ∃ v ∈ A ∩ B, v ∉ X)
      ↔ vs.size % 3 = 1 := by
  constructor
  · intro h
    obtain ⟨A, B, hA, hB, hcard⟩ := exists_quorums hnodup hsize
    have hlt := (h A B hA hB).1
    rw [F_eq, hcard] at hlt
    omega
  · intro hmod A B hA hB
    have hlt := F_lt_card_inter hnodup hmod hA hB
    refine ⟨hlt, fun X hX => ?_⟩
    apply Quorum.exists_inter_notMem
    omega

end ValidatorSet

namespace Sample

open ValidatorSet

def validators (n : ℕ) : ValidatorSet :=
  ⟨(List.range n).map fun i => ⟨BitVec.ofNat 160 (i + 1), 0⟩, .roundRobin, none⟩

theorem quorums_intersect_iff_four : (validators 4).F = 1
    ∧ ∀ A B, (validators 4).IsQuorum A → (validators 4).IsQuorum B → 1 < (A ∩ B).card := by
  have hF : (validators 4).F = 1 := by
    rw [F_eq]
    decide
  refine ⟨hF, fun A B hA hB => ?_⟩
  have hiff := quorums_intersect_iff (validators 4) (by decide) (by decide)
  have hlt := (hiff.mpr (by decide) A B hA hB).1
  rw [hF] at hlt
  exact_mod_cast hlt

/-- Six validators, `F = 1`: three of them are enough to commit, and so are the other three. -/
theorem quorums_without_common_validator :
    (validators 6).F = 1 ∧ (validators 6).IsQuorum {1, 2, 3} ∧ (validators 6).IsQuorum {4, 5, 6}
      ∧ ({1, 2, 3} ∩ {4, 5, 6} : Finset Address) = ∅ := by
  have hF : (validators 6).F = 1 := by
    rw [F_eq]
    decide
  refine ⟨hF, ⟨by decide, ?_⟩, ⟨by decide, ?_⟩, by decide⟩
  · rw [hF]
    decide
  · rw [hF]
    decide

end Sample

end GoWanchain.Istanbul
