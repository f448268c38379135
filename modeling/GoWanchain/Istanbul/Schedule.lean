import GoWanchain.Backend.Checkpoint
import GoWanchain.Istanbul.Sample

/-!
# The proposer schedule

Which validator proposes is a function of the set of validators, the last proposer and the round
(`consensus/istanbul/validator/default.go`). The list of a set is sorted by the texts of the addresses,
so that it does not depend on how the set came about (`Arises`). The round robin takes the validator that
stands `round + 1` places behind the last proposer; the zero address stands for "no last proposer", and
there the count starts at the head of the list, also if the zero address is a validator.
-/

namespace GoWanchain.Istanbul

open List
open GoWanchain.State (Keccak)
open GoWanchain.Backend (addressHex addressHex_injective checksummed)

namespace ValidatorSet

/-! ### How a set comes about -/

/-- `vs` is the result of `NewSet` on distinct addresses, in any order, and of `AddValidator` and
`RemoveValidator` calls that return true; `A` is the set of addresses that results. -/
inductive Arises (P : Primitives) : Finset Address → ValidatorSet → Prop
  | new {addrs : List Address} (hnodup : addrs.Nodup) (policy : ProposerPolicy) :
      Arises P addrs.toFinset (newSet P addrs policy)
  | add {A : Finset Address} {vs : ValidatorSet} (h : Arises P A vs) {a : Address}
      (hadd : (vs.addValidator P a).2 = true) : Arises P (insert a A) (vs.addValidator P a).1
  | remove {A : Finset Address} {vs : ValidatorSet} (h : Arises P A vs) {a : Address}
      (hremove : (vs.removeValidator a).2 = true) : Arises P (A.erase a) (vs.removeValidator a).1

variable {vs : ValidatorSet} {last : Address} {round : ℕ}

theorem notMem_of_addValidator {P : Primitives} {a : Address}
    (h : (vs.addValidator P a).2 = true) : a ∉ vs.addresses := by
  intro ha
  rw [addValidator, if_pos ha] at h
  exact Bool.false_ne_true h

theorem mem_of_removeValidator {a : Address} (h : (vs.removeValidator a).2 = true) : a ∈ vs.addresses := by
  by_contra ha
  rw [removeValidator, if_neg ha] at h
  exact Bool.false_ne_true h

namespace Arises

variable {P : Primitives} {A : Finset Address} {vs : ValidatorSet}

section

variable (h : Arises P A vs)

include h

theorem canonical : vs.Canonical P := by
  induction h with
  | new _ policy => exact canonical_newSet P _ policy
  | add _ _ ih => exact ih.addValidator _
  | remove _ _ ih => exact ih.removeValidator _

theorem nodup : vs.addresses.Nodup := by
  induction h with
  | new hnodup policy => exact (newSet_addresses P _ policy).nodup_iff.mpr hnodup
  | @add A vs _ a hadd ih =>
    have ha := notMem_of_addValidator hadd
    exact (addValidator_of_notMem P ha).nodup_iff.mpr (nodup_cons.mpr ⟨ha, ih⟩)
  | @remove A vs _ a hremove ih =>
    rw [(removeValidator_of_mem (mem_of_removeValidator hremove)).2]
    exact ih.erase a

theorem toFinset_addresses : vs.addresses.toFinset = A := by
  induction h with
  | new _ policy => exact toFinset_eq_of_perm _ _ (newSet_addresses P _ policy)
  | @add A vs _ a hadd ih =>
    have hperm := addValidator_of_notMem P (notMem_of_addValidator hadd)
    rw [toFinset_eq_of_perm _ _ hperm, toFinset_cons, ih]
  | @remove A vs h a hremove ih =>
    rw [(removeValidator_of_mem (mem_of_removeValidator hremove)).2, ← ih]
    ext b
    simp [h.nodup.mem_erase_iff]

theorem mem_addresses {a : Address} : a ∈ vs.addresses ↔ a ∈ A := by
  rw [← h.toFinset_addresses, mem_toFinset]

end

theorem validators_eq (hinj : Function.Injective P.addressString) (h : Arises P A vs)
    {vs' : ValidatorSet} (h' : Arises P A vs') : vs'.validators = vs.validators := by
  have hperm : vs'.addresses.Perm vs.addresses := by
    rw [perm_ext_iff_of_nodup h'.nodup h.nodup]
    intro a
    rw [h.mem_addresses, h'.mem_addresses]
  calc vs'.validators = (newSet P vs'.addresses vs'.policy).validators := h'.canonical.copy_validators.symm
    _ = vs.validators := h.canonical.newSet_of_perm hinj hperm vs'.policy

theorem sorted_addresses (hinj : Function.Injective P.addressString) (h : Arises P A vs) :
    vs.addresses.Pairwise fun a b => P.addressString a < P.addressString b := by
  have hle : vs.addresses.Pairwise fun a b => P.addressString a ≤ P.addressString b :=
    pairwise_map.mpr h.canonical.sorted
  refine (hle.and h.nodup).imp fun {a b} hab => ?_
  exact List.not_le.mp fun hge => hab.2 (hinj (List.le_antisymm hab.1 hge))

end Arises

/-! ### The place of a proposer -/

/-- The place of an address in the list, and 0 if it is not there: the offset of `calcSeed`. -/
def offset (vs : ValidatorSet) (addr : Address) : ℕ := ((vs.getByAddress addr).map (·.1)).getD 0

/-- Where the round robin starts to count. -/
def start (vs : ValidatorSet) (last : Address) : ℕ := if last = 0 then 0 else vs.offset last + 1

/-- The sums of `calcSeed` and `roundRobinProposer` stay below `2 ^ 64`. -/
def Unwrapped (vs : ValidatorSet) (last : Address) (round : ℕ) : Prop := vs.start last + round < 2 ^ 64

theorem roundRobinProposer_eq (hsize : 0 < vs.size) (hwrap : vs.Unwrapped last round) :
    vs.roundRobinProposer last round = vs.getByIndex ((vs.start last + round) % vs.size) := by
  rw [Unwrapped, start] at hwrap
  rw [roundRobinProposer, if_neg (by omega), start]
  split_ifs at hwrap ⊢ with hzero
  · rw [Nat.zero_add]
  · have hseed : uint64 (vs.calcSeed last round + 1) = vs.offset last + 1 + round := by
      rw [calcSeed, ← offset, uint64, uint64, Nat.mod_eq_of_lt (by omega), Nat.mod_eq_of_lt (by omega)]
      omega
    simp only [hseed]

theorem offset_getElem (hnodup : vs.addresses.Nodup) {i : ℕ} {v : Validator}
    (hv : vs.validators[i]? = some v) : vs.offset v.address = i := by
  have hget : vs.addresses[i]? = some v.address := by
    rw [addresses, List.getElem?_map, hv, Option.map_some]
  obtain ⟨⟨j, w⟩, hfind⟩ := Option.isSome_iff_exists.mp (getByAddress_isSome.mpr (mem_of_getElem? hget))
  have hj : vs.addresses[j]? = some v.address := by
    have hw := (findAddress_eq_some hfind).2.1
    rw [addresses, List.getElem?_map, show vs.validators[j]? = some w from hw, Option.map_some,
      getByAddress_address hfind]
  rw [offset, hfind]
  have hlt := (List.getElem?_eq_some_iff.mp hj).1
  exact (List.getElem?_inj hlt hnodup).mp (hj.trans hget.symm)

theorem offset_lt (hsize : 0 < vs.size) (last : Address) : vs.offset last < vs.size := by
  rw [offset]
  rcases hfind : vs.getByAddress last with _ | ⟨j, v⟩
  · exact hsize
  · exact (List.getElem?_eq_some_iff.mp (findAddress_eq_some hfind).2.1).1

theorem nodup_circle (hnodup : vs.addresses.Nodup) (c : ℕ) :
    ((List.range vs.size).map fun i => vs.addresses[(c + i) % vs.size]?).Nodup := by
  refine List.Nodup.map_on (fun i hi j hj hget => ?_) nodup_range
  rw [mem_range] at hi hj
  have hlt : (c + i) % vs.size < vs.addresses.length := by
    rw [length_addresses]
    exact Nat.mod_lt _ (by omega)
  have hmod : c + i ≡ c + j [MOD vs.size] := (List.getElem?_inj hlt hnodup).mp hget
  have hcancel : i ≡ j [MOD vs.size] := Nat.ModEq.add_left_cancel' c hmod
  rwa [Nat.ModEq, Nat.mod_eq_of_lt hi, Nat.mod_eq_of_lt hj] at hcancel

/-! ### Consecutive rounds -/

/-- The address of the proposer in the round, if there is one. -/
def proposerAt (vs : ValidatorSet) (last : Address) (round : ℕ) : Option Address :=
  (vs.roundRobinProposer last round).map (·.address)

theorem proposerAt_eq (hsize : 0 < vs.size) (hwrap : vs.Unwrapped last round) :
    vs.proposerAt last round = vs.addresses[(vs.start last + round) % vs.size]? := by
  rw [proposerAt, roundRobinProposer_eq hsize hwrap, addresses, List.getElem?_map, getByIndex]

theorem exists_proposer (hsize : 0 < vs.size) (last : Address) (round : ℕ) :
    ∃ a ∈ vs.addresses, vs.proposerAt last round = some a := by
  rw [proposerAt, roundRobinProposer, if_neg (by omega)]
  generalize (if last = 0 then round else _) = seed
  have hlt : seed % vs.size < vs.validators.length := Nat.mod_lt _ hsize
  refine ⟨(vs.validators[seed % vs.size]).address, mem_map.mpr ⟨_, getElem_mem hlt, rfl⟩, ?_⟩
  rw [getByIndex, List.getElem?_eq_getElem hlt, Option.map_some]

theorem nodup_rounds (hnodup : vs.addresses.Nodup) (hwrap : ∀ i < vs.size, vs.Unwrapped last (round + i)) :
    ((List.range vs.size).map fun i => vs.proposerAt last (round + i)).Nodup := by
  have hcircle := nodup_circle hnodup (vs.start last + round)
  rwa [map_congr_left fun i hi => ?_]
  have hi := mem_range.mp hi
  rw [proposerAt_eq (by omega) (hwrap i hi), Nat.add_assoc]

/-! ### Consecutive blocks -/

/-- The proposer of the `k`-th block on top of one that `last` proposed, if all of them are decided in
round 0. -/
def blockProposer (vs : ValidatorSet) (last : Address) : ℕ → Option Address
  | 0 => vs.proposerAt last 0
  | k + 1 => (blockProposer vs last k).bind fun a => vs.proposerAt a 0

theorem exists_blockProposer (hsize : 0 < vs.size) (last : Address) (k : ℕ) :
    ∃ a ∈ vs.addresses, vs.blockProposer last k = some a := by
  induction k with
  | zero => exact exists_proposer hsize last 0
  | succ _ ih =>
    obtain ⟨a, -, ha⟩ := ih
    rw [blockProposer, ha, Option.bind_some]
    exact exists_proposer hsize a 0

theorem blockProposer_eq (hnodup : vs.addresses.Nodup) (hsize : 0 < vs.size)
    (hmax : vs.size < 2 ^ 64) (hzero : 0 ∉ vs.addresses) (last : Address) (k : ℕ) :
    vs.blockProposer last k = vs.addresses[(vs.start last + k) % vs.size]? := by
  have hwrap : ∀ a, vs.Unwrapped a 0 := by
    intro a
    have hoffset := offset_lt hsize a
    rw [Unwrapped, start]
    split_ifs <;> omega
  induction k with
  | zero => rw [blockProposer, proposerAt_eq hsize (hwrap last)]
  | succ k ih =>
    obtain ⟨a, hmem, ha⟩ := exists_blockProposer hsize last k
    have hplace := ih.symm.trans ha
    rw [addresses, List.getElem?_map, Option.map_eq_some_iff] at hplace
    obtain ⟨v, hv, rfl⟩ := hplace
    have hstart : vs.start v.address = (vs.start last + k) % vs.size + 1 := by
      rw [start, if_neg (fun h : v.address = 0 => hzero (h ▸ hmem)), offset_getElem hnodup hv]
    rw [blockProposer, ha, Option.bind_some, proposerAt_eq hsize (hwrap _), hstart, Nat.add_zero,
      Nat.mod_add_mod, Nat.add_assoc]

/-! ### The zero address as a validator -/

theorem digit_le_checksummed (hash : Bytes) (i : ℕ) {b : Bytes} {c : UInt8} (hc : c ∈ (encodeHex b).drop 2) :
    48 ≤ checksummed hash i c := by
  obtain ⟨n, hn, hdigit⟩ := mem_drop_encodeHex hc
  have hlower : 48 ≤ c := by
    rw [hdigit]
    interval_cases n <;> decide
  have hcapital : 57 < c → 48 ≤ c - 32 := by
    rw [hdigit]
    interval_cases n <;> decide
  rw [checksummed]
  generalize (if i % 2 = 0 then _ else _) = nibble
  split_ifs with hletter
  · exact hcapital hletter.1
  · exact hlower

theorem replicate_le {l : Bytes} (h : ∀ c ∈ l, 48 ≤ c) : List.replicate l.length 48 ≤ l := by
  induction l with
  | nil => exact List.le_refl _
  | cons c _ ih =>
    rw [length_cons, replicate_succ, cons_le_cons_iff]
    rcases UInt8.lt_or_eq_of_le (h c mem_cons_self) with hlt | rfl
    · exact .inl hlt
    · exact .inr ⟨rfl, ih fun d hd => h d (mem_cons_of_mem _ hd)⟩

theorem addressHex_zero_le [Keccak] (a : Address) : addressHex 0 ≤ addressHex a := by
  have hdigits : (encodeHex (addressBytes 0)).drop 2 = List.replicate 40 48 := by decide +kernel
  have hzero : ∀ hash, (List.replicate 40 (48 : UInt8)).mapIdx (checksummed hash) = List.replicate 40 48 := by
    intro hash
    refine eq_replicate_iff.mpr ⟨by simp, fun c hc => ?_⟩
    obtain ⟨i, hi, rfl⟩ := mem_mapIdx.mp hc
    rw [getElem_replicate]
    simp [checksummed]
  obtain ⟨hash, htext⟩ : ∃ hash, addressHex a
      = 48 :: 120 :: ((encodeHex (addressBytes a)).drop 2).mapIdx (checksummed hash) := ⟨_, rfl⟩
  have hlength : (((encodeHex (addressBytes a)).drop 2).mapIdx (checksummed hash)).length = 40 := by
    simp [addressBytes, length_bePadded]
  have hle : ∀ c ∈ ((encodeHex (addressBytes a)).drop 2).mapIdx (checksummed hash), 48 ≤ c := by
    intro c hc
    obtain ⟨i, hi, rfl⟩ := mem_mapIdx.mp hc
    exact digit_le_checksummed hash i (getElem_mem _)
  have hrest := replicate_le hle
  rw [hlength] at hrest
  rw [htext, addressHex, hdigits, hzero, cons_le_cons_iff, cons_le_cons_iff]
  exact .inr ⟨rfl, .inr ⟨rfl, hrest⟩⟩

section Fairness

variable [Keccak] {P : Primitives} {A : Finset Address} {vs : ValidatorSet} (hstring : P.addressString = addressHex)
  (h : Arises P A vs)

include hstring h

theorem Arises.head_eq_zero (hzero : 0 ∈ A) : vs.addresses[0]? = some 0 := by
  have hsorted := h.sorted_addresses (hstring ▸ addressHex_injective)
  have hmem := h.mem_addresses.mpr hzero
  cases hlist : vs.addresses with
  | nil => simp [hlist] at hmem
  | cons a =>
    rw [hlist, mem_cons] at hmem
    rw [hlist, pairwise_cons] at hsorted
    rcases hmem with rfl | hmem
    · rfl
    · have hlt := hsorted.1 0 hmem
      rw [hstring] at hlt
      exact absurd (addressHex_zero_le a) (List.not_le.mpr hlt)

theorem Arises.blockProposer_zero (hzero : 0 ∈ A) (hsize : 0 < vs.size) (k : ℕ) : vs.blockProposer 0 k = some 0 := by
  have hnext : vs.proposerAt 0 0 = some 0 := by
    rw [proposerAt_eq hsize (by simp [Unwrapped, start]), start, if_pos rfl, Nat.add_zero, Nat.zero_mod]
    exact h.head_eq_zero hstring hzero
  induction k with
  | zero => exact hnext
  | succ _ ih => rw [blockProposer, ih, Option.bind_some, hnext]

/-- Any `n` consecutive blocks have different proposers exactly if the zero address is not one of several
validators. -/
theorem Arises.nodup_blocks_iff (hsize : 0 < vs.size) (hmax : vs.size < 2 ^ 64) :
    (∀ last k, ((List.range vs.size).map fun i => vs.blockProposer last (k + i)).Nodup) ↔ 0 ∉ A ∨ vs.size = 1 := by
  constructor
  · intro hfair
    by_contra hnot
    obtain ⟨hzero, hne⟩ := not_or.mp hnot
    have hall : ∀ i, vs.blockProposer 0 (0 + i) = some 0 := fun i =>
      h.blockProposer_zero hstring (not_not.mp hzero) hsize (0 + i)
    have hnodup := hfair 0 0
    rw [map_congr_left fun i _ => hall i, map_const', length_range, nodup_replicate] at hnodup
    omega
  · rintro (hzero | hone) last k
    · have hcircle := nodup_circle h.nodup (vs.start last + k)
      rwa [map_congr_left fun i _ => ?_]
      rw [blockProposer_eq h.nodup hsize hmax (h.mem_addresses.not.mpr hzero), Nat.add_assoc]
    · rw [hone]
      exact nodup_singleton _

end Fairness

end ValidatorSet

namespace Sample

open ValidatorSet

attribute [local instance] Backend.Sample.keccak

/-- Validators are sorted by their checksummed texts. -/
def hexPrimitives : Primitives := { primitives with addressString := addressHex }

/-- The validators 2 and 1; then 3 joins and 2 leaves. -/
def changed : ValidatorSet :=
  (((newSet hexPrimitives [2, 1] .roundRobin).addValidator hexPrimitives 3).1.removeValidator 2).1

theorem arises_changed : Arises hexPrimitives {1, 3} changed := by
  have hnew : Arises hexPrimitives _ (newSet hexPrimitives [2, 1] .roundRobin) := .new (by decide) .roundRobin
  have hremoved := (hnew.add (a := 3) (by decide +kernel)).remove (a := 2) (by decide +kernel)
  rwa [show (insert 3 ([2, 1] : List Address).toFinset).erase 2 = {1, 3} by decide +kernel] at hremoved

end Sample

end GoWanchain.Istanbul
