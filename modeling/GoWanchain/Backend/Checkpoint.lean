import GoWanchain.Backend.Agreement
import GoWanchain.Common.Encoding

/-!
# Snapshots on disk

The end of `consensus/istanbul/backend/snapshot.go`: every 1024 blocks a snapshot is written to the database
as a JSON document under the hash of its block. The document holds the validators in ascending order of
their bytes, while a validator set sorts them by their text form, in which the case of a letter depends on
the hash of the address (`addressHex`): loading builds the set anew, and finds it as it was (`loadSnapshot_store`).
-/

namespace GoWanchain.Backend

open State (Keccak keccak256)
open Istanbul (Primitives ValidatorSet ProposerPolicy)

/-! ### Texts -/

/-- The letter at `i` is a capital if its nibble of the hash is at most 7. -/
def checksummed (hash : Bytes) (i : ℕ) (c : UInt8) : UInt8 :=
  let hashByte := (hash[i / 2]?).getD 0
  let nibble := if i % 2 = 0 then hashByte >>> 4 else hashByte &&& 0xf
  if 57 < c ∧ nibble ≤ 7 then c - 32 else c

/-- `Address.Hex`. -/
def addressHex [Keccak] (a : Address) : Bytes :=
  let unchecksummed := (encodeHex (addressBytes a)).drop 2
  let hash := bePadded 32 (keccak256 unchecksummed).toNat
  48 :: 120 :: unchecksummed.mapIdx (checksummed hash)

theorem forall₂_mapIdx {α β : Type} {R : β → α → Prop} {f : ℕ → α → β} {l : List α}
    (h : ∀ i, ∀ a ∈ l, R (f i a) a) : List.Forall₂ R (l.mapIdx f) l := by
  induction l generalizing f with
  | nil => exact List.Forall₂.nil
  | cons a _ ih =>
    rw [List.mapIdx_cons]
    exact .cons (h 0 a List.mem_cons_self) (ih fun i b hb => h (i + 1) b (List.mem_cons_of_mem _ hb))

theorem decodeNibble_checksummed (hash : Bytes) (i : ℕ) {b : Bytes} {c : UInt8} (hc : c ∈ (encodeHex b).drop 2) :
    decodeNibble (checksummed hash i c) = decodeNibble c := by
  obtain ⟨n, hn, hdigit⟩ := mem_drop_encodeHex hc
  have hlower := decodeNibble_digit hn
  have hcapital := decodeNibble_capital hn
  rw [← hdigit] at hlower hcapital
  rw [checksummed, hlower]
  generalize (if i % 2 = 0 then _ else _) = nibble
  split_ifs with hletter
  · exact hcapital hletter.1
  · exact hlower

theorem addressHex_injective [Keccak] : Function.Injective addressHex := by
  have hdecode : ∀ a, hexDecodeString ((addressHex a).drop 2) = (addressBytes a, none) := by
    intro a
    rw [← hexDecodeString_drop_encodeHex (addressBytes a)]
    exact hexDecodeString_congr (forall₂_mapIdx fun i c hc => decodeNibble_checksummed _ i hc)
  intro a b hab
  have hbytes := hdecode b
  rw [← hab, hdecode a] at hbytes
  rw [← bytesToAddress_addressBytes a, (Prod.mk.inj hbytes).1, bytesToAddress_addressBytes]

/-- `Address.MarshalText`. -/
def addressText (a : Address) : Bytes := encodeHex (addressBytes a)

def unmarshalAddress (text : Bytes) : Option Address := (unmarshalFixedText 20 text).map bytesToAddress

@[simp] theorem unmarshalAddress_addressText (a : Address) : unmarshalAddress (addressText a) = some a := by
  have hlen : (addressBytes a).length = 20 := length_bePadded ..
  have htext := unmarshalFixedText_encodeHex (addressBytes a)
  rw [hlen] at htext
  rw [unmarshalAddress, addressText, htext, Option.map_some, bytesToAddress_addressBytes]

/-- `Hash.MarshalText`. -/
def hashText (h : Hash) : Bytes := encodeHex (bePadded 32 h.toNat)

def unmarshalHash (text : Bytes) : Option Hash := (unmarshalFixedText 32 text).map bytesToHash

@[simp] theorem unmarshalHash_hashText (h : Hash) : unmarshalHash (hashText h) = some h := by
  have htext := unmarshalFixedText_encodeHex (bePadded 32 h.toNat)
  rw [length_bePadded] at htext
  rw [unmarshalHash, hashText, htext, Option.map_some, bytesToHash_bePadded]

/-! ### Documents -/

structure VoteJSON where
  validator : Bytes
  block : ℕ
  address : Bytes
  authorize : Bool
deriving DecidableEq

structure SnapshotJSON where
  epoch : ℕ
  number : ℕ
  hash : Bytes
  votes : List VoteJSON
  /-- An object, with the addresses as its keys. -/
  tally : List (Bytes × Tally)
  validators : List Bytes
  policy : ProposerPolicy
deriving DecidableEq

def Vote.marshal (vote : Vote) : VoteJSON :=
  ⟨addressText vote.validator, vote.block, addressText vote.address, vote.authorize⟩

def VoteJSON.unmarshal (vote : VoteJSON) : Option Vote := do
  return ⟨← unmarshalAddress vote.validator, vote.block, ← unmarshalAddress vote.address, vote.authorize⟩

@[simp] theorem Vote.unmarshal_marshal (vote : Vote) : vote.marshal.unmarshal = some vote := by
  simp [Vote.marshal, VoteJSON.unmarshal]

/-! ### The validators in ascending order -/

/-- The inner loop of `validators`: `x` is exchanged with every smaller address that follows. -/
def sweep : Address → List Address → Address × List Address
  | x, [] => (x, [])
  | x, y :: rest =>
    if y < x then ((sweep y rest).1, x :: (sweep y rest).2) else ((sweep x rest).1, y :: (sweep x rest).2)

/-- The outer loop, with the length of the list. -/
def ascending : ℕ → List Address → List Address
  | n + 1, x :: rest => (sweep x rest).1 :: ascending n (sweep x rest).2
  | _, validators => validators

theorem sweep_perm (x : Address) (l : List Address) : ((sweep x l).1 :: (sweep x l).2).Perm (x :: l) := by
  induction l generalizing x with
  | nil => rfl
  | cons y _ ih =>
    rw [sweep]
    split_ifs
    · exact (List.Perm.swap ..).trans ((ih y).cons x)
    · exact (List.Perm.swap ..).trans (((ih x).cons y).trans (List.Perm.swap ..))

theorem ascending_perm (l : List Address) : (ascending l.length l).Perm l := by
  obtain ⟨n, hn⟩ : ∃ n, l.length = n := ⟨_, rfl⟩
  rw [hn]
  induction n generalizing l with
  | zero => cases l <;> rfl
  | succ _ ih =>
    cases l with
    | nil => rfl
    | cons x l =>
      have hperm := sweep_perm x l
      have hlen := hperm.length_eq
      simp only [List.length_cons] at hn hlen
      rw [ascending]
      exact ((ih _ (by omega)).cons _).trans hperm

namespace Snapshot

def validators (s : Snapshot) : List Address := ascending s.valSet.addresses.length s.valSet.addresses

theorem validators_perm (s : Snapshot) : s.validators.Perm s.valSet.addresses := ascending_perm _

def marshalJSON (s : Snapshot) : SnapshotJSON where
  epoch := s.epoch
  number := s.number
  hash := hashText s.hash
  votes := s.votes.map Vote.marshal
  tally := (GoMap.toList s.tally).map fun e => (addressText e.1, e.2)
  validators := s.validators.map addressText
  policy := s.valSet.policy

end Snapshot

def SnapshotJSON.unmarshal (P : Primitives) (j : SnapshotJSON) : Option Snapshot := do
  let hash ← unmarshalHash j.hash
  let votes ← j.votes.mapM VoteJSON.unmarshal
  let tally ← j.tally.mapM fun e => (unmarshalAddress e.1).map fun a => (a, e.2)
  let validators ← j.validators.mapM unmarshalAddress
  return {
    epoch := j.epoch
    number := j.number
    hash := hash
    votes := votes
    tally := GoMap.ofList tally
    valSet := ValidatorSet.newSet P validators j.policy }

/-- The snapshots in the database, under the hashes of their blocks. -/
abbrev SnapshotDb := Hash → Option SnapshotJSON

/-- `loadSnapshot`; `none` is an error. -/
def loadSnapshot (P : Primitives) (epoch : ℕ) (db : SnapshotDb) (hash : Hash) : Option Snapshot := do
  let snap ← (← db hash).unmarshal P
  return { snap with epoch := epoch }

def Snapshot.store (s : Snapshot) (db : SnapshotDb) : SnapshotDb :=
  Function.update db s.hash (some s.marshalJSON)

theorem loadSnapshot_store_of_ne (P : Primitives) (epoch : ℕ) (s : Snapshot) (db : SnapshotDb) {hash : Hash}
    (h : hash ≠ s.hash) : loadSnapshot P epoch (s.store db) hash = loadSnapshot P epoch db hash := by
  rw [loadSnapshot, loadSnapshot, Snapshot.store, Function.update_of_ne h]

theorem mapM_of_map {α β γ : Type} {f : α → β} {g : β → Option γ} {h : α → γ} (hfg : ∀ a, g (f a) = some (h a))
    (l : List α) : (l.map f).mapM g = some (l.map h) := by
  rw [List.mapM_map, show g ∘ f = fun a => pure (h a) from funext hfg, List.mapM_pure]
  rfl

theorem SnapshotJSON.unmarshal_marshalJSON (P : Primitives) (s : Snapshot) : s.marshalJSON.unmarshal P = some { s with
        tally := GoMap.ofList (GoMap.toList s.tally)
        valSet := ValidatorSet.newSet P s.validators s.valSet.policy } := by
  have hvotes := mapM_of_map (h := id) Vote.unmarshal_marshal s.votes
  have htally := mapM_of_map (f := fun e : Address × Tally => (addressText e.1, e.2))
    (g := fun e => (unmarshalAddress e.1).map fun a => (a, e.2)) (h := id) (by simp) (GoMap.toList s.tally)
  have hvalidators := mapM_of_map (h := id) unmarshalAddress_addressText s.validators
  simp only [List.map_id] at hvotes htally hvalidators
  simp [SnapshotJSON.unmarshal, Snapshot.marshalJSON, hvotes, htally, hvalidators]

theorem loadSnapshot_store {P : Primitives} (hinj : Function.Injective P.addressString) {s : Snapshot}
    (hcanon : s.valSet.Canonical P) (db : SnapshotDb) :
    ∃ t, loadSnapshot P s.epoch (s.store db) s.hash = some t ∧ t.SameAs s := by
  have hload : loadSnapshot P s.epoch (s.store db) s.hash = some { s with
        tally := GoMap.ofList (GoMap.toList s.tally)
        valSet := ValidatorSet.newSet P s.validators s.valSet.policy } := by
    rw [loadSnapshot, Snapshot.store, Function.update_self]
    simp only [Option.bind_eq_bind, Option.bind_some, SnapshotJSON.unmarshal_marshalJSON]
    rfl
  refine ⟨_, hload, ⟨⟨rfl, rfl, GoMap.lookup_ofList_toList s.tally, ?_, rfl⟩, rfl, rfl⟩⟩
  exact hcanon.newSet_of_perm hinj s.validators_perm _

end GoWanchain.Backend
