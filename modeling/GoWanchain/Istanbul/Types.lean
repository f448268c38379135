import Mathlib.Data.BitVec
import Mathlib.Data.Prod.Lex

/-!
# Views, proposals and messages

The data of `consensus/istanbul/types.go` and `core/types.go`. Round and sequence numbers are the
non-negative `*big.Int` that RLP decodes, so they are unbounded; a message code is a `uint64` off the wire
and need not be one of the four known ones.
-/

namespace GoWanchain.Istanbul

abbrev Bytes := List UInt8

abbrev Address := BitVec 160

abbrev Hash := BitVec 256

/-- `big.Int.Uint64`: the low 64 bits. -/
def uint64 (n : ℕ) : ℕ := n % 2 ^ 64

/-- `int64(x)` of any machine word or big integer: the low 64 bits, signed. -/
def int64 (n : ℤ) : ℤ := n.bmod (2 ^ 64)

/-- A proposed block. The consensus core reads its number and its hash; the rest of the block goes to
the backend as it is. -/
structure Block where
  number : ℕ
  parentHash : Hash
  body : Bytes
deriving DecidableEq

/-- The errors of `core/errors.go` and of the code the core calls; only their identity is read. -/
inductive Err
  | inconsistentSubject
  | notFromProposer
  | ignored
  | futureMessage
  | oldMessage
  | invalidMessage
  | failedDecodePreprepare
  | failedDecodePrepare
  | failedDecodeCommit
  | unauthorizedAddress
  | rlp
  | recover
  | futureBlock
  | invalidProposal
deriving DecidableEq

/-! ### Views -/

structure View where
  round : ℕ
  sequence : ℕ
deriving DecidableEq

namespace View

/-- Views are ordered by sequence, then by round. -/
instance : LinearOrder View :=
  LinearOrder.lift' (fun v : View => toLex (v.sequence, v.round)) (by
    rintro ⟨r, s⟩ ⟨r', s'⟩ h
    simp only [EmbeddingLike.apply_eq_iff_eq, Prod.mk.injEq] at h
    rw [h.1, h.2])

theorem lt_iff {v w : View} : v < w ↔ v.sequence < w.sequence ∨ v.sequence = w.sequence ∧ v.round < w.round :=
  Prod.Lex.lt_iff

theorem le_iff {v w : View} : v ≤ w ↔ v.sequence < w.sequence ∨ v.sequence = w.sequence ∧ v.round ≤ w.round :=
  Prod.Lex.le_iff

def cmp (v y : View) : Ordering :=
  if compare v.sequence y.sequence ≠ .eq then compare v.sequence y.sequence
  else if compare v.round y.round ≠ .eq then compare v.round y.round
  else .eq

theorem cmp_eq_lt {v y : View} : v.cmp y = .lt ↔ v < y := by
  rw [lt_iff, cmp]
  rcases lt_trichotomy v.sequence y.sequence with h | h | h
  · simp [Nat.compare_eq_lt.mpr h, h]
  · rcases lt_trichotomy v.round y.round with h' | h' | h'
    · simp [h, Nat.compare_eq_lt.mpr h', h']
    · simp [h, h']
    · simp [h, Nat.compare_eq_gt.mpr h', h'.le]
  · simp [Nat.compare_eq_gt.mpr h, h.le, h.ne']

theorem cmp_eq_gt {v y : View} : v.cmp y = .gt ↔ y < v := by
  have hswap : y.cmp v = (v.cmp y).swap := by
    simp only [cmp, ← Nat.compare_swap v.sequence, ← Nat.compare_swap v.round]
    cases compare v.sequence y.sequence <;> cases compare v.round y.round <;> rfl
  rw [← cmp_eq_lt, hswap]
  cases v.cmp y <;> simp

end View

/-! ### Messages -/

structure Preprepare where
  view : View
  proposal : Block
deriving DecidableEq

structure Subject where
  view : View
  digest : Hash
deriving DecidableEq

def msgPreprepare : UInt64 := 0
def msgPrepare : UInt64 := 1
def msgCommit : UInt64 := 2
def msgRoundChange : UInt64 := 3

structure Message where
  code : UInt64
  msg : Bytes
  address : Address
  signature : Bytes
  committedSeal : Bytes
deriving DecidableEq

/-- The 32 bytes of a hash, most significant first. -/
def hashBytes (h : Hash) : Bytes :=
  (List.range 32).map fun i => UInt8.ofNat (h.toNat / 256 ^ (31 - i))

def istanbulExtraSeal : ℕ := 65

/-- `PrepareCommittedSeal`: what a committed seal signs for the block of this hash. -/
def prepareCommittedSeal (hash : Hash) : Bytes := hashBytes hash ++ [msgCommit.toUInt8]

/-- What the consensus code calls and does not compute: `hash` is `Block.Hash` (Keccak), `encode..`
and `decode..` are `rlp.EncodeToBytes` and `rlp.DecodeBytes` at the three message types, `recover` is
`GetSignatureAddress` and `sign` is `crypto.Sign` with the key of an address. The laws are the ones
the protocol rests on: no block hashes to the zero hash, which stands for "no lock", RLP reads back
what it wrote, and a signature is 65 bytes from which its signer is recovered. -/
structure Primitives where
  hash : Block → Hash
  hash_ne_zero : ∀ b, hash b ≠ 0
  addressString : Address → Bytes
  encodeMessage : Message → Bytes
  decodeMessage : Bytes → Option Message
  decode_encodeMessage : ∀ m, decodeMessage (encodeMessage m) = some m
  encodePreprepare : Preprepare → Bytes
  decodePreprepare : Bytes → Option Preprepare
  decode_encodePreprepare : ∀ p, decodePreprepare (encodePreprepare p) = some p
  encodeSubject : Subject → Bytes
  decodeSubject : Bytes → Option Subject
  decode_encodeSubject : ∀ s, decodeSubject (encodeSubject s) = some s
  recover : Bytes → Bytes → Option Address
  sign : Address → Bytes → Bytes
  recover_sign : ∀ a data, recover data (sign a data) = some a
  length_sign : ∀ a data, (sign a data).length = istanbulExtraSeal

attribute [simp] Primitives.decode_encodeMessage Primitives.decode_encodePreprepare
  Primitives.decode_encodeSubject Primitives.recover_sign

/-- `message.PayloadNoSig`: what the sender of a message signs. -/
def Message.payloadNoSig (P : Primitives) (m : Message) : Bytes :=
  P.encodeMessage { m with signature := [] }

end GoWanchain.Istanbul
