import GoWanchain.Lib.Rlp
import GoWanchain.State.Object

/-!
# Block headers

`core/types/block.go` and `core/types/istanbul.go`: a header, its RLP form and its hash. The integers of
a header are `*big.Int`, which may be negative in memory; RLP has no form for a negative number, and
`rlpHash` drops the error.

A header whose mix digest is the Istanbul digest carries the validators, the proposer's seal and the
committed seals after 32 bytes of vanity in its extra-data. Its hash is taken after the committed seals
were cut out; if the extra-data does not decode, the header is hashed as it is.
-/

namespace GoWanchain.Types

open List

open State (Keccak keccak256)

/-- `big.Int.Uint64`: the low 64 bits of the absolute value. -/
def uint64 (n : ℤ) : ℕ := n.natAbs % 2 ^ 64

def int64 (n : ℤ) : ℤ := n.bmod (2 ^ 64)

structure Header where
  parentHash : Hash
  uncleHash : Hash
  coinbase : Address
  root : Hash
  txHash : Hash
  receiptHash : Hash
  bloom : BitVec 2048
  difficulty : ℤ
  number : ℤ
  gasLimit : ℤ
  gasUsed : ℤ
  time : ℤ
  extra : Bytes
  mixDigest : Hash
  nonce : BitVec 64
deriving DecidableEq

/-! ### The RLP of a header -/

/-- The fields of a header, in their order. -/
abbrev Fields := Hash × Hash × Address × Hash × Hash × Hash × BitVec 2048 × ℕ × ℕ × ℕ × ℕ × ℕ × Bytes × Hash × BitVec 64

def hashCodec : Rlp.Codec Hash := Rlp.byteArray 32

def addressCodec : Rlp.Codec Address := Rlp.byteArray 20

def bloomCodec : Rlp.Codec (BitVec 2048) := Rlp.byteArray 256

def nonceCodec : Rlp.Codec (BitVec 64) := Rlp.byteArray 8

def headerCodec : Rlp.Codec Fields :=
  (hashCodec.prod <| hashCodec.prod <| addressCodec.prod <| hashCodec.prod <| hashCodec.prod <|
    hashCodec.prod <| bloomCodec.prod <| Rlp.bigInt.prod <| Rlp.bigInt.prod <| Rlp.bigInt.prod <|
    Rlp.bigInt.prod <| Rlp.bigInt.prod <| Rlp.string.prod <| hashCodec.prod nonceCodec).whole.list

namespace Header

def fields (h : Header) : Fields :=
  (h.parentHash, h.uncleHash, h.coinbase, h.root, h.txHash, h.receiptHash, h.bloom, h.difficulty.toNat,
    h.number.toNat, h.gasLimit.toNat, h.gasUsed.toNat, h.time.toNat, h.extra, h.mixDigest, h.nonce)

/-- No integer of the header is negative. -/
def Encodable (h : Header) : Prop :=
  0 ≤ h.difficulty ∧ 0 ≤ h.number ∧ 0 ≤ h.gasLimit ∧ 0 ≤ h.gasUsed ∧ 0 ≤ h.time

instance (h : Header) : Decidable h.Encodable :=
  inferInstanceAs (Decidable (_ ∧ _ ∧ _ ∧ _ ∧ _))

/-- What `rlp.Encode` writes of a header; nothing, if it fails. -/
def encodeRLP (h : Header) : Bytes := if h.Encodable then headerCodec.enc h.fields else []

/-- The header has less bytes than a slice can have. -/
def Fits (h : Header) : Prop := (headerCodec.enc h.fields).length < 2 ^ 64

theorem fields_inj {h h' : Header} (he : h.Encodable) (he' : h'.Encodable) (heq : h.fields = h'.fields) : h = h' := by
  obtain ⟨d, n, l, u, t⟩ := he
  obtain ⟨d', n', l', u', t'⟩ := he'
  cases h
  cases h'
  simp only [fields, Prod.mk.injEq] at heq
  simp only [mk.injEq]
  simp only [] at d n l u t d' n' l' u' t'
  obtain ⟨h1, h2, h3, h4, h5, h6, h7, h8, h9, h10, h11, h12, h13, h14, h15⟩ := heq
  exact ⟨h1, h2, h3, h4, h5, h6, h7, by omega, by omega, by omega, by omega, by omega, h13, h14, h15⟩

theorem encodeRLP_inj {h h' : Header} (he : h.Encodable) (hfits : h.Fits)
    (heq : h.encodeRLP = h'.encodeRLP) : h = h' := by
  rw [encodeRLP, if_pos he, encodeRLP] at heq
  split_ifs at heq with he'
  · exact fields_inj he he' (headerCodec.whole.enc_inj hfits heq)
  · exact absurd heq (headerCodec.enc_ne_nil _)

end Header

/-! ### Istanbul extra-data -/

def istanbulDigest : Hash := 0x63746963616c2062797a616e74696e65206661756c7420746f6c6572616e6365

def istanbulExtraVanity : ℕ := 32

def istanbulExtraSeal : ℕ := 65

/-- `IstanbulExtra`; `proposerSeal` is its `Seal`. -/
structure IstanbulExtra where
  validators : List Address
  proposerSeal : Bytes
  committedSeal : List Bytes
deriving DecidableEq

def istanbulExtraCodec : Rlp.Codec (List Address × Bytes × List Bytes) :=
  (addressCodec.many.list.prod <| Rlp.string.prod Rlp.string.many.list).whole.list

inductive ExtraError
  | invalidIstanbulHeaderExtra
  | rlp
deriving DecidableEq

namespace IstanbulExtra

def encodeRLP (ist : IstanbulExtra) : Bytes :=
  istanbulExtraCodec.enc (ist.validators, ist.proposerSeal, ist.committedSeal)

/-- `rlp.DecodeBytes` into an `IstanbulExtra`. -/
def decodeRLP (b : Bytes) : Option IstanbulExtra :=
  (istanbulExtraCodec.whole.dec b).map fun p => ⟨p.1, p.2.1, p.2.2⟩

theorem decodeRLP_encodeRLP (ist : IstanbulExtra) (h : ist.encodeRLP.length < 2 ^ 64) :
    decodeRLP ist.encodeRLP = some ist := by
  have hdec : istanbulExtraCodec.whole.dec ist.encodeRLP = some (ist.validators, ist.proposerSeal, ist.committedSeal) :=
    istanbulExtraCodec.whole.dec_enc _ h
  rw [decodeRLP, hdec]
  rfl

theorem encodeRLP_of_decodeRLP {b : Bytes} {ist : IstanbulExtra} (h : decodeRLP b = some ist) : b = ist.encodeRLP := by
  obtain ⟨p, hp, rfl⟩ := Option.map_eq_some_iff.mp h
  exact istanbulExtraCodec.whole.enc_of_dec hp

end IstanbulExtra

def extractIstanbulExtra (h : Header) : Except ExtraError IstanbulExtra :=
  if h.extra.length < istanbulExtraVanity then .error .invalidIstanbulHeaderExtra
  else
    match IstanbulExtra.decodeRLP (h.extra.drop istanbulExtraVanity) with
    | none => .error .rlp
    | some istanbulExtra => .ok istanbulExtra

namespace Header

/-- The header with the vanity that it has and other extra-data after it. -/
def withExtra (h : Header) (ist : IstanbulExtra) : Header :=
  { h with extra := h.extra.take istanbulExtraVanity ++ ist.encodeRLP }

end Header

/-- `IstanbulFilteredHeader`; `none` is nil. -/
def istanbulFilteredHeader (h : Header) (keepSeal : Bool) : Option Header :=
  match extractIstanbulExtra h with
  | .error _ => none
  | .ok ist =>
    let ist := if keepSeal then ist else { ist with proposerSeal := [] }
    some (h.withExtra { ist with committedSeal := [] })

namespace Header

variable [Keccak]

/-- What `Hash` feeds to Keccak. -/
def preimage (h : Header) : Bytes :=
  if h.mixDigest = istanbulDigest then ((istanbulFilteredHeader h true).getD h).encodeRLP else h.encodeRLP

def hash (h : Header) : Hash := keccak256 h.preimage

end Header

/-! ### Reading and writing the extra-data -/

variable {h : Header} {ist : IstanbulExtra}

open IstanbulExtra (encodeRLP decodeRLP encodeRLP_of_decodeRLP)

theorem extractIstanbulExtra_eq_ok : extractIstanbulExtra h = .ok ist ↔ istanbulExtraVanity ≤ h.extra.length ∧
      decodeRLP (h.extra.drop istanbulExtraVanity) = some ist := by
  rw [extractIstanbulExtra]
  split_ifs with hlen
  · simp [not_le.mpr hlen]
  · cases decodeRLP (h.extra.drop istanbulExtraVanity) <;> simp [not_lt.mp hlen]

theorem withExtra_of_extract (hext : extractIstanbulExtra h = .ok ist) : h.withExtra ist = h := by
  have hb := encodeRLP_of_decodeRLP (extractIstanbulExtra_eq_ok.mp hext).2
  rw [Header.withExtra, ← hb, take_append_drop]

section WithExtra

variable {h : Header} {ist : IstanbulExtra} (hlen : istanbulExtraVanity ≤ h.extra.length)
include hlen

theorem take_withExtra : (h.withExtra ist).extra.take istanbulExtraVanity = h.extra.take istanbulExtraVanity := by
  rw [Header.withExtra, take_append_of_le_length (by simp [hlen]), take_take, min_self]

theorem drop_withExtra : (h.withExtra ist).extra.drop istanbulExtraVanity = ist.encodeRLP := by
  rw [Header.withExtra, drop_left']
  simp [hlen]

theorem withExtra_withExtra (ist' : IstanbulExtra) : (h.withExtra ist).withExtra ist' = h.withExtra ist' := by
  rw [Header.withExtra, take_withExtra hlen]
  rfl

theorem extract_withExtra (hfits : (h.withExtra ist).extra.length < 2 ^ 64) :
    extractIstanbulExtra (h.withExtra ist) = .ok ist := by
  have hlen' : (h.withExtra ist).extra.length = istanbulExtraVanity + ist.encodeRLP.length := by
    rw [Header.withExtra, length_append, length_take, min_eq_left hlen]
  rw [extractIstanbulExtra_eq_ok, drop_withExtra hlen]
  exact ⟨by omega, ist.decodeRLP_encodeRLP (by omega)⟩

end WithExtra

theorem istanbulFilteredHeader_of_extract (hext : extractIstanbulExtra h = .ok ist) (keepSeal : Bool) :
    istanbulFilteredHeader h keepSeal = some (h.withExtra
      { ist with proposerSeal := if keepSeal then ist.proposerSeal else [], committedSeal := [] }) := by
  rw [istanbulFilteredHeader, hext]
  cases keepSeal <;> rfl

/-! ### Sizes -/

namespace Header

theorem length_extra_le (h : Header) : h.extra.length ≤ (headerCodec.enc h.fields).length := by
  have hextra := Rlp.Value.length_content_le (.string h.extra)
  refine le_trans hextra (le_trans ?_ (Rlp.Value.length_content_le (.list _)))
  simp only [Rlp.Value.content, Rlp.Codec.whole, Rlp.Codec.prod, fields, length_append, Rlp.string]
  omega

theorem Fits.extra {h : Header} (hfits : h.Fits) : h.extra.length < 2 ^ 64 :=
  lt_of_le_of_lt h.length_extra_le hfits

theorem Fits.of_extra_le {h : Header} (hfits : h.Fits) {b : Bytes} (hb : b.length ≤ h.extra.length)
    (hsmall : Rlp.isSmall h.extra = false) : Header.Fits { h with extra := b } := by
  have hstring := Rlp.Value.length_string_le hsmall hb
  refine lt_of_le_of_lt (Rlp.Value.length_list_le ?_) hfits
  simp only [Rlp.Codec.whole, Rlp.Codec.prod, fields, length_append, Rlp.string]
  omega

end Header

theorem IstanbulExtra.length_encodeRLP_le (ist : IstanbulExtra) (proposerSeal : Bytes)
    (h : proposerSeal = ist.proposerSeal ∨ proposerSeal = []) :
    (encodeRLP ⟨ist.validators, proposerSeal, []⟩).length ≤ ist.encodeRLP.length := by
  have hseal : (Rlp.string.enc proposerSeal).length ≤ (Rlp.string.enc ist.proposerSeal).length := by
    rcases h with rfl | rfl
    · exact le_rfl
    · exact length_pos_iff.mpr (Rlp.string.enc_ne_nil _)
  have hcommitted : (Rlp.string.many.list.enc []).length ≤ (Rlp.string.many.list.enc ist.committedSeal).length :=
    Rlp.Value.length_list_le (by simp [Rlp.Codec.many])
  refine Rlp.Value.length_list_le ?_
  simp only [Rlp.Codec.whole, Rlp.Codec.prod, length_append]
  omega

theorem IstanbulExtra.length_encodeRLP_congr (validators : List Address) {s s' : Bytes}
    (hs : s.length = istanbulExtraSeal) (hs' : s'.length = istanbulExtraSeal) :
    (encodeRLP ⟨validators, s, []⟩).length = (encodeRLP ⟨validators, s', []⟩).length := by
  have hsmall : ∀ s : Bytes, s.length = istanbulExtraSeal → Rlp.isSmall s = false := by
    rintro (_ | ⟨x, _ | ⟨y, l⟩⟩) h
    · rfl
    · exact absurd h (by simp [istanbulExtraSeal])
    · rfl
  have hle : ∀ s s' : Bytes, s.length = istanbulExtraSeal → s'.length = istanbulExtraSeal →
      (encodeRLP ⟨validators, s, []⟩).length ≤ (encodeRLP ⟨validators, s', []⟩).length := by
    intro s s' hs hs'
    have hseal := Rlp.Value.length_string_le (hsmall s' hs') (hs.trans hs'.symm).le
    refine Rlp.Value.length_list_le ?_
    simp only [Rlp.Codec.whole, Rlp.Codec.prod, length_append, Rlp.string]
    omega
  exact le_antisymm (hle s s' hs hs') (hle s' s hs' hs)

theorem Header.Fits.filtered {g : Header} (hfits : h.Fits) {keepSeal : Bool}
    (hg : istanbulFilteredHeader h keepSeal = some g) : g.Fits := by
  cases hext : extractIstanbulExtra h with
  | error =>
    rw [istanbulFilteredHeader, hext] at hg
    cases hg
  | ok ist =>
    rw [istanbulFilteredHeader_of_extract hext, Option.some.injEq] at hg
    subst hg
    obtain ⟨hlen, hdec⟩ := extractIstanbulExtra_eq_ok.mp hext
    have hdrop := congrArg length (encodeRLP_of_decodeRLP hdec)
    rw [length_drop] at hdrop
    have hseals := ist.length_encodeRLP_le (if keepSeal then ist.proposerSeal else []) (by cases keepSeal <;> simp)
    have hvanity : 2 ≤ istanbulExtraVanity := by decide
    refine hfits.of_extra_le ?_ ?_
    · rw [length_append, length_take, min_eq_left hlen]
      omega
    · match hextra : h.extra with
      | [] => rfl
      | [x] =>
        rw [hextra] at hlen
        simp only [length_singleton] at hlen
        omega
      | _ :: _ :: _ => rfl

end GoWanchain.Types
