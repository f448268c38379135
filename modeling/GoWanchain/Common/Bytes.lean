import GoWanchain.Lib.BigEndian
import Mathlib.Data.FinEnum

/-!
# Byte strings, addresses and numbers

`common/types.go` and the part of RLP that storage slots use. A
`common.Address` or `common.Hash` is a number of its width, so `BytesToAddress`, `BigToHash` and their
like, which keep the low bytes, are reductions of the big-endian number `beNat`.

A storage slot is written as the RLP string of its word without leading zeros (`encodeWord`) and read
back as the content of whatever RLP value is found there (`decodeWord`).
-/

namespace GoWanchain

abbrev Address := BitVec 160

abbrev Hash := BitVec 256

def bytesToHash (b : Bytes) : Hash := BitVec.ofNat 256 (beNat b)

def bytesToAddress (b : Bytes) : Address := BitVec.ofNat 160 (beNat b)

theorem bytesToHash_beBytes (h : Hash) : bytesToHash (beBytes h.toNat) = h := by
  rw [bytesToHash, beNat_beBytes, BitVec.ofNat_toNat, BitVec.setWidth_eq]

def addressBytes (addr : Address) : Bytes := bePadded 20 addr.toNat

theorem bytesToAddress_addressBytes (a : Address) : bytesToAddress (addressBytes a) = a := by
  have ha : a.toNat < 256 ^ 20 := by simpa using a.isLt
  rw [bytesToAddress, addressBytes, beNat_bePadded ha, BitVec.ofNat_toNat, BitVec.setWidth_eq]

theorem bytesToHash_bePadded (h : Hash) : bytesToHash (bePadded 32 h.toNat) = h := by
  have hh : h.toNat < 256 ^ 32 := by simpa using h.isLt
  rw [bytesToHash, beNat_bePadded hh, BitVec.ofNat_toNat, BitVec.setWidth_eq]

theorem bytesToHash_inj {b c : Bytes} (hlen : b.length = c.length) (hb : b.length = 32)
    (h : bytesToHash b = bytesToHash c) : b = c := by
  have hlt (d : Bytes) (hd : d.length = 32) : beNat d % 2 ^ 256 = beNat d :=
    Nat.mod_eq_of_lt (by simpa [hd] using beNat_lt d)
  have hnat := congrArg BitVec.toNat h
  rw [bytesToHash, bytesToHash, BitVec.toNat_ofNat, BitVec.toNat_ofNat, hlt b hb, hlt c (hlen ▸ hb)] at hnat
  rw [← bePadded_beNat b, hnat, hlen, bePadded_beNat]

/-! ### Storage words -/

/-- `rlp.EncodeToBytes(bytes.TrimLeft(value[:], "\x00"))`. -/
def encodeWord (value : Hash) : Bytes :=
  match beBytes value.toNat with
  | [x] => if x < 0x80 then [x] else [0x81, x]
  | b => UInt8.ofNat (0x80 + b.length) :: b

/-- `rlp.readSize`: the big-endian length of a long string or list. -/
def rlpReadSize (b : Bytes) (slen : ℕ) : Option ℕ :=
  let size := beNat (b.take slen)
  if b.length < slen ∨ size < 56 ∨ b.head? = some 0 then none else some size

/-- The tag size and the content size that `rlp.readKind` finds. The tag `0x81` alone, on which it panics, is an error
here. -/
def rlpReadKind (buf : Bytes) : Option (ℕ × ℕ) :=
  match buf with
  | [] => none
  | b :: rest => do
    let (tagsize, contentsize) ← if b < 0x80 then some (0, 1) else if b < 0xB8 then
        -- a single byte below 128 is its own encoding
        if b = 0x81 ∧ (∀ x ∈ rest.head?, x < 128) then none else some (1, b.toNat - 0x80)
      else if b < 0xC0 then (rlpReadSize rest (b.toNat - 0xB7)).map (b.toNat - 0xB7 + 1, ·)
      else if b < 0xF8 then some (1, b.toNat - 0xC0)
      else (rlpReadSize rest (b.toNat - 0xF7)).map (b.toNat - 0xF7 + 1, ·)
    if buf.length - tagsize < contentsize then none else some (tagsize, contentsize)

/-- The content that `rlp.Split` returns, empty on an error. -/
def rlpContent (buf : Bytes) : Bytes :=
  match rlpReadKind buf with
  | none => []
  | some (tagsize, contentsize) => (buf.drop tagsize).take contentsize

/-- What `GetState` makes of the trie's value. -/
def decodeWord (enc : Bytes) : Hash := bytesToHash (rlpContent enc)

theorem rlpContent_short {b : Bytes} (hlen : b.length ≤ 32)
    (hsmall : ∀ x, b = [x] → ¬ x < 0x80) : rlpContent (UInt8.ofNat (0x80 + b.length) :: b) = b := by
  have htag : (UInt8.ofNat (0x80 + b.length)).toNat = 0x80 + b.length := by
    rw [UInt8.toNat_ofNat']
    omega
  have hge : ¬ UInt8.ofNat (0x80 + b.length) < 0x80 := by
    rw [UInt8.lt_iff_toNat_lt, htag]
    simp
  have hlt : UInt8.ofNat (0x80 + b.length) < 0xB8 := by
    rw [UInt8.lt_iff_toNat_lt, htag, show (0xB8 : UInt8).toNat = 0xB8 from rfl]
    omega
  have hone : ¬ (UInt8.ofNat (0x80 + b.length) = 0x81 ∧ (∀ x ∈ b.head?, x < 128)) := by
    rintro ⟨heq, hhead⟩
    have hlen1 : b.length = 1 := by
      have := congrArg UInt8.toNat heq
      rw [htag, show (0x81 : UInt8).toNat = 0x81 from rfl] at this
      omega
    obtain ⟨x, rfl⟩ := List.length_eq_one_iff.mp hlen1
    exact hsmall x rfl (hhead x rfl)
  have hkind : rlpReadKind (UInt8.ofNat (0x80 + b.length) :: b) = some (1, b.length) := by
    simp only [rlpReadKind, if_neg hge, if_pos hlt, if_neg hone, htag, Option.bind_eq_bind,
      Option.bind_some, List.length_cons]
    rw [if_neg (by omega), Nat.add_sub_cancel_left]
  rw [rlpContent, hkind]
  simp

theorem decodeWord_encodeWord (value : Hash) : decodeWord (encodeWord value) = value := by
  have hlen : (beBytes value.toNat).length ≤ 32 :=
    length_beBytes_le (lt_of_lt_of_eq value.isLt (by norm_num))
  have hback := bytesToHash_beBytes value
  rw [encodeWord, decodeWord]
  split
  · rename_i x hx
    rw [hx] at hback
    split
    · rename_i hsmall
      rw [show rlpContent [x] = [x] by simp [rlpContent, rlpReadKind, hsmall]]
      exact hback
    · rename_i hbig
      rw [show rlpContent [0x81, x] = [x] from
        rlpContent_short (b := [x]) (by simp) (fun y hy => by rw [← List.singleton_inj.mp hy]; exact hbig)]
      exact hback
  · rename_i hne
    rw [rlpContent_short hlen (fun x hx => absurd hx (hne x))]
    exact hback

end GoWanchain
