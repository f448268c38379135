import GoWanchain.Common.Bytes
import GoWanchain.Lib.Guard

/-!
# Strings and call data

`common/hexutil`, `common/bytes.go` and the part of `accounts/abi` that the privacy contracts use.
`hex.DecodeString` returns what it decoded before an error, and `FromHex` ignores the error.

`abi.Unpack` recovers from panics, so that a slice out of bounds is an error like any other. It reads
offsets and sizes as signed 64-bit numbers: an offset just below zero is not out of bounds (`toGoBytes`).
-/

namespace GoWanchain

open List

def ascii (s : String) : Bytes := s.toList.map fun c => UInt8.ofNat c.toNat

/-- `balance.String()`. -/
def decimal (n : ℕ) : Bytes :=
  if n = 0 then ascii "0" else ((Nat.digits 10 n).map fun d => UInt8.ofNat (48 + d)).reverse

inductive HexError where
  | errEmptyString
  | errSyntax
  | errMissingPrefix
  | errOddLength
  | errEmptyNumber
  | errLeadingZero
  | errBig256Range
deriving DecidableEq

def decodeNibble (b : UInt8) : Option ℕ :=
  if 48 ≤ b ∧ b ≤ 57 then some (b.toNat - 48)
  else if 65 ≤ b ∧ b ≤ 70 then some (b.toNat - 55)
  else if 97 ≤ b ∧ b ≤ 102 then some (b.toNat - 87)
  else none

def hexDecodeString : Bytes → Bytes × Option HexError
  | a :: b :: rest =>
    match decodeNibble a, decodeNibble b with
    | some x, some y =>
      let (decoded, err) := hexDecodeString rest
      (UInt8.ofNat (16 * x + y) :: decoded, err)
    | _, _ => ([], some .errSyntax)
  | [_] => ([], some .errOddLength)
  | [] => ([], none)

def has0xPrefix : Bytes → Bool
  | a :: b :: _ => a == 48 && (b == 120 || b == 88)
  | _ => false

def hexDecode (input : Bytes) : Except HexError Bytes :=
  if input = [] then .error .errEmptyString
  else if !has0xPrefix input then .error .errMissingPrefix
  else
    match hexDecodeString (input.drop 2) with
    | (decoded, none) => .ok decoded
    | (_, some err) => .error err

/-- `hexutil.Encode`. -/
def encodeHex (b : Bytes) : Bytes :=
  let digit (n : ℕ) : UInt8 := UInt8.ofNat (if n < 10 then 48 + n else 87 + n)
  48 :: 120 :: b.flatMap fun x => [digit (x.toNat / 16), digit (x.toNat % 16)]

theorem decodeNibble_digit {n : ℕ} (h : n < 16) :
    decodeNibble (UInt8.ofNat (if n < 10 then 48 + n else 87 + n)) = some n := by
  interval_cases n <;> decide

theorem hexDecodeString_drop_encodeHex (b : Bytes) : hexDecodeString ((encodeHex b).drop 2) = (b, none) := by
  induction b with
  | nil => rfl
  | cons x b ih =>
    have hx := x.toNat_lt
    replace ih : hexDecodeString (b.flatMap _) = (b, none) := ih
    simp only [encodeHex, drop_succ_cons, drop_zero, flatMap_cons, cons_append,
      nil_append, hexDecodeString, decodeNibble_digit (show x.toNat / 16 < 16 by omega),
      decodeNibble_digit (show x.toNat % 16 < 16 by omega), ih, Nat.div_add_mod, UInt8.ofNat_toNat]

theorem decodeNibble_capital {n : ℕ} (h : n < 16) (hletter : 57 < UInt8.ofNat (if n < 10 then 48 + n else 87 + n)) :
    decodeNibble (UInt8.ofNat (if n < 10 then 48 + n else 87 + n) - 32) = some n := by
  revert hletter
  interval_cases n <;> decide

theorem mem_drop_encodeHex {b : Bytes} {c : UInt8} (h : c ∈ (encodeHex b).drop 2) :
    ∃ n < 16, c = UInt8.ofNat (if n < 10 then 48 + n else 87 + n) := by
  obtain ⟨x, -, hc⟩ := mem_flatMap.mp (show c ∈ b.flatMap _ from h)
  have hx := x.toNat_lt
  rcases mem_pair.mp hc with rfl | rfl
  · exact ⟨x.toNat / 16, by omega, rfl⟩
  · exact ⟨x.toNat % 16, by omega, rfl⟩

theorem hexDecodeString_congr {l l' : Bytes} (h : Forall₂ (fun a b => decodeNibble a = decodeNibble b) l l') :
    hexDecodeString l = hexDecodeString l' := by
  match h with
  | .nil => rfl
  | .cons _ .nil => rfl
  | .cons ha (.cons hb hrest) =>
    rw [hexDecodeString, hexDecodeString, ha, hb, hexDecodeString_congr hrest]

@[simp] theorem length_encodeHex (b : Bytes) : (encodeHex b).length = 2 * b.length + 2 := by
  simp [encodeHex, Nat.mul_comm]

/-- `hexutil.UnmarshalFixedText` for an array of `n` bytes. -/
def unmarshalFixedText (n : ℕ) (input : Bytes) : Option Bytes :=
  if !has0xPrefix input then none
  else
    let raw := input.drop 2
    if raw.length % 2 ≠ 0 ∨ raw.length / 2 ≠ n then none
    else
      match hexDecodeString raw with
      | (decoded, none) => some decoded
      | (_, some _) => none

theorem unmarshalFixedText_encodeHex (b : Bytes) : unmarshalFixedText b.length (encodeHex b) = some b := by
  have hzerox : has0xPrefix (encodeHex b) = true := by simp [encodeHex, has0xPrefix]
  have hlen : ((encodeHex b).drop 2).length = 2 * b.length := by simp
  simp only [unmarshalFixedText, hzerox, Bool.not_true, Bool.false_eq_true, if_false, hlen,
    hexDecodeString_drop_encodeHex]
  rw [if_neg (by omega)]

def checkNumber (input : Bytes) : Except HexError Bytes :=
  if input = [] then .error .errEmptyString
  else if !has0xPrefix input then .error .errMissingPrefix
  else
    match input.drop 2 with
    | [] => .error .errEmptyNumber
    | [digit] => .ok [digit]
    | digit :: rest => if digit = 48 then .error .errLeadingZero else .ok (digit :: rest)

def decodeBig (input : Bytes) : Except HexError ℕ :=
  match checkNumber input with
  | .error err => .error err
  | .ok raw =>
    if raw.length > 64 then .error .errBig256Range
    else
      match raw.mapM decodeNibble with
      | some nibbles => .ok (nibbles.foldl (fun n d => n * 16 + d) 0)
      | none => .error .errSyntax

def fromHex (s : Bytes) : Bytes :=
  if s.length > 1 then
    let digits := if has0xPrefix s then s.drop 2 else s
    (hexDecodeString (if digits.length % 2 = 1 then 48 :: digits else digits)).1
  else []

def toHex (b : Bytes) : Bytes := if b = [] then ascii "0x0" else encodeHex b

theorem fromHex_toHex {b : Bytes} (h : b ≠ []) : fromHex (toHex b) = b := by
  have hzerox : has0xPrefix (encodeHex b) = true := by simp [encodeHex, has0xPrefix]
  have heven : ((encodeHex b).drop 2).length % 2 = 0 := by
    rw [length_drop, length_encodeHex]
    omega
  rw [toHex, if_neg h, fromHex, if_pos (by rw [length_encodeHex]; omega)]
  simp only [hzerox, if_true, if_neg (show ¬ ((encodeHex b).drop 2).length % 2 = 1 by omega),
    hexDecodeString_drop_encodeHex]

def encodeBig (n : ℕ) : Bytes :=
  if n = 0 then ascii "0x0"
  else 48 :: 120 :: (Nat.digits 16 n).reverse.map fun d => UInt8.ofNat (if d < 10 then 48 + d else 87 + d)

theorem foldl_digits (n : ℕ) : (Nat.digits 16 n).reverse.foldl (fun n d => n * 16 + d) 0 = n := by
  rw [foldl_reverse]
  calc (Nat.digits 16 n).foldr (fun d n => n * 16 + d) 0 = Nat.ofDigits 16 (Nat.digits 16 n) := by
        rw [Nat.ofDigits_eq_foldr]
        congr 1
        funext d n
        rw [Nat.cast_id, Nat.mul_comm, Nat.add_comm]
    _ = n := Nat.ofDigits_digits 16 n

theorem decodeBig_encodeBig {n : ℕ} (h : n < 2 ^ 256) : decodeBig (encodeBig n) = .ok n := by
  rcases Nat.eq_zero_or_pos n with rfl | hn
  · rfl
  have hne : Nat.digits 16 n ≠ [] := Nat.digits_ne_nil_iff_ne_zero.mpr hn.ne'
  have hlt : ∀ d ∈ (Nat.digits 16 n).reverse, d < 16 := by
    intro d hd
    exact Nat.digits_lt_base (by norm_num) (mem_reverse.mp hd)
  obtain ⟨d, rest, hdigits⟩ := exists_cons_of_ne_nil (reverse_ne_nil_iff.mpr hne)
  -- the leading digit is not zero
  have hlead : d ≠ 0 := by
    have hlast := Nat.getLast_digit_ne_zero 16 hn.ne'
    rw [← head_reverse (by simpa using hne)] at hlast
    simpa [hdigits] using hlast
  have hraw : checkNumber (encodeBig n) =
      .ok ((Nat.digits 16 n).reverse.map fun d => UInt8.ofNat (if d < 10 then 48 + d else 87 + d)) := by
    have hd : d < 16 := hlt d (by rw [hdigits]; simp)
    have hdigit : UInt8.ofNat (if d < 10 then 48 + d else 87 + d) ≠ 48 := by
      interval_cases d <;> first | exact absurd rfl hlead | decide
    rw [encodeBig, if_neg hn.ne', hdigits]
    cases rest with
    | nil => rfl
    | cons => simp [checkNumber, has0xPrefix, hdigit]
  have hlength : (Nat.digits 16 n).length ≤ 64 :=
    (Nat.digits_length_le_iff (by norm_num) n).mpr (lt_of_lt_of_eq h (by norm_num))
  simp only [decodeBig, hraw, length_map, length_reverse, if_neg (Nat.not_lt.mpr hlength),
    mapM_map_of_forall fun d hd => decodeNibble_digit (hlt d hd), foldl_digits]

def hexToAddress (s : Bytes) : Address := bytesToAddress (fromHex s)

def rightPadBytes (b : Bytes) (l : ℕ) : Bytes := b ++ replicate (l - b.length) 0

/-! ### Call data -/

/-- `int(binary.BigEndian.Uint64(output[i : i+8]))`. -/
def readInt (output : Bytes) (i : ℕ) : ℤ :=
  let n := beNat ((output.drop i).take 8)
  if n < 2 ^ 63 then n else n - 2 ^ 64

/-- `toGoType` of a `uint256`, the `i`-th output. -/
def toGoUint (i : ℕ) (output : Bytes) : Option ℕ :=
  if i * 32 + 32 > output.length then none
  else some (beNat ((output.drop (i * 32)).take 32))

/-- `toGoType` of a `string` or `bytes`, the `i`-th output. -/
def toGoBytes (i : ℕ) (output : Bytes) : Option Bytes :=
  if i * 32 + 32 > output.length then none
  else
    let offset := readInt output (i * 32 + 24)
    if offset < -24 ∨ offset + 32 > output.length then none
    else
      let size := readInt output (offset + 24).toNat
      if size < 0 ∨ offset + 32 + size > output.length then none
      else some ((output.drop (offset + 32).toNat).take size.toNat)

/-- `Unpack` of the outputs `(string, uint256)`. -/
def unpackStringUint (output : Bytes) : Option (Bytes × ℕ) :=
  if output = [] then none
  else (toGoBytes 0 output).bind fun s => (toGoUint 1 output).map (s, ·)

/-- `Unpack` of the outputs `(string, bytes)`. -/
def unpackStringBytes (output : Bytes) : Option (Bytes × Bytes) :=
  if output = [] then none
  else (toGoBytes 0 output).bind fun s => (toGoBytes 1 output).map (s, ·)

/-- The RLP form of an account address and a nonce, as a list. -/
def rlpAddressNonce (addr : Address) (nonce : UInt64) : Bytes :=
  let n := beBytes nonce.toNat
  let string : Bytes := if nonce.toNat < 128 ∧ nonce ≠ 0 then n else UInt8.ofNat (128 + n.length) :: n
  let payload : Bytes := 148 :: bePadded 20 addr.toNat ++ string
  UInt8.ofNat (192 + payload.length) :: payload

end GoWanchain
