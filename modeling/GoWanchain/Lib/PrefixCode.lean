import Mathlib.Data.List.Basic
import Mathlib.Algebra.Group.Nat.Defs

/-!
# Self-delimiting byte codes

A `PrefixCode α` writes a value as bytes and reads it back from the front of any byte string that starts
with what it wrote. Codes compose: pairs are written one after the other (`prod`), lists with their length
in front (`list`), and a code moves along a retraction (`map`).
-/

namespace GoWanchain

/-- A code whose words can be read off the front of a byte string. -/
structure PrefixCode (α : Type) where
  enc : α → List UInt8
  dec : List UInt8 → Option (α × List UInt8)
  dec_enc : ∀ a rest, dec (enc a ++ rest) = some (a, rest)

namespace PrefixCode

variable {α β : Type}

def decode (c : PrefixCode α) (b : List UInt8) : Option α :=
  match c.dec b with
  | some (a, []) => some a
  | _ => none

theorem decode_enc (c : PrefixCode α) (a : α) : c.decode (c.enc a) = some a := by
  have h := c.dec_enc a []
  rw [List.append_nil] at h
  rw [decode, h]

def byte : PrefixCode UInt8 where
  enc b := [b]
  dec
    | [] => none
    | b :: rest => some (b, rest)
  dec_enc _ _ := rfl

/-- The base 128 digits of a number, least significant first; all but the last carry the high bit.
The fuel bounds the number of digits. -/
def encDigits : ℕ → ℕ → List UInt8
  | 0, n => [UInt8.ofNat n]
  | fuel + 1, n =>
    if n < 128 then [UInt8.ofNat n] else UInt8.ofNat (n % 128 + 128) :: encDigits fuel (n / 128)

def decDigits : List UInt8 → Option (ℕ × List UInt8)
  | [] => none
  | b :: rest =>
    if b.toNat < 128 then some (b.toNat, rest)
    else (decDigits rest).map fun p => (b.toNat - 128 + 128 * p.1, p.2)

theorem decDigits_encDigits {fuel n : ℕ} (h : n < 128 ^ (fuel + 1)) (rest : List UInt8) :
    decDigits (encDigits fuel n ++ rest) = some (n, rest) := by
  have hlast : ∀ d, d < 128 → decDigits ([UInt8.ofNat d] ++ rest) = some (d, rest) := by
    intro d hd
    have hbyte : (UInt8.ofNat d).toNat = d := by simp; omega
    rw [List.singleton_append, decDigits, hbyte, if_pos hd]
  induction fuel generalizing n with
  | zero => exact hlast n (by simpa using h)
  | succ fuel ih =>
    rw [encDigits]
    split_ifs with hn
    · exact hlast n hn
    · have hdiv : n / 128 < 128 ^ (fuel + 1) := by
        rw [Nat.div_lt_iff_lt_mul (by decide), ← Nat.pow_succ]
        exact h
      have hbyte : (UInt8.ofNat (n % 128 + 128)).toNat = n % 128 + 128 := by simp; omega
      rw [List.cons_append, decDigits, hbyte, if_neg (by omega), ih hdiv, Option.map_some]
      simp only [Option.some.injEq, Prod.mk.injEq, and_true]
      omega

def nat : PrefixCode ℕ where
  enc n := encDigits n.log2 n
  dec := decDigits
  dec_enc n rest := by
    refine decDigits_encDigits ?_ rest
    calc n < 2 ^ (n.log2 + 1) := Nat.lt_log2_self
      _ ≤ 128 ^ (n.log2 + 1) := Nat.pow_le_pow_left (by decide) _

/-- One word after the other. -/
def prod (c : PrefixCode α) (d : PrefixCode β) : PrefixCode (α × β) where
  enc p := c.enc p.1 ++ d.enc p.2
  dec b := (c.dec b).bind fun p => (d.dec p.2).map fun q => ((p.1, q.1), q.2)
  dec_enc p rest := by
    rw [List.append_assoc, c.dec_enc, Option.bind_some, d.dec_enc]
    rfl

def decMany (c : PrefixCode α) : ℕ → List UInt8 → Option (List α × List UInt8)
  | 0, b => some ([], b)
  | n + 1, b => (c.dec b).bind fun p => (decMany c n p.2).map fun q => (p.1 :: q.1, q.2)

theorem decMany_flatMap (c : PrefixCode α) (l : List α) (rest : List UInt8) :
    decMany c l.length (l.flatMap c.enc ++ rest) = some (l, rest) := by
  induction l with
  | nil => rfl
  | cons _ _ ih =>
    simp only [List.length_cons, decMany, List.flatMap_cons, List.append_assoc]
    rw [c.dec_enc, Option.bind_some, ih]
    rfl

def list (c : PrefixCode α) : PrefixCode (List α) where
  enc l := nat.enc l.length ++ l.flatMap c.enc
  dec b := (nat.dec b).bind fun p => decMany c p.1 p.2
  dec_enc l rest := by
    rw [List.append_assoc, nat.dec_enc, Option.bind_some]
    exact decMany_flatMap c l rest

/-- The code of `α` read as a code of `β`. -/
def map (c : PrefixCode α) (f : α → β) (g : β → α) (hfg : ∀ b, f (g b) = b) : PrefixCode β where
  enc b := c.enc (g b)
  dec b := (c.dec b).map fun p => (f p.1, p.2)
  dec_enc b rest := by
    rw [c.dec_enc, Option.map_some, hfg]

end PrefixCode

end GoWanchain
