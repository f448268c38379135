import Mathlib.Data.BitVec
import Mathlib.Data.Nat.Digits.Lemmas

/-!
# Big-endian numbers

A byte string is read as a number, most significant byte first (`beNat`). A number is written without
leading zeros (`beBytes`) or in a fixed width (`bePadded`), and each way of writing is undone by
reading; the strings that are written are the ones without a leading zero and the ones of that width.
-/

namespace GoWanchain

open List

abbrev Bytes := List UInt8

/-- `new(big.Int).SetBytes(b)`. -/
def beNat (b : Bytes) : ℕ := b.foldl (fun n x => n * 256 + x.toNat) 0

/-- `x.Bytes()` of a `big.Int`: big-endian, without leading zeros. -/
def beBytes (n : ℕ) : Bytes := ((Nat.digits 256 n).map UInt8.ofNat).reverse

/-- `n` as big-endian bytes of a fixed width. -/
def bePadded (width n : ℕ) : Bytes :=
  (range width).map fun i => UInt8.ofNat (n / 256 ^ (width - 1 - i))

@[simp] theorem beNat_nil : beNat [] = 0 := rfl

theorem beNat_concat (b : Bytes) (x : UInt8) : beNat (b ++ [x]) = beNat b * 256 + x.toNat := by
  rw [beNat, foldl_append]
  rfl

theorem beNat_reverse (b : Bytes) : beNat b.reverse = Nat.ofDigits 256 (b.map UInt8.toNat) := by
  rw [beNat, foldl_reverse]
  induction b with
  | nil => rfl
  | cons _ _ ih =>
    rw [foldr_cons, ih, map_cons, Nat.ofDigits_cons]
    ring

/-! ### Without leading zeros -/

@[simp] theorem beNat_beBytes (n : ℕ) : beNat (beBytes n) = n := by
  rw [beBytes, beNat_reverse, map_map]
  have hdigits : (Nat.digits 256 n).map (UInt8.toNat ∘ UInt8.ofNat) = Nat.digits 256 n := by
    conv_rhs => rw [← map_id (Nat.digits 256 n)]
    apply map_congr_left
    intro d hd
    have hlt : d < 256 := Nat.digits_lt_base (by norm_num) hd
    simp [Nat.mod_eq_of_lt hlt]
  rw [hdigits, Nat.ofDigits_digits]

@[simp] theorem beBytes_zero : beBytes 0 = [] := by simp [beBytes]

@[simp] theorem beBytes_eq_nil {n : ℕ} : beBytes n = [] ↔ n = 0 := by
  simp [beBytes, Nat.digits_eq_nil_iff_eq_zero]

theorem length_beBytes_le {n w : ℕ} (h : n < 256 ^ w) : (beBytes n).length ≤ w := by
  rw [beBytes, length_reverse, length_map]
  exact (Nat.digits_length_le_iff (by norm_num) n).mpr h

theorem beBytes_beNat {b : Bytes} (h : b.head? ≠ some 0) : beBytes (beNat b) = b := by
  have hdigits : Nat.digits 256 (Nat.ofDigits 256 (b.reverse.map UInt8.toNat)) = b.reverse.map UInt8.toNat := by
    apply Nat.digits_ofDigits 256 (by norm_num)
    · intro d hd
      obtain ⟨x, -, rfl⟩ := mem_map.mp hd
      exact x.toNat_lt
    · intro hne hzero
      rw [getLast_map, getLast_reverse] at hzero
      apply h
      have hb : b ≠ [] := by simpa using hne
      rw [head?_eq_some_head hb, Option.some.injEq]
      exact UInt8.toNat_inj.mp hzero
  have hback : (b.reverse.map UInt8.toNat).map UInt8.ofNat = b.reverse := by
    rw [map_map]
    simp [Function.comp_def]
  rw [beBytes, ← reverse_reverse b, beNat_reverse, hdigits, hback]

theorem head?_beBytes (n : ℕ) : (beBytes n).head? ≠ some 0 := by
  intro hzero
  rcases Nat.eq_zero_or_pos n with rfl | hn
  · simp at hzero
  · have hne : Nat.digits 256 n ≠ [] := Nat.digits_ne_nil_iff_ne_zero.mpr hn.ne'
    rw [beBytes, head?_reverse, getLast?_map, getLast?_eq_some_getLast hne] at hzero
    have hlast := Nat.getLast_digit_ne_zero 256 hn.ne'
    have hlt : (Nat.digits 256 n).getLast hne < 256 :=
      Nat.digits_lt_base (by norm_num) (getLast_mem hne)
    have hbyte := congrArg UInt8.toNat (Option.some.inj hzero)
    simp only [UInt8.toNat_ofNat', UInt8.toNat_zero] at hbyte
    omega

/-! ### In a fixed width -/

@[simp] theorem length_bePadded (w n : ℕ) : (bePadded w n).length = w := by
  simp [bePadded]

theorem bePadded_succ (w n : ℕ) : bePadded (w + 1) n = bePadded w (n / 256) ++ [UInt8.ofNat n] := by
  rw [bePadded, range_succ, map_append, map_singleton, bePadded]
  congr 1
  · apply map_congr_left
    intro i hi
    rw [mem_range] at hi
    rw [Nat.div_div_eq_div_mul, ← Nat.pow_succ', show (w - 1 - i).succ = w + 1 - 1 - i by omega]
  · simp

theorem beNat_bePadded {w n : ℕ} (h : n < 256 ^ w) : beNat (bePadded w n) = n := by
  induction w generalizing n with
  | zero =>
    rw [Nat.pow_zero] at h
    rw [Nat.lt_one_iff.mp h]
    rfl
  | succ w ih =>
    have hdiv : n / 256 < 256 ^ w := by
      rw [Nat.div_lt_iff_lt_mul (by norm_num), ← Nat.pow_succ]
      exact h
    rw [bePadded_succ, beNat_concat, ih hdiv, UInt8.toNat_ofNat']
    omega

theorem bePadded_beNat (b : Bytes) : bePadded b.length (beNat b) = b := by
  induction b using reverseRecOn with
  | nil => rfl
  | append_singleton b x ih =>
    have hx := x.toNat_lt
    have hdiv : (beNat b * 256 + x.toNat) / 256 = beNat b := by omega
    have hbyte : UInt8.ofNat (beNat b * 256 + x.toNat) = x := by
      apply UInt8.toNat_inj.mp
      rw [UInt8.toNat_ofNat']
      omega
    rw [length_append, length_singleton, beNat_concat, bePadded_succ, hdiv, ih, hbyte]

theorem bePadded_eq_beBytes {w n : ℕ} (hlo : 256 ^ w ≤ n) (hhi : n < 256 ^ (w + 1)) : bePadded (w + 1) n = beBytes n := by
  have hhead : (bePadded (w + 1) n).head? = some (UInt8.ofNat (n / 256 ^ w)) := by
    rw [bePadded, head?_map, range_succ_eq_map]
    simp
  have hfirst : n / 256 ^ w < 256 := by
    rw [Nat.div_lt_iff_lt_mul (by positivity), ← Nat.pow_succ']
    exact hhi
  have hpos : 0 < n / 256 ^ w := Nat.div_pos hlo (by positivity)
  have hne : (bePadded (w + 1) n).head? ≠ some 0 := by
    rw [hhead, Ne, Option.some.injEq]
    intro hzero
    have := congrArg UInt8.toNat hzero
    rw [UInt8.toNat_ofNat', UInt8.toNat_zero] at this
    omega
  have hback := beBytes_beNat hne
  rwa [beNat_bePadded hhi, eq_comm] at hback

theorem length_beBytes_of_lt {n : ℕ} (hpos : 0 < n) (h : n < 256) : (beBytes n).length = 1 := by
  have hle : (beBytes n).length ≤ 1 := length_beBytes_le (by omega)
  have hne : 0 < (beBytes n).length := by
    rw [length_pos_iff, Ne, beBytes_eq_nil]
    omega
  omega

theorem length_beBytes_div {n : ℕ} (h : 0 < n) : (beBytes n).length = (beBytes (n / 256)).length + 1 := by
  simp only [beBytes, length_reverse, length_map]
  rw [Nat.digits_def' (by norm_num) h, length_cons]

theorem beNat_lt (b : Bytes) : beNat b < 256 ^ b.length := by
  induction b using reverseRecOn with
  | nil => decide
  | append_singleton _ x =>
    have hx := x.toNat_lt
    rw [beNat_concat, length_append, length_singleton, Nat.pow_succ]
    omega

end GoWanchain
