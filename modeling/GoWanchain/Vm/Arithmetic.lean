import Mathlib.Data.List.GetD
import Mathlib.Data.ZMod.Basic
import GoWanchain.Vm.Instructions

/-!
# Signed and modular arithmetic

The instructions compute on unbounded integers. On words of 256 bits they push the word that two's-complement
arithmetic has for them. `math.Exp` and `math.Byte` go through a `big.Int` machine word by machine word; their results
do not depend on the size of these words.
-/

namespace GoWanchain.Vm

open List

/-! ### Exponentiation by squaring -/

/-- The bits of a machine word in `math.Exp`: the result and the base, which is squared in place. -/
def expWord : ℕ → ℕ → ℕ × ℕ → ℕ × ℕ
  | 0, _, x => x
  | i + 1, word, (result, base) =>
    expWord i (word / 2) (if word % 2 = 1 then result * base % 2 ^ 256 else result, base * base % 2 ^ 256)

/-- `math.Exp` with machine words of `wordBits` bits; `exponent.Bits()` has the lowest word first. -/
def mathExp (wordBits base exponent : ℕ) : ℕ :=
  ((Nat.digits (2 ^ wordBits) exponent).foldl (fun x word => expWord wordBits word x) (1, base)).1

theorem expWord_fst_lt (n word : ℕ) {x : ℕ × ℕ} (h : x.1 < 2 ^ 256) : (expWord n word x).1 < 2 ^ 256 := by
  induction n generalizing word x with
  | zero => exact h
  | succ n ih =>
    rw [expWord]
    apply ih
    dsimp only
    split_ifs
    · exact Nat.mod_lt _ (by norm_num)
    · exact h

theorem expWord_cast {n word : ℕ} (h : word < 2 ^ n) (x : ℕ × ℕ) :
    ((expWord n word x).1 : ZMod (2 ^ 256)) = x.1 * x.2 ^ word ∧
      ((expWord n word x).2 : ZMod (2 ^ 256)) = x.2 ^ 2 ^ n := by
  induction n generalizing word x with
  | zero =>
    obtain rfl : word = 0 := by omega
    simp [expWord]
  | succ n ih =>
    have hsquare : ((x.2 * x.2 % 2 ^ 256 : ℕ) : ZMod (2 ^ 256)) = x.2 ^ 2 := by
      rw [ZMod.natCast_mod, Nat.cast_mul, pow_two]
    have htwice : 2 * 2 ^ n = 2 ^ (n + 1) := (pow_succ' 2 n).symm
    have hword := Nat.div_add_mod word 2
    obtain ⟨hresult, hbase⟩ := ih (show word / 2 < 2 ^ n by omega)
      (if word % 2 = 1 then x.1 * x.2 % 2 ^ 256 else x.1, x.2 * x.2 % 2 ^ 256)
    simp only [hsquare, ← pow_mul, htwice] at hresult hbase
    refine ⟨hresult.trans ?_, hbase⟩
    split_ifs with hodd
    · rw [hodd] at hword
      rw [ZMod.natCast_mod, Nat.cast_mul, mul_assoc, ← pow_succ', hword]
    · rw [show 2 * (word / 2) = word by omega]

theorem foldl_expWord {k : ℕ} {l : List ℕ} (h : ∀ word ∈ l, word < 2 ^ k) {x : ℕ × ℕ} (hx : x.1 < 2 ^ 256) :
    (l.foldl (fun x word => expWord k word x) x).1 = x.1 * x.2 ^ Nat.ofDigits (2 ^ k) l % 2 ^ 256 := by
  have hcast : ((l.foldl (fun x word => expWord k word x) x).1 : ZMod (2 ^ 256))
      = ((x.1 * x.2 ^ Nat.ofDigits (2 ^ k) l : ℕ) : ZMod (2 ^ 256)) ∧
        (l.foldl (fun x word => expWord k word x) x).1 < 2 ^ 256 := by
    induction l generalizing x with
    | nil => simpa using hx
    | cons word l ih =>
      obtain ⟨hword, hl⟩ := forall_mem_cons.mp h
      obtain ⟨hresult, hbase⟩ := expWord_cast hword x
      obtain ⟨hrest, hlt⟩ := ih hl (expWord_fst_lt k word hx)
      refine ⟨hrest.trans ?_, hlt⟩
      rw [Nat.ofDigits_cons, Nat.cast_mul, Nat.cast_pow, hresult, hbase]
      push_cast
      rw [pow_add, pow_mul, mul_assoc]
  have hmod := (ZMod.natCast_eq_natCast_iff' _ _ _).mp hcast.1
  rwa [Nat.mod_eq_of_lt hcast.2] at hmod

theorem mathExp_eq {wordBits : ℕ} (h : 0 < wordBits) (base exponent : ℕ) :
    mathExp wordBits base exponent = base ^ exponent % 2 ^ 256 := by
  have hlt : ∀ word ∈ Nat.digits (2 ^ wordBits) exponent, word < 2 ^ wordBits :=
    fun word hword => Nat.digits_lt_base (Nat.one_lt_two_pow h.ne') hword
  rw [mathExp, foldl_expWord hlt (by norm_num), Nat.ofDigits_digits, Nat.one_mul]

theorem bigExp_eq_mathExp (base exponent : ℕ) : bigExp base exponent = mathExp 1 base exponent := by
  rw [mathExp, pow_one, Nat.digits_two_eq_bits, foldl_map, bigExp]
  congr 3
  funext x bit
  cases bit <;> rfl

/-! ### Bytes -/

/-- The word of `wordBytes` bytes in which the byte is, and its place there. -/
def bigEndianByteAt (wordBytes bigint n : ℕ) : ℕ :=
  let words := Nat.digits (2 ^ (8 * wordBytes)) bigint
  if n / wordBytes ≥ words.length then 0 else words.getD (n / wordBytes) 0 / 2 ^ (8 * (n % wordBytes)) % 256

/-- `math.Byte`. -/
def mathByte (wordBytes bigint padlength n : ℕ) : ℕ :=
  if n ≥ padlength then 0 else bigEndianByteAt wordBytes bigint (padlength - 1 - n)

theorem bigEndianByteAt_eq {wordBytes : ℕ} (h : 0 < wordBytes) (bigint n : ℕ) :
    bigEndianByteAt wordBytes bigint n = bigint / 256 ^ n % 256 := by
  have hplace : n % wordBytes + 1 ≤ wordBytes := Nat.mod_lt n h
  have hpow : 2 ^ (8 * wordBytes) = 2 ^ (8 * (n % wordBytes)) * 2 ^ (8 * (wordBytes - n % wordBytes)) := by
    rw [← pow_add, ← Nat.mul_add, Nat.add_sub_of_le (by omega)]
  have hdvd : 256 ∣ 2 ^ (8 * (wordBytes - n % wordBytes)) := pow_dvd_pow 2 (by omega : 8 ≤ _)
  have hget : bigEndianByteAt wordBytes bigint n
      = (Nat.digits (2 ^ (8 * wordBytes)) bigint).getD (n / wordBytes) 0 / 2 ^ (8 * (n % wordBytes)) % 256 := by
    rw [bigEndianByteAt]
    split_ifs with hlong
    · rw [List.getD_eq_default _ _ hlong, Nat.zero_div]
    · rfl
  rw [hget, Nat.getD_digits _ _ (Nat.one_lt_two_pow (by omega)), hpow, Nat.mod_mul_right_div_self,
    Nat.mod_mod_of_dvd _ hdvd, ← hpow, Nat.div_div_eq_div_mul, ← pow_mul, ← pow_add, show 256 = 2 ^ 8 from rfl,
    ← pow_mul, show 8 * wordBytes * (n / wordBytes) + 8 * (n % wordBytes) = 8 * n by
      rw [Nat.mul_assoc, ← Nat.mul_add, Nat.div_add_mod]]

theorem toNat_getD_bePadded (w n i : ℕ) :
    ((bePadded w n).getD i 0).toNat = if i < w then n / 256 ^ (w - 1 - i) % 256 else 0 := by
  rw [bePadded, getD_eq_getElem?_getD, getElem?_map]
  split_ifs with hi
  · rw [getElem?_range hi]
    exact UInt8.toNat_ofNat'
  · rw [getElem?_eq_none (by simpa using hi)]
    rfl

/-! ### Words of 256 bits -/

theorem s256_toNat (x : BitVec 256) : s256 x.toNat = x.toInt := by
  rw [s256, BitVec.toInt_eq_toNat_cond]
  split_ifs <;> omega

theorem u256_eq_toNat (z : ℤ) : u256 z = (BitVec.ofInt 256 z).toNat := by
  rw [BitVec.toNat_ofInt]
  rfl

theorem toNat_modulo (n : ℕ) (z : BitVec 256) :
    (if z.toNat > 0 then u256 ((n : ℤ) % z.toNat) else 0) = (if z = 0 then 0 else BitVec.ofNat 256 (n % z.toNat)).toNat := by
  by_cases hz : z = 0
  · rw [if_pos hz, hz]
    rfl
  · have hpos : z.toNat > 0 := Nat.pos_of_ne_zero fun h => hz (BitVec.eq_of_toNat_eq h)
    rw [if_neg hz, if_pos hpos, BitVec.toNat_ofNat]
    rfl

theorem toInt_eq_zero {x : BitVec 256} : x.toInt = 0 ↔ x = 0 :=
  ⟨fun h => BitVec.eq_of_toInt_eq h, fun h => by rw [h]; rfl⟩

theorem abs_ediv_eq_tdiv (a b : ℤ) : |a| / |b| * (if a * b < 0 then -1 else 1) = a.tdiv b := by
  rw [← Int.tdiv_eq_ediv_of_nonneg (abs_nonneg a)]
  have hzero (h : ¬ a * b < 0) (hle : a * b ≤ 0) : a.tdiv b = 0 := by
    rcases mul_eq_zero.mp (le_antisymm hle (not_lt.mp h)) with rfl | rfl
    · exact Int.zero_tdiv b
    · exact Int.tdiv_zero a
  rcases le_total 0 a with ha | ha <;> rcases le_total 0 b with hb | hb
  · rw [if_neg (mul_nonneg ha hb).not_gt, mul_one, abs_of_nonneg ha, abs_of_nonneg hb]
  · rw [abs_of_nonneg ha, abs_of_nonpos hb, Int.tdiv_neg]
    split_ifs with h
    · ring
    · rw [hzero h (mul_nonpos_of_nonneg_of_nonpos ha hb), neg_zero, zero_mul]
  · rw [abs_of_nonpos ha, abs_of_nonneg hb, Int.neg_tdiv]
    split_ifs with h
    · ring
    · rw [hzero h (mul_nonpos_of_nonpos_of_nonneg ha hb), neg_zero, zero_mul]
  · rw [if_neg (mul_nonneg_of_nonpos_of_nonpos ha hb).not_gt, mul_one, abs_of_nonpos ha, abs_of_nonpos hb,
      Int.neg_tdiv_neg]

theorem abs_emod_eq_tmod (a b : ℤ) : |a| % |b| * (if a < 0 then -1 else 1) = a.tmod b := by
  rcases lt_or_ge a 0 with ha | ha
  · obtain ⟨n, rfl⟩ := Int.exists_eq_neg_ofNat ha.le
    rw [if_pos ha, Int.neg_tmod, abs_neg, Nat.abs_cast, Int.tmod_eq_emod_of_nonneg (Int.natCast_nonneg n), Int.emod_abs]
    omega
  · rw [if_neg (not_lt.mpr ha), mul_one, abs_of_nonneg ha, Int.emod_abs, Int.tmod_eq_emod_of_nonneg ha]

theorem toNat_signExtend {bit : ℕ} (h : bit < 256) (y : BitVec 256) : ((y.setWidth (bit + 1)).signExtend 256).toNat =
      if y.toNat.testBit bit then (y.toNat % 2 ^ 256) ||| (2 ^ 256 - 1 - (2 ^ bit - 1)) else y.toNat &&& (2 ^ bit - 1) := by
  have hlt : 2 ^ bit - 1 < 2 ^ 256 := by
    have := Nat.pow_lt_pow_right (show 1 < 2 by norm_num) h
    omega
  apply Nat.eq_of_testBit_eq
  intro i
  rw [BitVec.testBit_toNat, BitVec.getLsbD_signExtend, BitVec.msb_eq_getLsbD_last, BitVec.getLsbD_setWidth,
    BitVec.getLsbD_setWidth, show 2 ^ 256 - 1 - (2 ^ bit - 1) = 2 ^ 256 - (2 ^ bit - 1 + 1) by omega]
  split_ifs with hi hbit hbit <;>
    simp only [Nat.testBit_or, Nat.testBit_and, Nat.testBit_mod_two_pow, Nat.testBit_two_pow_sub_succ hlt,
      Nat.testBit_two_pow_sub_one, BitVec.testBit_toNat] at hbit ⊢
  · -- at the sign bit and below it
    rcases (Nat.lt_succ_iff.mp hi).lt_or_eq with hlow | rfl
    · simp [hi, hlow]
    · simp [hbit]
  · rcases (Nat.lt_succ_iff.mp hi).lt_or_eq with hlow | rfl
    · simp [hi, hlow, hlow.trans h]
    · simp [hbit]
  · have hhigh : ¬ i < bit := by omega
    simp +contextual [hbit, hhigh]
  · have hhigh : ¬ i < bit := by omega
    simp [hbit, hhigh]

/-- Words on top of the stack, the first one at the top. -/
def Frame.push (f : Frame) (words : List (BitVec 256)) : Frame := { f with stack := words.map BitVec.toNat ++ f.stack }

theorem compute_push (f : Frame) {words : List (BitVec 256)} {n : ℕ} {g : Frame → ℕ} {word : BitVec 256}
    (hn : words.length = n) (h : g (f.push words) = word.toNat) :
    compute n g (f.push words) = .done (f.push [word]) [] := by
  rw [compute, Frame.replace, h, Frame.push, drop_left' (by rw [length_map, hn])]
  rfl

/-- The sign of the `k + 1` low bytes, extended to the whole word. -/
def signExtended (k word : BitVec 256) : BitVec 256 :=
  if k.toNat < 31 then (word.setWidth (k.toNat * 8 + 8)).signExtend 256 else word

/-- **Signed and modular arithmetic.** The instructions replace words by the word of the truncated quotient and
remainder of signed numbers, the extended sign, the power, the sum and the product modulo the third word, the selected
byte and the signed comparison. `math.Exp` and `math.Byte` compute what is pushed, whatever the size of the machine
words is. -/
theorem arithmetic_exact (f : Frame) (x y z : BitVec 256) :
    opSdiv (f.push [x, y]) = .done (f.push [if y = 0 then 0 else .ofInt 256 (x.toInt.tdiv y.toInt)]) [] ∧
    opSmod (f.push [x, y]) = .done (f.push [if y = 0 then 0 else .ofInt 256 (x.toInt.tmod y.toInt)]) [] ∧
    opSignExtend (f.push [x, y]) = .done (f.push [signExtended x y]) [] ∧
    opExp (f.push [x, y]) = .done (f.push [.ofNat 256 (x.toNat ^ y.toNat)]) [] ∧
    opAddmod (f.push [x, y, z]) = .done (f.push [if z = 0 then 0 else .ofNat 256 ((x.toNat + y.toNat) % z.toNat)]) [] ∧
    opMulmod (f.push [x, y, z]) = .done (f.push [if z = 0 then 0 else .ofNat 256 (x.toNat * y.toNat % z.toNat)]) [] ∧
    opByte (f.push [x, y]) = .done (f.push [.ofNat 256 ((bePadded 32 y.toNat).getD x.toNat 0).toNat]) [] ∧
    opSlt (f.push [x, y]) = .done (f.push [if x.toInt < y.toInt then 1 else 0]) [] ∧
    opSgt (f.push [x, y]) = .done (f.push [if x.toInt > y.toInt then 1 else 0]) [] ∧
    ∀ k > 0, opExp = compute 2 (fun f => mathExp (8 * k) (f.back 0) (f.back 1)) ∧
      opByte = compute 2 fun f => if f.back 0 < 32 then mathByte k (f.back 1) 32 (f.back 0) else 0 := by
  have hfirst (words : List (BitVec 256)) : (f.push (x :: words)).back 0 = x.toNat := rfl
  have hsecond (words : List (BitVec 256)) : (f.push (x :: y :: words)).back 1 = y.toNat := rfl
  refine ⟨compute_push f rfl ?_, compute_push f rfl ?_, ?_, compute_push f rfl ?_, compute_push f rfl ?_,
    compute_push f rfl ?_, compute_push f rfl ?_, compute_push f rfl ?_, compute_push f rfl ?_, fun k hk => ⟨?_, ?_⟩⟩
  · simp only [hfirst, hsecond, s256_toNat, toInt_eq_zero, abs_ediv_eq_tdiv, u256_eq_toNat]
    split_ifs <;> rfl
  · simp only [hfirst, hsecond, s256_toNat, toInt_eq_zero, abs_emod_eq_tmod, u256_eq_toNat]
    split_ifs <;> rfl
  · rw [opSignExtend, hfirst, hsecond, signExtended]
    split_ifs with hsmall
    · exact congrArg (fun m => Executed.done { f with stack := m :: f.stack } []) (toNat_signExtend (by omega) y).symm
    · rfl
  · rw [hfirst, hsecond, BitVec.toNat_ofNat, bigExp_eq_mathExp, mathExp_eq Nat.one_pos]
  · exact toNat_modulo (x.toNat + y.toNat) z
  · exact toNat_modulo (x.toNat * y.toNat) z
  · have hlt := UInt8.toNat_lt ((bePadded 32 y.toNat).getD x.toNat 0)
    rw [BitVec.toNat_ofNat, Nat.mod_eq_of_lt (hlt.trans (by norm_num)), toNat_getD_bePadded]
    rfl
  · simp only [hfirst, hsecond, s256_toNat]
    split_ifs <;> rfl
  · simp only [hfirst, hsecond, s256_toNat]
    split_ifs <;> rfl
  · rw [opExp]
    congr 1
    funext f
    rw [bigExp_eq_mathExp, mathExp_eq Nat.one_pos, mathExp_eq (by omega)]
  · rw [opByte]
    congr 1
    funext f
    split_ifs with hlt
    · rw [mathByte, if_neg (not_le.mpr hlt), bigEndianByteAt_eq hk]
    · rfl

end GoWanchain.Vm
