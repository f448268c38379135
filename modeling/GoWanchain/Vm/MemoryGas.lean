import GoWanchain.Vm.Rounds

/-!
# The gas of the memory

The memory of a frame costs `memoryFee` of its size in words, a quadratic formula, and is paid for as it
grows: `memoryGasCost` takes the fee of the new size less what was paid. The square is one of `uint64`, and
the bound on sizes, `0xffffffffe0` bytes, is beyond the one for which it fits, `0x1fffffffe0`.
-/

namespace GoWanchain.Vm

open State Option

/-! ### The formula -/

def memoryFee (w : ℕ) : ℕ := 3 * w + w * w / 512

/-- The same with the square as it is computed. -/
def wrappedFee (w : ℕ) : ℕ := 3 * w + w * w % 2 ^ 64 / 512

/-- How often the square wraps around. -/
def wraps (w : ℕ) : ℕ := w * w / 2 ^ 64

theorem memoryFee_eq (w : ℕ) : memoryFee w = wrappedFee w + 2 ^ 55 * wraps w := by
  rw [memoryFee, wrappedFee, wraps]
  omega

variable {v w : ℕ} {mem : Memory}

theorem memoryFee_mono (h : v ≤ w) : memoryFee v ≤ memoryFee w := by
  have hsquare : v * v ≤ w * w := Nat.mul_le_mul h h
  rw [memoryFee, memoryFee]
  omega

theorem wraps_mono (h : v ≤ w) : wraps v ≤ wraps w := Nat.div_le_div_right (Nat.mul_le_mul h h)

theorem wraps_eq_zero_iff : wraps w = 0 ↔ w < 2 ^ 32 := by
  rw [wraps, Nat.div_eq_zero_iff]
  constructor
  · intro h
    by_contra hle
    have : 2 ^ 32 * 2 ^ 32 ≤ w * w := Nat.mul_le_mul (by omega) (by omega)
    omega
  · intro h
    have : w * w ≤ (2 ^ 32 - 1) * (2 ^ 32 - 1) := Nat.mul_le_mul (by omega) (by omega)
    omega

/-- The words of a memory that is not refused. -/
def maxWords : ℕ := 0x7ffffffff

theorem wraps_lt (h : w ≤ maxWords) : wraps w < 64 := by
  rw [maxWords] at h
  have : w * w ≤ 0x7ffffffff * 0x7ffffffff := Nat.mul_le_mul h h
  rw [wraps]
  omega

theorem wrappedFee_lt (h : w ≤ maxWords) : wrappedFee w < 2 ^ 56 := by
  rw [maxWords] at h
  rw [wrappedFee]
  omega

/-! ### One expansion -/

theorem toWordSize_le {size : ℕ} (h : size ≤ 0xffffffffe0) : toWordSize size ≤ maxWords := by
  rw [toWordSize, if_neg (by omega), maxWords]
  omega

/-- A memory of `w` words, for which `wrappedFee` was paid. -/
structure Memory.Priced (mem : Memory) (w : ℕ) : Prop where
  length_eq : mem.store.length = 32 * w
  le : w ≤ maxWords
  paid : mem.lastGasCost = wrappedFee w

/-- What is charged for the growth from `v` to `w` words. -/
def growthFee (v w : ℕ) : ℕ := (wrappedFee w + 2 ^ 64 - wrappedFee v) % 2 ^ 64

theorem Memory.Priced.memoryGasCost_eq (h : mem.Priced w) {size : ℕ}
    (hsize : size ≤ 0xffffffffe0) : memoryGasCost mem size = some (growthFee w (max w (toWordSize size)),
      { mem with lastGasCost := wrappedFee (max w (toWordSize size)) }) := by
  have hwords := toWordSize_le hsize
  have hfee := wrappedFee_lt hwords
  have hstay : (0, mem) = (growthFee w w, { mem with lastGasCost := wrappedFee w }) := by
    rw [← h.paid, growthFee, Nat.add_sub_cancel_left]
    rfl
  unfold memoryGasCost
  rw [maxWords] at hwords
  split_ifs with hzero hlarge
  · have hnone : toWordSize size = 0 := by rw [hzero]; rfl
    rw [hnone, Nat.max_zero, hstay]
  · omega
  · simp only [h.length_eq]
    split_ifs with hgrows
    · have hmax : max w (toWordSize size) = toWordSize size := by omega
      have htotal : (toWordSize size * 3 % 2 ^ 64 + toWordSize size * toWordSize size % 2 ^ 64 / 512) % 2 ^ 64 =
          wrappedFee (toWordSize size) := by
        rw [wrappedFee] at hfee ⊢
        omega
      rw [hmax, htotal, growthFee, h.paid]
    · have hmax : max w (toWordSize size) = w := by omega
      rw [hmax, hstay]

/-- The fee is that of the formula if and only if the squares of both sizes wrap around equally often. -/
theorem growthFee_eq_iff (hle : v ≤ w) (hw : w ≤ maxWords) :
    growthFee v w = memoryFee w - memoryFee v ↔ wraps w = wraps v := by
  have hmono := memoryFee_mono hle
  have hwraps := wraps_mono hle
  have hlt := wraps_lt hw
  have hfee := wrappedFee_lt hw
  have hfee' := wrappedFee_lt (hle.trans hw)
  rw [memoryFee_eq, memoryFee_eq] at *
  rw [growthFee]
  omega

theorem growthFee_add (u v w : ℕ) (hu : u ≤ maxWords) (hv : v ≤ maxWords) (hw : w ≤ maxWords) :
    (growthFee u v + growthFee v w) % 2 ^ 64 = growthFee u w := by
  have hfee := wrappedFee_lt hu
  have hfee' := wrappedFee_lt hv
  have hfee'' := wrappedFee_lt hw
  rw [growthFee, growthFee, growthFee]
  omega

/-! ### Expansions -/

/-- The memory part of a round of the interpreter: the fee for `memSize` bytes, and the memory resized to them. -/
def Memory.expand (mem : Memory) (memSize : ℕ) : Option (ℕ × Memory) :=
  let memorySize := toWordSize memSize * 32
  (memoryGasCost mem memorySize).map fun paid =>
    (paid.1, if memorySize > 0 then paid.2.resize memorySize else paid.2)

theorem toWordSize_mul {n : ℕ} (h : n ≤ maxWords) : toWordSize (n * 32) = n := by
  rw [maxWords] at h
  rw [toWordSize, if_neg (by omega)]
  omega

theorem Memory.length_resize (mem : Memory) (size : ℕ) :
    (mem.resize size).store.length = max mem.store.length size := by
  simp only [Memory.resize, rightPadBytes, List.length_append, List.length_replicate]
  omega

theorem Memory.Priced.resize (h : mem.Priced v) (hw : w ≤ maxWords) :
    Memory.Priced (if w * 32 > 0 then Memory.resize { mem with lastGasCost := wrappedFee (max v w) } (w * 32)
      else { mem with lastGasCost := wrappedFee (max v w) }) (max v w) := by
  have hle := h.le
  have hlength := h.length_eq
  split_ifs with hpos
  · refine ⟨?_, by omega, rfl⟩
    rw [Memory.length_resize]
    show max mem.store.length _ = _
    omega
  · have hzero : w = 0 := by omega
    subst hzero
    refine ⟨?_, by omega, rfl⟩
    show mem.store.length = _
    omega

theorem Memory.Priced.expand {mem' : Memory} {memSize fee : ℕ} (h : mem.Priced v)
    (hexpand : mem.expand memSize = some (fee, mem')) : ∃ w, v ≤ w ∧ mem'.Priced w ∧ fee = growthFee v w := by
  have hbound : toWordSize memSize ≤ maxWords := by
    by_contra hlarge
    rw [maxWords] at hlarge
    rw [Memory.expand, memoryGasCost, if_neg (by omega), if_pos (by omega)] at hexpand
    cases hexpand
  have hsize : toWordSize memSize * 32 ≤ 0xffffffffe0 := by
    rw [maxWords] at hbound
    omega
  rw [Memory.expand, h.memoryGasCost_eq hsize, toWordSize_mul hbound, map_some, some.injEq, Prod.mk.injEq] at hexpand
  obtain ⟨rfl, rfl⟩ := hexpand
  exact ⟨max v (toWordSize memSize), Nat.le_max_left _ _, h.resize hbound, rfl⟩

/-- A sequence of expansions, with the sum of the fees. -/
def Memory.expandAll (mem : Memory) : List ℕ → Option (ℕ × Memory)
  | [] => some (0, mem)
  | memSize :: sizes =>
    (mem.expand memSize).bind fun paid => (paid.2.expandAll sizes).map fun rest => (paid.1 + rest.1, rest.2)

/-- The sum of the fees, as far as `uint64` can tell and, without a wrap, exactly. -/
theorem Memory.Priced.expandAll {mem' : Memory} {total : ℕ} {sizes : List ℕ} (h : mem.Priced v)
    (hexpand : mem.expandAll sizes = some (total, mem')) : ∃ w, v ≤ w ∧ mem'.Priced w ∧
      total % 2 ^ 64 = growthFee v w ∧ (w < 2 ^ 32 → total = memoryFee w - memoryFee v) := by
  induction sizes generalizing mem v total with
  | nil =>
    cases hexpand
    refine ⟨v, le_rfl, h, ?_, fun _ => (Nat.sub_self _).symm⟩
    rw [growthFee, Nat.add_sub_cancel_left, Nat.zero_mod, Nat.mod_self]
  | cons _ _ ih =>
    obtain ⟨⟨fee, mem₁⟩, hstep, hrest⟩ := bind_eq_some_iff.mp hexpand
    obtain ⟨⟨rest, _⟩, hsizes, heq⟩ := map_eq_some_iff.mp hrest
    cases heq
    obtain ⟨u, hvu, hpriced, rfl⟩ := h.expand hstep
    obtain ⟨w, huw, hend, hmod, hexact⟩ := ih hpriced hsizes
    refine ⟨w, hvu.trans huw, hend, ?_, fun hw => ?_⟩
    · rw [← growthFee_add v u w h.le hpriced.le hend.le, ← hmod, Nat.add_mod_mod]
    · have hwraps : wraps u = wraps v := by
        rw [wraps_eq_zero_iff.mpr (huw.trans_lt hw), wraps_eq_zero_iff.mpr ((hvu.trans huw).trans_lt hw)]
      have hfee := (growthFee_eq_iff hvu hpriced.le).mpr hwraps
      have hrest := hexact hw
      have hmono := memoryFee_mono hvu
      have hmono' := memoryFee_mono huw
      show growthFee v u + rest = _
      omega

theorem Memory.expandAll_append {mem₁ : Memory} {sizes : List ℕ} {total : ℕ}
    (h : mem.expandAll sizes = some (total, mem₁)) (memSize : ℕ) : mem.expandAll (sizes ++ [memSize]) =
      (mem₁.expand memSize).map fun paid => (total + paid.1, paid.2) := by
  induction sizes generalizing mem total with
  | nil =>
    cases h
    simp only [List.nil_append, Memory.expandAll, map_some, Nat.add_zero, Nat.zero_add]
    cases mem₁.expand memSize <;> rfl
  | cons _ _ ih =>
    obtain ⟨⟨fee, mem₂⟩, hstep, hrest⟩ := bind_eq_some_iff.mp h
    obtain ⟨⟨rest, _⟩, hsizes, heq⟩ := map_eq_some_iff.mp hrest
    cases heq
    rw [List.cons_append, Memory.expandAll, hstep, bind_some, ih hsizes, map_map]
    congr 1
    funext paid
    simp [Nat.add_assoc]

theorem Memory.priced_nil : Memory.Priced ⟨[], 0⟩ 0 := ⟨rfl, Nat.zero_le _, rfl⟩

/-- **The gas of the memory.** The fee for a size that is not refused is the difference of the formula if and only if
the squares of the two sizes in words wrap around equally often. The fees of a memory that grows from nothing add up to
the formula for its size if and only if it has fewer than `2 ^ 32` words. -/
theorem memoryGas_iff (mem mem' : Memory) (w size fee : ℕ) (sizes : List ℕ) (total : ℕ) (grown : Memory) :
    (mem.Priced w → memoryGasCost mem size = some (fee, mem') →
      (fee = memoryFee (max w (toWordSize size)) - memoryFee w ↔ wraps (max w (toWordSize size)) = wraps w)) ∧
    (Memory.expandAll ⟨[], 0⟩ sizes = some (total, grown) →
      (total = memoryFee (grown.store.length / 32) ↔ grown.store.length / 32 < 2 ^ 32)) := by
  constructor
  · intro h hcost
    have hsize : size ≤ 0xffffffffe0 := by
      by_contra hlarge
      rw [memoryGasCost, if_neg (by omega), if_pos (by omega)] at hcost
      cases hcost
    rw [h.memoryGasCost_eq hsize] at hcost
    cases hcost
    exact growthFee_eq_iff (Nat.le_max_left _ _) (Nat.max_le.mpr ⟨h.le, toWordSize_le hsize⟩)
  · intro hexpand
    obtain ⟨w, -, hpriced, hmod, hexact⟩ := Memory.priced_nil.expandAll hexpand
    have hwords : grown.store.length / 32 = w := by
      rw [hpriced.length_eq]
      omega
    have hnil : wrappedFee 0 = 0 := rfl
    have hfee := wrappedFee_lt hpriced.le
    have hlt := wraps_lt hpriced.le
    rw [hwords]
    constructor
    · intro htotal
      rw [← wraps_eq_zero_iff]
      rw [htotal, memoryFee_eq, growthFee, hnil] at hmod
      omega
    · intro hw
      simpa [memoryFee] using hexact hw

namespace Sample

/-- The memory of `2 ^ 32` words costs as if the quadratic part were nothing. -/
theorem square_overflows : Memory.Priced ⟨[], 0⟩ 0 ∧ (memoryGasCost ⟨[], 0⟩ (2 ^ 37)).map Prod.fst = some (3 * 2 ^ 32) ∧
    memoryFee (toWordSize (2 ^ 37)) = 3 * 2 ^ 32 + 2 ^ 55 :=
  ⟨Memory.priced_nil, by decide +kernel, by decide +kernel⟩

theorem memoryGas_iff_small : (memoryGasCost ⟨[], 0⟩ 64).map Prod.fst = some (memoryFee 2) ∧
    ∃ mem, Memory.expandAll ⟨[], 0⟩ [32, 1024] = some (memoryFee 32, mem) := by
  have hstep := (memoryGas_iff ⟨[], 0⟩ ⟨[], 6⟩ 0 64 6 [] 0 ⟨[], 0⟩).1 Memory.priced_nil rfl
  obtain ⟨⟨total, mem⟩, hrun⟩ : ∃ paid, Memory.expandAll ⟨[], 0⟩ [32, 1024] = some paid :=
    isSome_iff_exists.mp (by decide +kernel)
  have hlength : mem.store.length = 1024 := by
    have hlen : (Memory.expandAll ⟨[], 0⟩ [32, 1024]).map (·.2.store.length) = some 1024 := by decide +kernel
    rw [hrun] at hlen
    exact some.inj hlen
  have htotal := ((memoryGas_iff ⟨[], 0⟩ ⟨[], 0⟩ 0 0 0 [32, 1024] total mem).2 hrun).mpr (by rw [hlength]; decide)
  rw [hlength] at htotal
  refine ⟨?_, mem, by rw [hrun, htotal]⟩
  have hfee : 6 = memoryFee 2 - memoryFee 0 := hstep.mpr (by decide +kernel)
  rw [show memoryFee 2 = 6 from hfee.symm]
  decide +kernel

end Sample

end GoWanchain.Vm
