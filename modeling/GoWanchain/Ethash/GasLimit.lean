import GoWanchain.Ethash.Engine

/-!
# The gas limit of a mined block

`CalcGasLimit` of `core/block_validator.go` against the bound of `verifyHeader`. The strategy of the miner goes down by
at most `decay`, and up to a target by at most `decay`, which is one less than the bound. But a full parent lets it go
up by `contrib - decay`, and for gas limits below 5120 that can be the bound itself (`calcGasLimit_iff`).
-/

namespace GoWanchain.Ethash

open Types

/-- `CalcGasLimit`; `target` is `params.TargetGasLimit`. -/
def calcGasLimit (target : ℤ) (parent : Header) : ℤ :=
  let contrib := parent.gasUsed * 3 / 2 / gasLimitBoundDivisor
  let decay := parent.gasLimit / gasLimitBoundDivisor - 1
  let gl := max (parent.gasLimit - decay + contrib) minGasLimit
  if gl < target then min (parent.gasLimit + decay) target else gl

/-- The bound for a gas limit `g` on top of `p`. -/
def Within (p g : ℤ) : Prop := minGasLimit ≤ g ∧ |g - p| < p / gasLimitBoundDivisor

/-- The gas that a parent can have used. -/
structure Bounded (parent : Header) : Prop where
  minimum : minGasLimit ≤ parent.gasLimit
  nonneg : 0 ≤ parent.gasUsed
  used : parent.gasUsed ≤ parent.gasLimit

variable {target : ℤ} {parent header : Header}

theorem verifyGasLimit_iff_within (hmin : minGasLimit ≤ parent.gasLimit) (hcap : parent.gasLimit ≤ 2 ^ 63 - 1)
    (hlow : 0 ≤ header.gasLimit) (hhigh : header.gasLimit ≤ 2 * parent.gasLimit) :
    verifyGasLimit header parent = .ok () ↔ header.gasLimit ≤ 2 ^ 63 - 1 ∧ header.gasUsed ≤ header.gasLimit ∧
      Within parent.gasLimit header.gasLimit := by
  have hwords : Words parent.gasLimit header.gasLimit := by
    rw [minGasLimit] at hmin
    refine ⟨⟨hlow, ?_⟩, ⟨?_, ?_⟩, ?_, ?_⟩ <;> omega
  have hlimit := uint64_of_word hwords.limit
  have hparent := uint64_of_word hwords.parent
  have hdistance := distance_of_words hwords
  rw [verifyGasLimit_eq_ok, Within, abs_sub_comm, ← hdistance, gasLimitBoundDivisor]
  omega

theorem calcGasLimit_cases (target : ℤ) (parent : Header) : ∃ gl,
    gl = max (parent.gasLimit - (parent.gasLimit / 1024 - 1) + parent.gasUsed * 3 / 2 / 1024) 5000 ∧
      (gl < target ∧ calcGasLimit target parent = min (parent.gasLimit + (parent.gasLimit / 1024 - 1)) target ∨
        target ≤ gl ∧ calcGasLimit target parent = gl) := by
  refine ⟨_, rfl, ?_⟩
  rcases lt_or_ge (max (parent.gasLimit - (parent.gasLimit / 1024 - 1) + parent.gasUsed * 3 / 2 / 1024) 5000) target
    with hlt | hge
  · exact .inl ⟨hlt, if_pos hlt⟩
  · exact .inr ⟨hge, if_neg (not_lt.mpr hge)⟩

theorem calcGasLimit_bounds (target : ℤ) (h : Bounded parent) :
    minGasLimit ≤ calcGasLimit target parent ∧ calcGasLimit target parent ≤ 2 * parent.gasLimit ∧
      parent.gasLimit - calcGasLimit target parent < parent.gasLimit / gasLimitBoundDivisor ∧
      (calcGasLimit target parent - parent.gasLimit < parent.gasLimit / gasLimitBoundDivisor ↔
        5120 ≤ parent.gasLimit ∨ parent.gasUsed < 4779 ∨ parent.gasLimit + 4 < target) := by
  obtain ⟨hmin, hnonneg, hused⟩ := h
  rw [minGasLimit] at hmin ⊢
  rw [gasLimitBoundDivisor]
  obtain ⟨gl, hgl, ⟨hlt, heq⟩ | ⟨hge, heq⟩⟩ := calcGasLimit_cases target parent
  · rw [heq]
    omega
  · rw [heq]
    omega

/-- **Mined gas limits.** The gas limit that is chosen on top of a parent is within the bound if and only if the parent
has a limit of 5120 or more, has used less than 4779, or the target is more than four above it. For a parent below the
cap, the bound is what `verifyHeader` checks. -/
theorem calcGasLimit_iff (target : ℤ) (parent : Header) (h : Bounded parent) :
    (Within parent.gasLimit (calcGasLimit target parent) ↔
      5120 ≤ parent.gasLimit ∨ parent.gasUsed < 4779 ∨ parent.gasLimit + 4 < target) ∧
    (parent.gasLimit ≤ 2 ^ 63 - 1 → ∀ header : Header, header.gasLimit = calcGasLimit target parent →
      (verifyGasLimit header parent = .ok () ↔ header.gasLimit ≤ 2 ^ 63 - 1 ∧ header.gasUsed ≤ header.gasLimit ∧
        Within parent.gasLimit header.gasLimit)) := by
  obtain ⟨hlow, hhigh, hdown, hup⟩ := calcGasLimit_bounds target h
  refine ⟨?_, fun hcap header hlimit => ?_⟩
  · rw [← hup, Within, abs_lt]
    constructor
    · exact fun hwithin => hwithin.2.2
    · exact fun hup => ⟨hlow, by omega, hup⟩
  · refine verifyGasLimit_iff_within h.minimum hcap ?_ ?_
    · rw [hlimit]
      exact le_trans (Nat.cast_nonneg _) hlow
    · rwa [hlimit]

namespace Sample

/-- A full block at the minimum. -/
def fullHeader : Header := { genesisHeader with gasLimit := 5000, gasUsed := 5000 }

/-- The gas limit on top of it is refused, for a target that is reached. -/
theorem fullHeader_exceeds : Bounded fullHeader ∧ calcGasLimit 5000 fullHeader = 5004 ∧
    verifyGasLimit { honest with gasLimit := calcGasLimit 5000 fullHeader } fullHeader =
      .error (.gasLimit 5004 5000 4) :=
  ⟨⟨by decide, by decide, by decide⟩, by decide +kernel⟩

theorem calcGasLimit_iff_genesis :
    verifyGasLimit { honest with gasLimit := calcGasLimit 4712388 genesisHeader } genesisHeader = .ok () := by
  obtain ⟨hwithin, hcheck⟩ := calcGasLimit_iff 4712388 genesisHeader ⟨by decide, by decide, by decide⟩
  exact (hcheck (by decide) _ rfl).mpr ⟨by decide, by decide, hwithin.mpr (by decide)⟩

end Sample

end GoWanchain.Ethash
