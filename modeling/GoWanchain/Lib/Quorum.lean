import Mathlib.Data.Finset.Card
import Mathlib.Tactic.Linarith

/-!
# Counting with quorums

Two subsets of a finite universe overlap in at least `|A| + |B| - |U|` elements (`card_add_le_inter`),
which is all that a quorum argument uses: a large enough overlap is not covered by the faulty members
(`exists_inter_notMem`). The bound is attained: the first and the last `k` elements of a list without
repetition overlap in exactly `2 k - n` elements (`card_ends_inter`).
-/

namespace GoWanchain.Quorum

open List

variable {α : Type} [DecidableEq α]

theorem card_add_le_inter {U A B : Finset α} (hA : A ⊆ U) (hB : B ⊆ U) : A.card + B.card ≤ (A ∩ B).card + U.card := by
  have hunion : (A ∪ B).card ≤ U.card := Finset.card_le_card (Finset.union_subset hA hB)
  have hinter := Finset.card_union_add_card_inter A B
  omega

theorem exists_inter_notMem {A B X : Finset α} (h : X.card < (A ∩ B).card) : ∃ v ∈ A ∩ B, v ∉ X := by
  by_contra hnone
  push Not at hnone
  exact absurd (Finset.card_le_card hnone) (by omega)

theorem exists_mem_inter {U A B : Finset α} (hA : A ⊆ U) (hB : B ⊆ U)
    (h : U.card < A.card + B.card) : ∃ v, v ∈ A ∧ v ∈ B := by
  have hle := card_add_le_inter hA hB
  obtain ⟨v, hv⟩ := Finset.card_pos.mp (show 0 < (A ∩ B).card by omega)
  exact ⟨v, Finset.mem_inter.mp hv⟩

theorem take_inter_drop {l : List α} (hl : l.Nodup) (j k : ℕ) :
    (l.take k).toFinset ∩ (l.drop j).toFinset = ((l.take k).drop j).toFinset := by
  ext x
  simp only [Finset.mem_inter, mem_toFinset]
  constructor
  · rintro ⟨htake, hdrop⟩
    -- both memberships name an index of `x`, and `l` has only one
    obtain ⟨i, hi, rfl⟩ := mem_iff_getElem.mp htake
    obtain ⟨i', hi', heq⟩ := mem_iff_getElem.mp hdrop
    simp only [length_take, length_drop] at hi hi'
    simp only [getElem_take, getElem_drop] at heq ⊢
    have hidx : j + i' = i := (hl.getElem_inj_iff).mp heq
    refine mem_iff_getElem.mpr ⟨i', by simp; omega, ?_⟩
    simp [hidx]
  · intro hx
    refine ⟨mem_of_mem_drop hx, ?_⟩
    rw [drop_take] at hx
    exact mem_of_mem_take hx

/-- The first and the last `k` elements overlap in exactly `2 k - n` elements. -/
theorem card_ends_inter {l : List α} (hl : l.Nodup) {k : ℕ} (hk : k ≤ l.length) :
    ((l.take k).toFinset ∩ (l.drop (l.length - k)).toFinset).card = 2 * k - l.length := by
  rw [take_inter_drop hl]
  have hnodup : ((l.take k).drop (l.length - k)).Nodup :=
    hl.sublist ((drop_sublist _ _).trans (take_sublist _ _))
  rw [toFinset_card_of_nodup hnodup, length_drop, length_take]
  omega

end GoWanchain.Quorum
