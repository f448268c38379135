import Mathlib.Algebra.BigOperators.Group.List.Basic
import Mathlib.Algebra.Module.Basic
import Mathlib.Data.List.Nodup
import Mathlib.Data.List.GetD
import Mathlib.Data.Int.ModEq

/-!
# Scalars of a group and loops over its elements

Scalars are natural numbers that are reduced modulo the order of the group. `subMod` is a difference that is
reduced, and undone by adding up again, as numbers and as multiples of an element. A loop whose every round either
fails or goes on is a fold, once no round fails; a loop that adds up scalars and appends to a text computes a
sum and a concatenation.
-/

namespace GoWanchain

open List

/-! ### Differences -/

/-- `a - b`, reduced to the numbers below `N`. -/
def subMod (N a b : ℕ) : ℕ := (((a : ℤ) - b) % N).toNat

section Differences

variable {N : ℕ} (hN : 0 < N)

include hN

theorem natCast_subMod (a b : ℕ) : (subMod N a b : ℤ) = ((a : ℤ) - b) % N :=
  Int.toNat_of_nonneg (Int.emod_nonneg _ (by omega))

theorem subMod_lt (a b : ℕ) : subMod N a b < N := by
  have hlt := Int.emod_lt_of_pos ((a : ℤ) - b) (show (0 : ℤ) < N by omega)
  rw [← natCast_subMod hN] at hlt
  omega

theorem subMod_add_modEq (a b : ℕ) : subMod N a b + b ≡ a [MOD N] := by
  rw [← Int.natCast_modEq_iff, Nat.cast_add, natCast_subMod hN]
  calc ((a : ℤ) - b) % N + b ≡ (a - b) + b [ZMOD N] := (Int.mod_modEq _ _).add_right _
    _ = a := sub_add_cancel _ _

end Differences

section Group

variable {A : Type} [AddCommGroup A] {N : ℕ} {P : A}

theorem nsmul_of_modEq (hP : N • P = 0) {a b : ℕ} (h : a ≡ b [MOD N]) : a • P = b • P := by
  obtain ⟨k, hk⟩ := (Nat.modEq_iff_dvd.mp h.symm)
  have hz : ((a : ℤ) - b) • P = 0 := by rw [hk, mul_comm, mul_smul, natCast_zsmul, hP, smul_zero]
  rw [sub_smul, natCast_zsmul, natCast_zsmul] at hz
  exact sub_eq_zero.mp hz

end Group

/-! ### Loops -/

section Loops

variable {α σ ε : Type}

theorem foldlM_guard {p : α → Prop} [DecidablePred p] {f : σ → α → Option σ} {g : σ → α → σ}
    (hf : ∀ s a, f s a = if p a then some (g s a) else none) (l : List α) (s : σ) :
    l.foldlM f s = if ∀ a ∈ l, p a then some (l.foldl g s) else none := by
  induction l generalizing s with
  | nil => simp
  | cons a _ ih =>
    rw [foldlM_cons, hf]
    by_cases ha : p a
    · simp [ha, ih]
    · simp [ha]

theorem foldlM_ok {f : σ → α → Except ε σ} {g : σ → α → σ} {l : List α} (hf : ∀ s, ∀ a ∈ l, f s a = .ok (g s a))
    (s : σ) : l.foldlM f s = .ok (l.foldl g s) := by
  induction l generalizing s with
  | nil => rfl
  | cons a _ ih =>
    rw [foldlM_cons, hf s a (by simp)]
    exact ih (fun s b hb => hf s b (mem_cons_of_mem a hb)) (g s a)

theorem foldl_append_flatMap (f : α → List σ) (l : List α) (d : List σ) :
    l.foldl (fun d a => d ++ f a) d = d ++ l.flatMap f := by
  induction l generalizing d with
  | nil => simp
  | cons _ _ ih => rw [foldl_cons, ih, flatMap_cons, append_assoc]

theorem foldl_sum_append (N : ℕ) (k : α → ℕ) (f : α → List σ) (l : List α) (n : ℕ) (d : List σ) :
    l.foldl (fun s a => ((s.1 + k a) % N, s.2 ++ f a)) (n % N, d) = ((n + (l.map k).sum) % N, d ++ l.flatMap f) := by
  induction l generalizing n d with
  | nil => simp
  | cons _ _ ih =>
    rw [foldl_cons, Nat.mod_add_mod, ih, map_cons, sum_cons, flatMap_cons, append_assoc, Nat.add_assoc]

theorem sum_range_split {n s : ℕ} (hs : s < n) (f : ℕ → ℕ) (a : ℕ) :
    ((range n).map fun i => if i = s then a else f i).sum =
      ((range n).map fun i => if i = s then 0 else f i).sum + a := by
  have hone : ((range n).map fun i => if i = s then a else 0).sum = a := by
    rw [sum_map_eq_nsmul_single s _ (fun i hi _ => if_neg hi), if_pos rfl,
      count_eq_one_of_mem nodup_range (mem_range.mpr hs), one_nsmul]
  conv_rhs => rw [← hone, ← sum_map_add]
  congr 2
  funext i
  split_ifs
  · rw [Nat.zero_add]
  · rw [Nat.add_zero]

end Loops

end GoWanchain
