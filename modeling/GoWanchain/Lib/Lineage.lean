import Mathlib.Data.List.Basic

/-!
# Lineages in a store of linked items

Items are stored under a key and a height, and name the key of their parent, which stands one height below.
`Lineage parentOf root l` says that the keys of `l`, the highest first, follow one another down to the root at
height 0. A lineage is determined by its first key and its height; two lineages that share a key at one
height share all that is below.
-/

namespace GoWanchain

variable {κ : Type}

/-- The keys, the highest first, follow one another down to the root; `parentOf h n` is the parent that the item
stored under `h` at height `n` names. -/
inductive Lineage (parentOf : κ → ℕ → Option κ) (root : κ) : List κ → Prop
  | root : Lineage parentOf root [root]
  | cons {h p : κ} {l : List κ} (hp : Lineage parentOf root (p :: l))
      (hlink : parentOf h (l.length + 1) = some p) : Lineage parentOf root (h :: p :: l)

namespace Lineage

variable {parentOf parentOf' : κ → ℕ → Option κ} {root h p : κ} {l l' pre : List κ}

theorem ne_nil (hl : Lineage parentOf root l) : l ≠ [] := by
  cases hl <;> exact List.cons_ne_nil _ _

theorem mono (hle : ∀ h n p, parentOf h n = some p → parentOf' h n = some p) (hl : Lineage parentOf root l) :
    Lineage parentOf' root l := by
  induction hl with
  | root => exact .root
  | cons _ hlink ih => exact .cons ih (hle _ _ _ hlink)

theorem congr (heq : ∀ h n, l.reverse[n]? = some h → parentOf' h n = parentOf h n) (hl : Lineage parentOf root l) :
    Lineage parentOf' root l := by
  induction hl with
  | root => exact .root
  | @cons h p l _ hlink ih =>
    refine .cons (ih fun h' n hn => heq h' n ?_) ?_
    · rw [List.reverse_cons, List.getElem?_append_left (List.getElem?_eq_some_iff.mp hn).1, hn]
    · rw [heq h (l.length + 1) (by simp), hlink]

theorem suffix (hl : Lineage parentOf root (pre ++ h :: l)) : Lineage parentOf root (h :: l) := by
  induction pre with
  | nil => exact hl
  | cons _ pre ih =>
    apply ih
    cases pre with
    | nil | cons =>
      cases hl with
      | cons hp => exact hp

theorem tail (hl : Lineage parentOf root (h :: p :: l)) : Lineage parentOf root (p :: l) :=
  suffix (show Lineage parentOf root ([h] ++ p :: l) from hl)

theorem link (hl : Lineage parentOf root (h :: p :: l)) : parentOf h (l.length + 1) = some p := by
  cases hl with
  | cons _ hlink => exact hlink

theorem unique (hl : Lineage parentOf root (h :: l)) (hl' : Lineage parentOf root (h :: l'))
    (hlen : l.length = l'.length) : l = l' := by
  induction l generalizing h l' with
  | nil => exact (List.length_eq_zero_iff.mp hlen.symm).symm
  | cons _ l ih =>
    cases l' with
    | nil => cases hlen
    | cons _ l' =>
      cases hl with
      | cons hp hlink =>
        cases hl' with
        | cons hp' hlink' =>
          have hlen' : l.length = l'.length := Nat.succ.inj hlen
          rw [← hlen'] at hlink'
          cases (hlink.symm.trans hlink')
          rw [ih hp hp' hlen']

theorem split_of_getElem? {n : ℕ} (hn : l.reverse[n]? = some h) :
    ∃ pre post, l = pre ++ h :: post ∧ post.length = n := by
  obtain ⟨hlt, hget⟩ := List.getElem?_eq_some_iff.mp hn
  refine ⟨(l.reverse.drop (n + 1)).reverse, (l.reverse.take n).reverse, ?_, ?_⟩
  · apply List.reverse_injective
    rw [List.reverse_append, List.reverse_cons, List.reverse_reverse, List.reverse_reverse, ← hget,
      List.take_append_getElem hlt, List.take_append_drop]
  · rw [List.length_reverse, List.length_take, Nat.min_eq_left (Nat.le_of_lt hlt)]

theorem getElem?_length : (h :: l).reverse[l.length]? = some h := by
  simp

theorem getElem?_append {n : ℕ} (hn : n ≤ l.length) : (pre ++ h :: l).reverse[n]? = (h :: l).reverse[n]? := by
  rw [List.reverse_append, List.getElem?_append_left]
  rw [List.length_reverse, List.length_cons]
  omega

theorem agree {n : ℕ} (hl : Lineage parentOf root l) (hl' : Lineage parentOf root l')
    (hn : l.reverse[n]? = some h) (hn' : l'.reverse[n]? = some h) {m : ℕ} (hm : m ≤ n) :
    l.reverse[m]? = l'.reverse[m]? := by
  obtain ⟨pre, post, rfl, hlen⟩ := split_of_getElem? hn
  obtain ⟨pre', post', rfl, hlen'⟩ := split_of_getElem? hn'
  obtain rfl := unique hl.suffix hl'.suffix (hlen.trans hlen'.symm)
  rw [getElem?_append (by omega), getElem?_append (by omega)]

theorem getElem?_zero (hl : Lineage parentOf root l) : l.reverse[0]? = some root := by
  induction hl with
  | root => rfl
  | cons _ _ ih =>
    rw [List.reverse_cons, List.getElem?_append_left (List.getElem?_eq_some_iff.mp ih).1, ih]

end Lineage

end GoWanchain
