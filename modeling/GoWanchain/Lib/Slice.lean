import Mathlib.Data.List.GetD
import Mathlib.Data.Nat.Init

/-!
# Slices

A slice of Go is a window into an array that other slices may share: it begins at an offset, has a length,
and may grow in place up to its capacity. The arrays that were allocated are the heap. `append` writes
behind the window when there is capacity left, into an array that others read, and copies to a new array
when there is none (`elems_append_iff`).

The capacity of an array that `append` makes is its length: how much more the runtime allocates does not
matter to slices of other arrays.
-/

namespace GoWanchain

abbrev Heap (α : Type) := List (List α)

structure Slice where
  array : ℕ
  offset : ℕ
  len : ℕ
  cap : ℕ
deriving DecidableEq

namespace Slice

variable {α : Type}

/-- The array that a slice is a window into. -/
def backing (h : Heap α) (s : Slice) : List α := h.getD s.array []

def elems (h : Heap α) (s : Slice) : List α := ((s.backing h).drop s.offset).take s.len

/-- The window is within its array. -/
structure Valid (h : Heap α) (s : Slice) : Prop where
  array_lt : s.array < h.length
  len_le : s.len ≤ s.cap
  cap_le : s.offset + s.cap ≤ (s.backing h).length

def sub (s : Slice) (i j : ℕ) : Slice := ⟨s.array, s.offset + i, j - i, s.cap - i⟩

def make (h : Heap α) (xs : List α) : Heap α × Slice := (h ++ [xs], ⟨h.length, 0, xs.length, xs.length⟩)

def append (h : Heap α) (s : Slice) (x : α) : Heap α × Slice :=
  if s.len < s.cap then
    (h.set s.array ((s.backing h).set (s.offset + s.len) x), { s with len := s.len + 1 })
  else make h (s.elems h ++ [x])

variable {h h' : Heap α} {s t : Slice} {x : α}

/-! ### Windows -/

theorem getElem?_elems (i : ℕ) : (s.elems h)[i]? = if i < s.len then (s.backing h)[s.offset + i]? else none := by
  rw [elems, List.getElem?_take, List.getElem?_drop]

theorem Valid.length_elems (hs : s.Valid h) : (s.elems h).length = s.len := by
  have := hs.len_le
  have := hs.cap_le
  rw [elems, List.length_take, List.length_drop]
  omega

theorem elems_sub {i j : ℕ} (hj : j ≤ s.len) : (s.sub i j).elems h = ((s.elems h).drop i).take (j - i) := by
  refine List.ext_getElem? fun k => ?_
  rw [getElem?_elems, List.getElem?_take, List.getElem?_drop, getElem?_elems]
  by_cases hk : k < j - i
  · have : i + k < s.len := by omega
    simp only [sub, hk, this, if_true, Nat.add_assoc]
    rfl
  · simp only [sub, hk, if_false]

theorem Valid.sub (hs : s.Valid h) {i j : ℕ} (hij : i ≤ j) (hj : j ≤ s.len) : (s.sub i j).Valid h where
  array_lt := hs.array_lt
  len_le := by
    have := hs.len_le
    show j - i ≤ s.cap - i
    omega
  cap_le := by
    have := hs.len_le
    have hcap : s.offset + s.cap ≤ (s.backing h).length := hs.cap_le
    show s.offset + i + (s.cap - i) ≤ (s.backing h).length
    omega

/-! ### Heaps that grow -/

theorem backing_kept (hp : h <+: h') (hs : s.array < h.length) : s.backing h' = s.backing h := by
  obtain ⟨l, rfl⟩ := hp
  rw [backing, backing, List.getD_append _ _ _ _ hs]

theorem elems_kept (hp : h <+: h') (hs : s.array < h.length) : s.elems h' = s.elems h := by
  rw [elems, backing_kept hp hs, elems]

theorem prefix_make (h : Heap α) (xs : List α) : h <+: (make h xs).1 := List.prefix_append _ _

/-! ### Appending -/

/-- The element behind the window is written over with another one. -/
def Overwrites (h : Heap α) (s : Slice) (x : α) : Prop :=
  s.len < s.cap ∧ (s.backing h)[s.offset + s.len]? ≠ some x

theorem getElem?_backing (hs : s.array < h.length) : h[s.array]? = some (s.backing h) := by
  rw [backing, List.getD_eq_getElem?_getD, List.getElem?_eq_getElem hs]
  rfl

theorem set_of_getElem? {β : Type} {l : List β} {i : ℕ} {b : β} (hb : l[i]? = some b) : l.set i b = l := by
  obtain ⟨hlt, rfl⟩ := List.getElem?_eq_some_iff.mp hb
  exact List.set_getElem_self hlt

theorem backing_append (t : Slice) (hs : s.Valid h) (hcap : s.len < s.cap) :
    t.backing (s.append h x).1 = if t.array = s.array then (s.backing h).set (s.offset + s.len) x else t.backing h := by
  rw [append, if_pos hcap, backing, List.getD_eq_getElem?_getD, List.getElem?_set]
  by_cases heq : t.array = s.array
  · simp [heq, hs.array_lt]
  · simp [heq, Ne.symm heq, backing, List.getD_eq_getElem?_getD]

theorem prefix_append_of_full (hcap : ¬ s.len < s.cap) : h <+: (s.append h x).1 := by
  rw [append, if_neg hcap]
  exact prefix_make _ _

theorem prefix_append {h₀ : Heap α} (hp : h₀ <+: h) (hs : h₀.length ≤ s.array) : h₀ <+: (s.append h x).1 := by
  by_cases hcap : s.len < s.cap
  · obtain ⟨l, rfl⟩ := hp
    rw [append, if_pos hcap, List.set_append_right _ _ hs]
    exact List.prefix_append _ _
  · exact hp.trans (prefix_append_of_full hcap)

theorem prefix_append_iff (hs : s.Valid h) : h <+: (s.append h x).1 ↔ ¬ s.Overwrites h x := by
  by_cases hcap : s.len < s.cap
  · constructor
    · rintro hp ⟨-, hne⟩
      have hback := backing_kept hp hs.array_lt
      rw [backing_append s hs hcap, if_pos rfl] at hback
      refine hne ?_
      rw [← hback, List.getElem?_set_self]
      have := hs.cap_le
      omega
    · intro hnot
      have hsame : (s.backing h)[s.offset + s.len]? = some x :=
        Classical.byContradiction fun hne => hnot ⟨hcap, hne⟩
      have happend : (s.append h x).1 = h := by
        rw [append, if_pos hcap, set_of_getElem? hsame, set_of_getElem? (getElem?_backing hs.array_lt)]
      exact happend.symm ▸ List.prefix_refl h
  · exact iff_of_true (prefix_append_of_full hcap) fun h => hcap h.1

/-- What a slice `t` reads changes if and only if the element that is written over is in its window. -/
theorem elems_append_iff (hs : s.Valid h) (ht : t.Valid h) : t.elems (s.append h x).1 = t.elems h ↔
    ¬ (s.Overwrites h x ∧ t.array = s.array ∧ t.offset ≤ s.offset + s.len ∧ s.offset + s.len < t.offset + t.len) := by
  by_cases hcap : s.len < s.cap
  · have hback := backing_append t hs hcap (x := x)
    by_cases harray : t.array = s.array
    · have hsame : t.backing h = s.backing h := by rw [backing, harray, backing]
      rw [if_pos harray] at hback
      have hlt : s.offset + s.len < (s.backing h).length := by
        have := hs.cap_le
        omega
      constructor
      · rintro heq ⟨⟨-, hne⟩, -, hlow, hhigh⟩
        -- the element that is written over, as `t` reads it before and after
        have hread := congrArg (·[s.offset + s.len - t.offset]?) heq
        simp only [getElem?_elems, hback, hsame] at hread
        rw [if_pos (by omega), if_pos (by omega), Nat.add_sub_cancel' hlow, List.getElem?_set_self hlt] at hread
        exact hne hread.symm
      · intro hnot
        refine List.ext_getElem? fun k => ?_
        rw [getElem?_elems, getElem?_elems, hback, hsame, List.getElem?_set]
        by_cases hk : k < t.len
        · by_cases hidx : s.offset + s.len = t.offset + k
          · have hsame : (s.backing h)[s.offset + s.len]? = some x :=
              Classical.byContradiction fun hne => hnot ⟨⟨hcap, hne⟩, harray, by omega, by omega⟩
            rw [if_pos hk, if_pos hk, if_pos hidx, if_pos hlt, ← hidx, hsame]
          · simp [hk, hidx]
        · simp [hk]
    · rw [if_neg harray] at hback
      refine iff_of_true ?_ fun h => harray h.2.1
      rw [elems, hback, elems]
  · refine iff_of_true (elems_kept (prefix_append_of_full hcap) ht.array_lt) fun h => hcap h.1.1

end Slice

end GoWanchain
