import Mathlib.Data.List.Basic

/-!
# Tables that are written and erased in bulk

A table is a partial function. `writeAll` writes a list of entries, `eraseAll` erases a list of keys, and
`Records f P` says that the entries of the table are the pairs of the relation `P`.
-/

namespace GoWanchain.Table

variable {κ ν : Type} [DecidableEq κ]

def writeAll (f : κ → Option ν) (es : List (κ × ν)) : κ → Option ν :=
  es.foldl (fun f e => Function.update f e.1 (some e.2)) f

def eraseAll (f : κ → Option ν) (ks : List κ) : κ → Option ν := ks.foldl (fun f k => Function.update f k none) f

/-- The entries of the table are the pairs of the relation. -/
def Records (f : κ → Option ν) (P : κ → ν → Prop) : Prop := ∀ k v, f k = some v ↔ P k v

variable {f : κ → Option ν} {es : List (κ × ν)} {ks : List κ} {k : κ} {v : ν}

theorem writeAll_of_not_mem (hk : ∀ v, (k, v) ∉ es) : writeAll f es k = f k := by
  induction es generalizing f with
  | nil => rfl
  | cons e _ ih =>
    have hne : k ≠ e.1 := by
      rintro rfl
      exact hk e.2 List.mem_cons_self
    rw [writeAll, List.foldl_cons]
    refine (ih fun v hv => hk v (List.mem_cons_of_mem _ hv)).trans ?_
    rw [Function.update_of_ne hne]

theorem writeAll_of_mem (hmem : (k, v) ∈ es) (honly : ∀ v', (k, v') ∈ es → v' = v) : writeAll f es k = some v := by
  induction es generalizing f with
  | nil => cases hmem
  | cons e es ih =>
    rw [writeAll, List.foldl_cons]
    by_cases hlater : (k, v) ∈ es
    · exact ih hlater fun v' hv' => honly v' (List.mem_cons_of_mem _ hv')
    · obtain rfl : (k, v) = e := (List.mem_cons.mp hmem).resolve_right hlater
      refine (writeAll_of_not_mem fun v' hv' => ?_).trans (Function.update_self ..)
      obtain rfl := honly v' (List.mem_cons_of_mem _ hv')
      exact hlater hv'

theorem writeAll_eq_self (h : ∀ e ∈ es, f e.1 = some e.2) : writeAll f es = f := by
  induction es with
  | nil => rfl
  | cons e _ ih =>
    rw [writeAll, List.foldl_cons, ← h e List.mem_cons_self, Function.update_eq_self]
    exact ih fun e' he' => h e' (List.mem_cons_of_mem _ he')

theorem eraseAll_apply (f : κ → Option ν) (ks : List κ) (k : κ) : eraseAll f ks k = if k ∈ ks then none else f k := by
  induction ks generalizing f with
  | nil => rfl
  | cons k' _ ih =>
    rw [eraseAll, List.foldl_cons]
    refine (ih _).trans ?_
    by_cases hk : k = k'
    · subst hk
      simp
    · simp [hk]

theorem Records.exchange {old new : List (κ × ν)} {Kept : κ → ν → Prop}
    (h : Records f fun k v => (k, v) ∈ old ∨ Kept k v) (hapart : ∀ k v, (k, v) ∈ old → ¬ Kept k v)
    (honce : ∀ k v v', (k, v) ∈ new ∨ Kept k v → (k, v') ∈ new ∨ Kept k v' → v = v')
    (hks : ∀ k, k ∈ ks ↔ (∃ v, (k, v) ∈ old) ∧ ∀ v, (k, v) ∉ new) :
    Records (eraseAll (writeAll f new) ks) fun k v => (k, v) ∈ new ∨ Kept k v := by
  intro k v
  show eraseAll (writeAll f new) ks k = some v ↔ (k, v) ∈ new ∨ Kept k v
  rw [eraseAll_apply]
  by_cases hmem : ∃ v, (k, v) ∈ new
  · obtain ⟨w, hw⟩ := hmem
    rw [if_neg fun hk => ((hks k).mp hk).2 w hw,
      writeAll_of_mem hw fun v' hv' => honce k v' w (.inl hv') (.inl hw), Option.some.injEq]
    constructor
    · rintro rfl
      exact .inl hw
    · exact honce k w v (.inl hw)
  · have hnone : ∀ v, (k, v) ∉ new := fun v hv => hmem ⟨v, hv⟩
    rw [writeAll_of_not_mem hnone, or_iff_right (hnone v)]
    split_ifs with hk
    · obtain ⟨w, hw⟩ := ((hks k).mp hk).1
      refine iff_of_false (by simp) fun hkept => ?_
      -- the key has one entry, and that is an old one
      have heq := ((h k w).mpr (.inl hw)).symm.trans ((h k v).mpr (.inr hkept))
      obtain rfl := Option.some.inj heq
      exact hapart k w hw hkept
    · rw [h k v]
      exact or_iff_right fun hv => hk ((hks k).mpr ⟨⟨v, hv⟩, hnone⟩)

end GoWanchain.Table
