import Mathlib.Data.List.Basic

/-!
# Undo journals

A state whose changes are recorded in a journal, newest entry first. `undo e` takes back the
change that `e` recorded, or fails. A snapshot notes the length of the journal; reverting to it
undoes the entries made since and forgets the snapshots taken since.

What a revert restores is told by a relation between states that undoing respects (`Respects`),
indexed by the entries still to be undone, which may remove a difference. `Since` says that
undoing the entries made since an earlier state leads back to a related one.
-/

namespace GoWanchain

open List

/-- A snapshot: its identifier and the length of the journal when it was taken. -/
structure Revision where
  id : ℕ
  journalIndex : ℕ
deriving DecidableEq

structure Journaled (σ ε : Type) where
  state : σ
  journal : List ε
  validRevisions : List Revision
  nextRevisionId : ℕ

namespace Journaled

variable {σ ε : Type}

def snapshot (j : Journaled σ ε) : Journaled σ ε :=
  { j with
    validRevisions := ⟨j.nextRevisionId, j.journal.length⟩ :: j.validRevisions
    nextRevisionId := j.nextRevisionId + 1 }

variable (undo : ε → σ → Option σ)

def undoAll : List ε → σ → Option σ
  | [], s => some s
  | e :: l, s => (undo e s).bind (undoAll l)

/-- Undo the entries above the first `n`. -/
def undoTo (n : ℕ) (j : Journaled σ ε) : Option (Journaled σ ε) :=
  let undone := j.journal.length - n
  (undoAll undo (j.journal.take undone) j.state).map fun s =>
    { j with state := s, journal := j.journal.drop undone }

/-- Identifiers grow, so the search passes the newer ones and stops at `revid` if it is valid. -/
def revertToSnapshot (revid : ℕ) (j : Journaled σ ε) : Option (Journaled σ ε) :=
  match j.validRevisions.dropWhile (fun r => revid < r.id) with
  | [] => none
  | r :: older =>
    if r.id = revid then
      (j.undoTo undo r.journalIndex).map fun j => { j with validRevisions := older }
    else none

/-- The relation is respected by undoing, entry by entry. -/
structure Respects (Rel : List ε → σ → σ → Prop) : Prop where
  refl : ∀ δ s, Rel δ s s
  trans : ∀ {δ s t u}, Rel δ s t → Rel δ t u → Rel δ s u
  undo : ∀ {e δ s s' t}, Rel (e :: δ) s t → undo e s = some s' → ∃ t', undo e t = some t' ∧ Rel δ s' t'

/-- `j` was reached from `b`, with the entries `δ` made on the way, and undoing them leads back. -/
structure Since (Rel : List ε → σ → σ → Prop) (b j : Journaled σ ε) (δ : List ε) : Prop where
  journal : j.journal = δ ++ b.journal
  undone : ∃ u, undoAll undo δ j.state = some u ∧ Rel [] b.state u
  revisions : ∃ ρ, j.validRevisions = ρ ++ b.validRevisions ∧
    ∀ r ∈ ρ, b.nextRevisionId ≤ r.id ∧ b.journal.length ≤ r.journalIndex
  nextRevisionId : b.nextRevisionId ≤ j.nextRevisionId

variable {undo}

theorem undoAll_congr {α : Type} {f : σ → α} (hf : ∀ {e s t}, undo e s = some t → f t = f s) {l : List ε} {s t : σ}
    (h : undoAll undo l s = some t) : f t = f s := by
  induction l generalizing s with
  | nil =>
    cases h
    rfl
  | cons _ _ ih =>
    obtain ⟨u, hu, h⟩ := Option.bind_eq_some_iff.mp h
    exact (ih h).trans (hf hu)

theorem undoAll_append (l l' : List ε) (s : σ) :
    undoAll undo (l ++ l') s = (undoAll undo l s).bind (undoAll undo l') := by
  induction l generalizing s with
  | nil => rfl
  | cons _ _ ih =>
    rw [cons_append, undoAll, undoAll, Option.bind_assoc]
    congr 1
    funext t
    exact ih t

theorem revertToSnapshot_eq {revid : ℕ} {j j' : Journaled σ ε} (h : j.revertToSnapshot undo revid = some j') :
    ∃ newer r older, j.validRevisions = newer ++ r :: older ∧ r.id = revid ∧
      ∃ s, undoAll undo (j.journal.take (j.journal.length - r.journalIndex)) j.state = some s ∧
        j' = ⟨s, j.journal.drop (j.journal.length - r.journalIndex), older, j.nextRevisionId⟩ := by
  unfold revertToSnapshot at h
  have hsplit := takeWhile_append_dropWhile (p := fun r : Revision => decide (revid < r.id)) (l := j.validRevisions)
  cases hd : j.validRevisions.dropWhile (fun r => revid < r.id) with
  | nil => rw [hd] at h; cases h
  | cons r older =>
    rw [hd] at h hsplit
    simp only at h
    by_cases hid : r.id = revid
    · rw [if_pos hid, undoTo, Option.map_map, Option.map_eq_some_iff] at h
      obtain ⟨s, hs, rfl⟩ := h
      exact ⟨_, r, older, hsplit.symm, hid, s, hs, rfl⟩
    · rw [if_neg hid] at h
      cases h

theorem revertToSnapshot_of_getElem {j : Journaled σ ε} {r : Revision} {back : ℕ}
    (hsorted : j.validRevisions.Pairwise fun r r' => r'.id < r.id)
    (hr : j.validRevisions[back]? = some r) : j.revertToSnapshot undo r.id =
      (j.undoTo undo r.journalIndex).map fun j' =>
        { j' with validRevisions := j.validRevisions.drop (back + 1) } := by
  have hdrop : ∀ (l : List Revision) (n : ℕ), l.Pairwise (fun r r' => r'.id < r.id) →
      l[n]? = some r → l.dropWhile (fun r' => r.id < r'.id) = r :: l.drop (n + 1) := by
    intro l
    induction l with
    | nil => intro n _ h; simp at h
    | cons x l ih =>
      intro n hl hn
      obtain ⟨hx, hl⟩ := pairwise_cons.mp hl
      cases n with
      | zero =>
        obtain rfl : x = r := by simpa using hn
        simp
      | succ n =>
        have hn : l[n]? = some r := by simpa using hn
        rw [dropWhile_cons_of_pos (by simpa using hx r (mem_of_getElem? hn)), ih n hl hn]
        simp
  rw [revertToSnapshot, hdrop _ back hsorted hr]
  simp

theorem Since.refl {Rel : List ε → σ → σ → Prop} (hR : Respects undo Rel) (b : Journaled σ ε) :
    Since undo Rel b b [] where
  journal := rfl
  undone := ⟨b.state, rfl, hR.refl [] b.state⟩
  revisions := ⟨[], rfl, by simp⟩
  nextRevisionId := Nat.le_refl _

section Since

variable {Rel : List ε → σ → σ → Prop} {b j j' : Journaled σ ε} {δ : List ε}

theorem Respects.undoAll (hR : Respects undo Rel) {l : List ε} {s s' t : σ} (h : Rel (l ++ δ) s t)
    (hs : Journaled.undoAll undo l s = some s') : ∃ t', Journaled.undoAll undo l t = some t' ∧ Rel δ s' t' := by
  induction l generalizing s t with
  | nil =>
    cases hs
    exact ⟨t, rfl, h⟩
  | cons _ _ ih =>
    obtain ⟨s₁, hs₁, hs⟩ := Option.bind_eq_some_iff.mp hs
    obtain ⟨t₁, ht₁, h₁⟩ := hR.undo h hs₁
    obtain ⟨t', ht', h'⟩ := ih h₁ hs
    exact ⟨t', by rw [Journaled.undoAll, ht₁]; exact ht', h'⟩

theorem Since.record (hR : Respects undo Rel) (h : Since undo Rel b j δ) {e : ε} {u : σ}
    (hjournal : j'.journal = e :: j.journal) (hrev : j'.validRevisions = j.validRevisions)
    (hnext : j'.nextRevisionId = j.nextRevisionId) (hundo : undo e j'.state = some u)
    (hu : Rel δ j.state u) : Since undo Rel b j' (e :: δ) where
  journal := by rw [hjournal, h.journal, cons_append]
  undone := by
    obtain ⟨v, hv, hbv⟩ := h.undone
    obtain ⟨w, hw, hvw⟩ := hR.undoAll (l := δ) (δ := []) (by rwa [append_nil]) hv
    exact ⟨w, by rw [undoAll, hundo]; exact hw, hR.trans hbv hvw⟩
  revisions := by
    rw [hrev]
    exact h.revisions
  nextRevisionId := by
    rw [hnext]
    exact h.nextRevisionId

/-- Two stretches of a run, where the relation does not look at the entries still to be undone. -/
theorem Since.trans (hR : Respects undo Rel) (hindex : ∀ {δ s t}, Rel [] s t → Rel δ s t)
    {k : Journaled σ ε} {δ' : List ε} (h : Since undo Rel b j δ) (h' : Since undo Rel j k δ') :
    Since undo Rel b k (δ' ++ δ) where
  journal := by rw [h'.journal, h.journal, append_assoc]
  undone := by
    obtain ⟨u, hu, hju⟩ := h'.undone
    obtain ⟨v, hv, hbv⟩ := h.undone
    obtain ⟨w, hw, hvw⟩ := hR.undoAll (l := δ) (δ := []) (hindex hju) hv
    exact ⟨w, by rw [undoAll_append, hu]; exact hw, hR.trans hbv hvw⟩
  revisions := by
    obtain ⟨ρ, hρ, hids⟩ := h.revisions
    obtain ⟨ρ', hρ', hids'⟩ := h'.revisions
    refine ⟨ρ' ++ ρ, by rw [hρ', hρ, append_assoc], ?_⟩
    intro r hr
    rcases mem_append.mp hr with hr | hr
    · have hlen : b.journal.length ≤ j.journal.length := by
        rw [h.journal, length_append]
        omega
      exact ⟨Nat.le_trans h.nextRevisionId (hids' r hr).1, Nat.le_trans hlen (hids' r hr).2⟩
    · exact hids r hr
  nextRevisionId := Nat.le_trans h.nextRevisionId h'.nextRevisionId

theorem Since.snapshot (h : Since undo Rel b j δ) : Since undo Rel b j.snapshot δ where
  journal := h.journal
  undone := h.undone
  revisions := by
    obtain ⟨ρ, hρ, hids⟩ := h.revisions
    refine ⟨⟨j.nextRevisionId, j.journal.length⟩ :: ρ, by simp [Journaled.snapshot, hρ], ?_⟩
    intro r hr
    rcases mem_cons.mp hr with rfl | hr
    · refine ⟨h.nextRevisionId, ?_⟩
      simp [h.journal]
    · exact hids r hr
  nextRevisionId := Nat.le_succ_of_le h.nextRevisionId

/-- A revert to a snapshot taken since undoes a part of the entries. -/
theorem Since.revert (h : Since undo Rel b j δ) (hb : ∀ r ∈ b.validRevisions, r.id < b.nextRevisionId)
    {revid : ℕ} (hid : b.nextRevisionId ≤ revid) (hj : j.revertToSnapshot undo revid = some j') :
    ∃ δ₁ δ₂, δ = δ₁ ++ δ₂ ∧ Since undo Rel b j' δ₂ := by
  obtain ⟨newer, r, older, hsplit, rfl, s, hs, rfl⟩ := revertToSnapshot_eq hj
  obtain ⟨ρ, hρ, hids⟩ := h.revisions
  -- the snapshot is among those taken since, for the older ones have smaller identifiers
  have hr : ∃ ρ', ρ = newer ++ r :: ρ' ∧ older = ρ' ++ b.validRevisions := by
    rw [hρ] at hsplit
    rcases append_eq_append_iff.mp hsplit with ⟨l, hnewer, hold⟩ | ⟨l, hnewer, hold⟩
    · exfalso
      have hmem : r ∈ b.validRevisions := by rw [hold]; simp
      exact absurd (hb r hmem) (by omega)
    · cases l with
      | nil =>
        exfalso
        have hmem : r ∈ b.validRevisions := by
          rw [nil_append] at hold
          rw [← hold]
          simp
        exact absurd (hb r hmem) (by omega)
      | cons _ l =>
        obtain ⟨rfl, rfl⟩ := cons.inj hold
        exact ⟨l, hnewer, rfl⟩
  obtain ⟨ρ', rfl, rfl⟩ := hr
  have hindex : b.journal.length ≤ r.journalIndex := (hids r (by simp)).2
  have hle : j.journal.length - r.journalIndex ≤ δ.length := by
    rw [h.journal, length_append]
    omega
  set n := j.journal.length - r.journalIndex
  refine ⟨δ.take n, δ.drop n, (take_append_drop n δ).symm, ?_, ?_, ?_, h.nextRevisionId⟩
  · show j.journal.drop n = δ.drop n ++ b.journal
    rw [h.journal, drop_append_of_le_length hle]
  · obtain ⟨u, hu, hbu⟩ := h.undone
    refine ⟨u, ?_, hbu⟩
    rw [h.journal, take_append_of_le_length hle] at hs
    rw [← take_append_drop n δ, undoAll_append, hs] at hu
    exact hu
  · exact ⟨ρ', rfl, fun r' hr' => hids r' (by simp [hr'])⟩

theorem Since.revert_snapshot (h : Since undo Rel b.snapshot j δ) :
    ∃ u, undoAll undo δ j.state = some u ∧ Rel [] b.state u ∧ j.revertToSnapshot undo b.nextRevisionId =
      some ⟨u, b.journal, b.validRevisions, j.nextRevisionId⟩ := by
  obtain ⟨u, hu, hbu⟩ := h.undone
  obtain ⟨ρ, hρ, hids⟩ := h.revisions
  refine ⟨u, hu, hbu, ?_⟩
  have hdrop : j.validRevisions.dropWhile (fun r => b.nextRevisionId < r.id) =
      ⟨b.nextRevisionId, b.journal.length⟩ :: b.validRevisions := by
    rw [hρ, dropWhile_append_of_pos]
    · simp [Journaled.snapshot]
    · intro r hr
      have := (hids r hr).1
      simp only [Journaled.snapshot] at this
      exact decide_eq_true (by omega)
  have hn : j.journal.length - b.journal.length = δ.length := by
    rw [h.journal]
    simp [Journaled.snapshot]
  have hjournal : j.journal = δ ++ b.journal := h.journal
  rw [revertToSnapshot, hdrop]
  simp only [if_true]
  rw [undoTo]
  simp only [hn]
  rw [hjournal, take_left, drop_left, hu]
  rfl

end Since

end Journaled

end GoWanchain
