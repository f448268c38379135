import Mathlib.Data.List.Induction

/-!
# Runs of a deterministic machine

A machine is a step function `step : σ → ι → σ`; a run is the fold of `step` over the list of inputs it was
given. `Along Q s l` says that every input of the run meets `Q` in the state it is given to, `Sometime Q s
l` that some input did. `Along.invariant` is the rule of all safety proofs: what one step preserves under
`Q` holds after every run along which `Q` holds;
-/

namespace GoWanchain.Run

variable {σ ι : Type} (step : σ → ι → σ)

abbrev run (s : σ) (l : List ι) : σ := l.foldl step s

/-- Every input meets `Q` in the state it is given to. -/
def Along (Q : σ → ι → Prop) : σ → List ι → Prop
  | _, [] => True
  | s, x :: l => Q s x ∧ Along Q (step s x) l

/-- Some input met `Q` in the state it was given to. -/
def Sometime (Q : σ → ι → Prop) : σ → List ι → Prop
  | _, [] => False
  | s, x :: l => Q s x ∨ Sometime Q (step s x) l

variable {step} {Q : σ → ι → Prop}

instance decidableAlong [∀ s x, Decidable (Q s x)] : ∀ (s : σ) (l : List ι), Decidable (Along step Q s l)
  | _, [] => inferInstanceAs (Decidable True)
  | s, x :: l =>
    have := decidableAlong (step s x) l
    inferInstanceAs (Decidable (Q s x ∧ Along step Q (step s x) l))

instance decidableSometime [∀ s x, Decidable (Q s x)] : ∀ (s : σ) (l : List ι), Decidable (Sometime step Q s l)
  | _, [] => inferInstanceAs (Decidable False)
  | s, x :: l =>
    have := decidableSometime (step s x) l
    inferInstanceAs (Decidable (Q s x ∨ Sometime step Q (step s x) l))

theorem run_concat (s : σ) (l : List ι) (x : ι) : run step s (l ++ [x]) = step (run step s l) x := by
  simp [run, List.foldl_append]

theorem along_concat {s : σ} {l : List ι} {x : ι} :
    Along step Q s (l ++ [x]) ↔ Along step Q s l ∧ Q (run step s l) x := by
  induction l generalizing s with
  | nil => simp [Along]
  | cons _ _ ih => simp [Along, ih, and_assoc]

theorem sometime_concat {s : σ} {l : List ι} {x : ι} :
    Sometime step Q s (l ++ [x]) ↔ Sometime step Q s l ∨ Q (run step s l) x := by
  induction l generalizing s with
  | nil => simp [Sometime]
  | cons _ _ ih => simp [Sometime, ih, or_assoc]

theorem along_map {κ : Type} (g : κ → ι) {s : σ} {l : List κ} :
    Along step Q s (l.map g) ↔ Along (fun s x => step s (g x)) (fun s x => Q s (g x)) s l := by
  induction l generalizing s with
  | nil => exact Iff.rfl
  | cons _ _ ih => simp [Along, ih]

theorem Along.imp {I : σ → Prop} {Q' : σ → ι → Prop} (hstep : ∀ s x, I s → Q s x → I (step s x))
    (hQ : ∀ s x, I s → Q s x → Q' s x) {s : σ} {l : List ι} (h : Along step Q s l) (hs : I s) : Along step Q' s l := by
  induction l generalizing s with
  | nil => trivial
  | cons x _ ih => exact ⟨hQ s x hs h.1, ih h.2 (hstep s x hs h.1)⟩

theorem Along.mono {Q' : σ → ι → Prop} (hQ : ∀ s x, Q s x → Q' s x) {s : σ} {l : List ι}
    (h : Along step Q s l) : Along step Q' s l := by
  induction l generalizing s with
  | nil => trivial
  | cons x _ ih => exact ⟨hQ s x h.1, ih h.2⟩

theorem along_of_forall (hQ : ∀ s x, Q s x) (s : σ) (l : List ι) : Along step Q s l := by
  induction l generalizing s with
  | nil => trivial
  | cons x _ ih => exact ⟨hQ s x, ih _⟩

/-- What holds at the start and is preserved by every step along the run holds at its end. -/
theorem Along.invariant {I : σ → Prop} (hstep : ∀ s x, I s → Q s x → I (step s x)) {s : σ}
    {l : List ι} (h : Along step Q s l) (hs : I s) : I (run step s l) := by
  induction l generalizing s with
  | nil => exact hs
  | cons x _ ih => exact ih h.2 (hstep s x hs h.1)

/-- A run stays in `P` exactly if all its inputs meet the condition `R` under which a step does. -/
theorem Along.stays_iff {I P : σ → Prop} {R : σ → ι → Prop} (hstep : ∀ s x, I s → Q s x → I (step s x))
    (hP : ∀ s x, I s → P s → Q s x → (P (step s x) ↔ R s x)) {s : σ} {l : List ι} (h : Along step Q s l)
    (hI : I s) (hs : P s) : Along step (fun s x => P (step s x)) s l ↔ Along step R s l := by
  induction l generalizing s with
  | nil => exact Iff.rfl
  | cons x _ ih =>
    have hhead := hP s x hI hs h.1
    constructor
    · rintro ⟨hx, hl⟩
      exact ⟨hhead.mp hx, (ih h.2 (hstep s x hI h.1) hx).mp hl⟩
    · rintro ⟨hx, hl⟩
      exact ⟨hhead.mpr hx, (ih h.2 (hstep s x hI h.1) (hhead.mpr hx)).mpr hl⟩

theorem Along.history {s : σ} {I : List ι → σ → Prop} (hnil : I [] s)
    (hstep : ∀ l x, I l (run step s l) → Along step Q s l → Q (run step s l) x → I (l ++ [x]) (step (run step s l) x))
    {l : List ι} (h : Along step Q s l) : I l (run step s l) := by
  induction l using List.reverseRecOn with
  | nil => exact hnil
  | append_singleton l x ih =>
    obtain ⟨hl, hx⟩ := along_concat.mp h
    rw [run_concat]
    exact hstep l x (ih hl) hl hx

end GoWanchain.Run
