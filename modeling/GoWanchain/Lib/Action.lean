import Mathlib.Logic.Basic

/-!
# Computations that change a state and may fail

`EStateM ε σ` is the monad of computations on a state `σ` that end with a value or with an error `ε`; what was done
to the state before an error stays. `check` is one check of such a computation. The first lemmas run one step, and
`bind_eq_ok` takes a successful run apart. How a run ends is decidable where it can be evaluated.
-/

namespace GoWanchain.Action

variable {ε σ α β : Type}

/-- Fail with `err` unless `p` holds. -/
def check (p : Prop) [Decidable p] (err : ε) : EStateM ε σ Unit := if p then pure () else throw err

/-- A computation that reads the state only. -/
def lift (f : σ → Except ε α) : EStateM ε σ α := fun s =>
  match f s with
  | .ok a => .ok a s
  | .error err => .error err s

/-- The state in which a run ends, with a value or with an error. -/
def final : EStateM.Result ε σ α → σ
  | .ok _ s => s
  | .error _ s => s

/-! ### Running one step -/

section Steps

variable (s : σ)

theorem check_bind (p : Prop) [Decidable p] (err : ε) (f : Unit → EStateM ε σ β) :
    (check p err >>= f) s = if p then f () s else .error err s := by
  unfold check
  by_cases h : p
  · simp [h]
  · rw [if_neg h, if_neg h]
    rfl

theorem lift_bind (g : σ → Except ε α) (f : α → EStateM ε σ β) : (lift g >>= f) s = match g s with
    | .ok a => f a s
    | .error err => .error err s := by
  show EStateM.bind (lift g) f s = _
  unfold EStateM.bind lift
  cases g s <;> rfl

theorem modify_bind (g : σ → σ) (f : PUnit → EStateM ε σ β) :
    ((modify g : EStateM ε σ PUnit) >>= f) s = f ⟨⟩ (g s) := rfl

theorem get_bind (f : σ → EStateM ε σ β) : ((get : EStateM ε σ σ) >>= f) s = f s s := rfl

theorem modify_run (g : σ → σ) : (modify g : EStateM ε σ PUnit) s = .ok ⟨⟩ (g s) := rfl

theorem pure_run (a : α) : (pure a : EStateM ε σ α) s = .ok a s := rfl

theorem bind_of_ok {x : EStateM ε σ α} {s t : σ} {a : α} (h : x s = .ok a t) (f : α → EStateM ε σ β) :
    (x >>= f) s = f a t := by
  show EStateM.bind x f s = _
  rw [EStateM.bind, h]

theorem bind_of_error {x : EStateM ε σ α} {s t : σ} {err : ε} (h : x s = .error err t)
    (f : α → EStateM ε σ β) : (x >>= f) s = .error err t := by
  show EStateM.bind x f s = _
  rw [EStateM.bind, h]

end Steps

theorem bind_eq_ok {x : EStateM ε σ α} {f : α → EStateM ε σ β} {s t : σ} {b : β} :
    (x >>= f) s = .ok b t ↔ ∃ a u, x s = .ok a u ∧ f a u = .ok b t := by
  show EStateM.bind x f s = _ ↔ _
  rw [EStateM.bind]
  cases x s with
  | ok a u =>
    constructor
    · exact fun h => ⟨a, u, rfl, h⟩
    · rintro ⟨a', u', heq, h⟩
      cases heq
      exact h
  | error => simp

/-! ### Evaluating a run -/

instance decidableOk (r : EStateM.Result ε σ α) (P : α → σ → Prop) [∀ a s, Decidable (P a s)] :
    Decidable (∃ a s, r = .ok a s ∧ P a s) :=
  match r with
  | .ok a s => decidable_of_iff (P a s) ⟨fun h => ⟨a, s, rfl, h⟩, fun ⟨_, _, heq, h⟩ => by cases heq; exact h⟩
  | .error _ _ => .isFalse (by simp)

instance decidableError [DecidableEq ε] (r : EStateM.Result ε σ α) (err : ε) : Decidable (∃ s, r = .error err s) :=
  match r with
  | .ok _ _ => .isFalse (by simp)
  | .error e _ => decidable_of_iff (e = err) (by simp)

end GoWanchain.Action
