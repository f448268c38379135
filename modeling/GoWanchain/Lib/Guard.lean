import Mathlib.Logic.Basic

/-!
# Checks that end a computation

A function that checks its input step by step is a chain of binds in `Except`: `ensure` is one check, `need` takes
the value of an option, `relabel` is a step whose errors are reported as others. The lemmas take a
successful run of such a chain apart.
-/

namespace GoWanchain

variable {ε ε' α β : Type}

/-- Fail with `err` unless `p` holds. -/
def ensure (p : Prop) [Decidable p] (err : ε) : Except ε Unit := if p then .ok () else .error err

/-- Fail with `err` unless there is a value. -/
def need (x : Option α) (err : ε) : Except ε α := x.elim (.error err) .ok

/-- The same computation, with its errors named by `f`. -/
def relabel (f : ε → ε') : Except ε α → Except ε' α
  | .ok a => .ok a
  | .error err => .error (f err)

@[simp] theorem ensure_eq_ok {p : Prop} [Decidable p] {err : ε} {u : Unit} : ensure p err = .ok u ↔ p := by
  unfold ensure
  split <;> simp_all

@[simp] theorem need_eq_ok {x : Option α} {err : ε} {a : α} : need x err = .ok a ↔ x = some a := by
  cases x <;> simp [need]

@[simp] theorem relabel_eq_ok {f : ε → ε'} {x : Except ε α} {a : α} : relabel f x = .ok a ↔ x = .ok a := by
  cases x <;> simp [relabel]

@[simp] theorem bind_eq_ok {x : Except ε α} {f : α → Except ε β} {b : β} :
    (x >>= f) = .ok b ↔ ∃ a, x = .ok a ∧ f a = .ok b := by
  cases x with
  | error | ok => simp [bind, Except.bind]

@[simp] theorem pure_eq_ok {a b : α} : (pure a : Except ε α) = .ok b ↔ a = b := by
  simp [pure, Except.pure]

theorem ok_bind (a : α) (f : α → Except ε β) : (Except.ok a >>= f) = f a := rfl

theorem need_some (a : α) (err : ε) : need (some a) err = .ok a := rfl

theorem mapM_map_of_forall {f : β → Option α} {g : α → β} {l : List α} (h : ∀ a ∈ l, f (g a) = some a) :
    (l.map g).mapM f = some l := by
  induction l with
  | nil => rfl
  | cons a _ ih =>
    rw [List.map_cons, List.mapM_cons, h a (by simp), ih fun b hb => h b (List.mem_cons_of_mem a hb)]
    rfl

/-! ### Errors that are not returned -/

theorem bind_ne_error {x : Except ε α} {f : α → Except ε β} {e : ε} (hx : x ≠ .error e)
    (hf : ∀ a, f a ≠ .error e) : (x >>= f) ≠ .error e := by
  cases x with
  | error => simpa [bind, Except.bind] using hx
  | ok a => exact hf a

theorem ensure_ne_error {p : Prop} [Decidable p] {err e : ε} (h : err ≠ e) : ensure p err ≠ .error e := by
  unfold ensure
  split <;> simp [h]

theorem need_ne_error {x : Option α} {err e : ε} (h : err ≠ e) : need x err ≠ .error e := by
  cases x <;> simp [need, h]

theorem pure_ne_error (a : α) (e : ε) : (pure a : Except ε α) ≠ .error e := by simp [pure, Except.pure]

theorem foldlM_ne_error {f : β → α → Except ε β} {e : ε} (hf : ∀ b a, f b a ≠ .error e) (l : List α) (b : β) :
    l.foldlM f b ≠ .error e := by
  induction l generalizing b with
  | nil => exact pure_ne_error b e
  | cons a _ ih =>
    rw [List.foldlM_cons]
    exact bind_ne_error (hf b a) ih

theorem relabel_ne_error {f : ε → ε'} {x : Except ε α} {e : ε'} (h : ∀ err, f err ≠ e) : relabel f x ≠ .error e := by
  cases x <;> simp [relabel, h]

/-! ### Checks on a state -/

variable {σ : Type}

/-- The next step of a computation on a state, which stays as it is when the computation fails. -/
def thread (r : Except ε α × σ) (f : α → σ → Except ε β × σ) : Except ε β × σ :=
  match r with
  | (.error err, s) => (.error err, s)
  | (.ok a, s) => f a s

@[simp] theorem thread_error (err : ε) (s : σ) (f : α → σ → Except ε β × σ) :
    thread (.error err, s) f = (.error err, s) := rfl

@[simp] theorem thread_ok (a : α) (s : σ) (f : α → σ → Except ε β × σ) : thread (.ok a, s) f = f a s := rfl

end GoWanchain
