import Mathlib.Tactic

/-!
# Fallible state passing

Rewriting rules for `EStateM`, the monad of fallible operations whose state survives a failure: how
a sequence runs once the outcome of its first step is known, and the inversion of a successful
sequence. The same two rules for `Except`.
-/

namespace StateExcept

variable {ε σ α β : Type}

theorem bind_ok {x : EStateM ε σ α} {f : α → EStateM ε σ β} {s s' : σ} {a : α}
    (h : x s = .ok a s') : (x >>= f) s = f a s' := by
  simp only [bind, EStateM.bind, h]

theorem bind_error {x : EStateM ε σ α} {f : α → EStateM ε σ β} {s s' : σ} {e : ε}
    (h : x s = .error e s') : (x >>= f) s = .error e s' := by
  simp only [bind, EStateM.bind, h]

/-- A sequence succeeds exactly when both of its steps do. -/
theorem bind_eq_ok {x : EStateM ε σ α} {f : α → EStateM ε σ β} {s s' : σ} {b : β} :
    (x >>= f) s = .ok b s' ↔ ∃ a t, x s = .ok a t ∧ f a t = .ok b s' := by
  cases h : x s with
  | ok a t => simp [bind, EStateM.bind, h]
  | error e t => simp [bind, EStateM.bind, h]

theorem pure_run (a : α) (s : σ) : (pure a : EStateM ε σ α) s = .ok a s := rfl

theorem throw_run (e : ε) (s : σ) : (throw e : EStateM ε σ α) s = .error e s := rfl

theorem get_run (s : σ) : (get : EStateM ε σ σ) s = .ok s s := rfl

theorem except_bind_ok {x : Except ε α} {f : α → Except ε β} {a : α} (h : x = .ok a) :
    (x >>= f) = f a := by
  simp only [bind, Except.bind, h]

theorem except_bind_error {x : Except ε α} {f : α → Except ε β} {e : ε} (h : x = .error e) :
    (x >>= f) = .error e := by
  simp only [bind, Except.bind, h]

theorem except_bind_eq_ok {x : Except ε α} {f : α → Except ε β} {b : β} :
    (x >>= f) = .ok b ↔ ∃ a, x = .ok a ∧ f a = .ok b := by
  cases h : x with
  | ok a => simp [bind, Except.bind]
  | error e => simp [bind, Except.bind]

end StateExcept
