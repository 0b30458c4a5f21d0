import Mathlib.Logic.Function.Basic
import Mathlib.Tactic

/-!
# Reader–writer locks

The holders of a lock as a function: `some .read` for one of its readers, `some .write` for its writer.
A lock is granted to a reader while there is no writer, and to a writer while nobody holds it. So the
writer is always the only holder (`Exclusive`), whoever acquires and releases.
-/

namespace RwLock

variable {ι : Type*}

inductive Mode
  | read
  | write
  deriving DecidableEq

/-- The lock is granted in a mode. -/
def Granted (holder : ι → Option Mode) : Mode → Prop
  | .read => ∀ i, holder i ≠ some .write
  | .write => ∀ i, holder i = none

/-- Where there is a writer, there is no other holder. -/
def Exclusive (holder : ι → Option Mode) : Prop :=
  ∀ i, holder i = some .write → ∀ j, j ≠ i → holder j = none

variable {holder : ι → Option Mode} {i j : ι}

theorem exclusive_of_free (h : ∀ i, holder i = none) : Exclusive holder := by
  intro i hi
  rw [h i] at hi
  cases hi

variable [DecidableEq ι]

theorem Exclusive.release (h : Exclusive holder) : Exclusive (Function.update holder i none) := by
  intro j hj k hk
  rw [Function.update_apply] at hj ⊢
  split_ifs at hj
  split_ifs
  · rfl
  · exact h j hj k hk

theorem Granted.exclusive {mode : Mode} (h : Granted holder mode) :
    Exclusive (Function.update holder i (some mode)) := by
  intro j hj k hk
  cases mode with
  | read =>
    -- there is no writer, neither old nor new
    rw [Function.update_apply] at hj
    split_ifs at hj
    · cases hj
    · exact absurd hj (h j)
  | write =>
    have hji : j = i := by
      by_contra hne
      rw [Function.update_of_ne hne, h j] at hj
      cases hj
    rw [Function.update_of_ne (hji ▸ hk)]
    exact h k

/-- **Whoever moves**: a holder that releases the lock, keeps it, or is granted it. -/
theorem Exclusive.update (h : Exclusive holder) {m : Option Mode}
    (hm : ∀ mode, m = some mode → holder i = m ∨ Granted holder mode) :
    Exclusive (Function.update holder i m) := by
  cases m with
  | none => exact h.release
  | some mode =>
    rcases hm mode rfl with hi | hg
    · rwa [← hi, Function.update_eq_self]
    · exact hg.exclusive

end RwLock
