import Mathlib.Tactic

/-!
# Binary search over a probe

Binary search in the form low-level code has it: the window `[lo, hi)` is narrowed by a probe that
compares the element at an index with the needle. The probe may have effects (it may log, or record that
what it read is damaged), so the search is stated over an arbitrary monad.

When the probe is effect-free and compares the elements of a strictly sorted list, the search is
effect-free too and decides membership (`find_sorted`).
-/

namespace BinarySearch

section Search

variable {m : Type → Type} [Monad m]

/-- The loop over the window `[lo, hi)`. The window shrinks at every probe, so its initial length
is enough fuel. -/
def findLoop (f : ℕ → m Ordering) : ℕ → ℕ → ℕ → m (Option ℕ)
  | 0, _, _ => pure none
  | fuel + 1, lo, hi =>
    if lo < hi then do
      let mid := lo + (hi - lo) / 2
      match ← f mid with
      | .eq => pure (some mid)
      | .lt => findLoop f fuel (mid + 1) hi
      | .gt => findLoop f fuel lo mid
    else pure none

/-- Search the indices below `len`. -/
def find (len : ℕ) (f : ℕ → m Ordering) : m (Option ℕ) := findLoop f len 0 len

end Search

section Sorted

variable {m : Type → Type} [Monad m] [LawfulMonad m]
variable {α : Type} {cmp : α → α → Ordering} [Std.TransCmp cmp]
variable {l : List α} {x : α} {f : ℕ → m Ordering}

/-- Left of an element that is too small, everything is too small. -/
theorem cmp_lt_of_le (hs : l.Pairwise fun a b => cmp a b = .lt) {i j : ℕ} (hj : j < l.length)
    (hij : i ≤ j) (h : cmp l[j] x = .lt) : cmp l[i] x = .lt := by
  rcases Nat.lt_or_eq_of_le hij with hlt | rfl
  · exact Std.TransCmp.lt_trans (List.pairwise_iff_getElem.mp hs i j (by omega) hj hlt) h
  · exact h

/-- Right of an element that is too large, everything is too large. -/
theorem cmp_gt_of_le (hs : l.Pairwise fun a b => cmp a b = .lt) {i j : ℕ} (hj : j < l.length)
    (hij : i ≤ j) (h : cmp l[i] x = .gt) : cmp l[j] x = .gt := by
  rcases Nat.lt_or_eq_of_le hij with hlt | rfl
  · have hlt' := List.pairwise_iff_getElem.mp hs i j (by omega) hj hlt
    exact Std.OrientedCmp.gt_of_lt
      (Std.TransCmp.lt_trans (Std.OrientedCmp.lt_of_gt h) hlt')
  · exact h

variable [Std.LawfulEqCmp cmp]

/-- The loop, from a window outside of which the needle cannot be. -/
theorem findLoop_sorted (hs : l.Pairwise fun a b => cmp a b = .lt)
    (hf : ∀ i (h : i < l.length), f i = pure (cmp l[i] x)) :
    ∀ (fuel lo hi : ℕ), hi - lo ≤ fuel → hi ≤ l.length →
      (∀ i (h : i < l.length), i < lo → cmp l[i] x = .lt) →
      (∀ i (h : i < l.length), hi ≤ i → cmp l[i] x = .gt) →
      ∃ r, findLoop f fuel lo hi = pure r ∧ (∀ i, r = some i → l[i]? = some x) ∧
        (r = none → x ∉ l) := by
  -- an empty window leaves no place for the needle
  have hempty : ∀ lo hi : ℕ, hi ≤ lo →
      (∀ i (h : i < l.length), i < lo → cmp l[i] x = .lt) →
      (∀ i (h : i < l.length), hi ≤ i → cmp l[i] x = .gt) → x ∉ l := by
    intro lo hi hle hlo hhi hx
    obtain ⟨i, hi', rfl⟩ := List.mem_iff_getElem.mp hx
    have hself : cmp l[i] l[i] = .eq := Std.ReflCmp.compare_self
    rcases Nat.lt_or_ge i lo with h | h
    · rw [hlo i hi' h] at hself
      cases hself
    · rw [hhi i hi' (by omega)] at hself
      cases hself
  intro fuel
  induction fuel with
  | zero =>
    intro lo hi hfuel _ hlo hhi
    exact ⟨none, rfl, by simp, fun _ => hempty lo hi (by omega) hlo hhi⟩
  | succ fuel ih =>
    intro lo hi hfuel hlen hlo hhi
    rw [findLoop]
    split_ifs with hlt
    · have hmid : lo + (hi - lo) / 2 < l.length := by omega
      dsimp only
      rw [hf _ hmid, pure_bind]
      cases hc : cmp l[lo + (hi - lo) / 2] x with
      | eq =>
        refine ⟨some _, rfl, fun i hi' => ?_, by simp⟩
        cases hi'
        rw [List.getElem?_eq_getElem hmid, Std.LawfulEqCmp.eq_of_compare hc]
      | lt =>
        refine ih _ _ (by omega) hlen (fun i h hi' => ?_) hhi
        exact cmp_lt_of_le hs hmid (by omega) hc
      | gt =>
        refine ih _ _ (by omega) (by omega) hlo fun i h hi' => ?_
        exact cmp_gt_of_le hs h hi' hc
    · exact ⟨none, rfl, by simp, fun _ => hempty lo hi (by omega) hlo hhi⟩

/-- **Binary search on a strictly sorted list** has no effect beyond the probe's and finds the
needle exactly when it is there. -/
theorem find_sorted (hs : l.Pairwise fun a b => cmp a b = .lt)
    (hf : ∀ i (h : i < l.length), f i = pure (cmp l[i] x)) :
    ∃ r, find l.length f = pure r ∧ (∀ i, r = some i → l[i]? = some x) ∧ (r = none → x ∉ l) :=
  findLoop_sorted hs hf _ _ _ (by omega) le_rfl (by simp) fun i h hi => by omega

end Sorted

end BinarySearch
