import Mathlib.Data.List.Basic
import Mathlib.Tactic

/-!
# Unbalanced binary search trees

Binary search trees over an arbitrary comparison, with the two operations a linked
representation performs on them: the search descent and the insertion of a new key at the place
where the descent falls off the tree. No rebalancing and no deletion.

`Ordered` is the search invariant; `mem_toList_of_find?` and `find?_of_mem_toList` say that under it
the descent finds exactly the stored pairs, and `find?_insert` and `ordered_insert` describe insertion. `descent` is
the list of pairs a search meets, which insertions only extend.
-/

/-- Binary trees carrying a key and a value at every node. -/
inductive SearchTree (κ ν : Type*)
  | nil
  | node (key : κ) (val : ν) (left right : SearchTree κ ν)
  deriving Repr

namespace SearchTree

variable {κ ν : Type*}

/-- The stored pairs, in order. -/
def toList : SearchTree κ ν → List (κ × ν)
  | nil => []
  | node k v l r => l.toList ++ (k, v) :: r.toList

section Search

variable (cmp : κ → κ → Ordering)

/-- The search descent. -/
def find? (x : κ) : SearchTree κ ν → Option ν
  | nil => none
  | node k v l r =>
    match cmp x k with
    | .lt => find? x l
    | .gt => find? x r
    | .eq => some v

/-- Insertion where the descent falls off the tree; a key that is already there keeps its value. -/
def insert (x : κ) (w : ν) : SearchTree κ ν → SearchTree κ ν
  | nil => node x w nil nil
  | node k v l r =>
    match cmp x k with
    | .lt => node k v (insert x w l) r
    | .gt => node k v l (insert x w r)
    | .eq => node k v l r

/-- The pairs the search descent meets, from the root on. -/
def descent (x : κ) : SearchTree κ ν → List (κ × ν)
  | nil => []
  | node k v l r => (k, v) ::
    match cmp x k with
    | .lt => descent x l
    | .gt => descent x r
    | .eq => []

/-- The search invariant: at every node the keys to the left are smaller and those to the right
larger. -/
def Ordered : SearchTree κ ν → Prop
  | nil => True
  | node k _ l r =>
    (∀ p ∈ l.toList, cmp p.1 k = .lt) ∧ (∀ p ∈ r.toList, cmp k p.1 = .lt) ∧
      l.Ordered ∧ r.Ordered

end Search

variable {cmp : κ → κ → Ordering}

theorem mem_toList_of_find? {t : SearchTree κ ν} {x : κ} {v : ν} [Std.LawfulEqCmp cmp]
    (h : t.find? cmp x = some v) : (x, v) ∈ t.toList := by
  induction t with
  | nil => simp [find?] at h
  | node k w l r ihl ihr =>
    simp only [find?] at h
    cases hc : cmp x k with
    | lt => simp only [hc] at h; simp [toList, ihl h]
    | gt => simp only [hc] at h; simp [toList, ihr h]
    | eq =>
      simp only [hc, Option.some.injEq] at h
      simp [toList, Std.LawfulEqCmp.eq_of_compare hc, h]

theorem find?_of_mem_toList [Std.TransCmp cmp] [Std.LawfulEqCmp cmp] {t : SearchTree κ ν}
    (ho : t.Ordered cmp) {x : κ} {v : ν} (h : (x, v) ∈ t.toList) : t.find? cmp x = some v := by
  induction t with
  | nil => simp [toList] at h
  | node k w l r ihl ihr =>
    obtain ⟨hl, hr, hol, hor⟩ := ho
    simp only [toList, List.mem_append, List.mem_cons, Prod.mk.injEq] at h
    simp only [find?]
    rcases h with h | ⟨rfl, rfl⟩ | h
    · have hlt : cmp x k = .lt := hl _ h
      simp only [hlt]
      exact ihl hol h
    · simp only [Std.ReflCmp.compare_self]
    · have hgt : cmp x k = .gt := Std.OrientedCmp.gt_of_lt (hr _ h)
      simp only [hgt]
      exact ihr hor h

/-- Insertion of an absent key adds exactly that pair. -/
theorem mem_toList_insert {t : SearchTree κ ν} {x : κ} {w : ν}
    (hx : t.find? cmp x = none) (p : κ × ν) :
    p ∈ (t.insert cmp x w).toList ↔ p = (x, w) ∨ p ∈ t.toList := by
  induction t with
  | nil => simp [insert, toList]
  | node k v l r ihl ihr =>
    simp only [find?] at hx
    simp only [insert]
    cases hc : cmp x k with
    | lt =>
      simp only [hc] at hx
      simp only [toList, List.mem_append, List.mem_cons, ihl hx]
      tauto
    | gt =>
      simp only [hc] at hx
      simp only [toList, List.mem_append, List.mem_cons, ihr hx]
      tauto
    | eq => simp [hc] at hx

/-- Insertion keeps the search invariant. -/
theorem ordered_insert [Std.OrientedCmp cmp] {t : SearchTree κ ν} (ho : t.Ordered cmp) {x : κ}
    {w : ν} (hx : t.find? cmp x = none) : (t.insert cmp x w).Ordered cmp := by
  induction t with
  | nil => simp [insert, Ordered, toList]
  | node k v l r ihl ihr =>
    obtain ⟨hl, hr, hol, hor⟩ := ho
    simp only [find?] at hx
    simp only [insert]
    cases hc : cmp x k with
    | lt =>
      simp only [hc] at hx
      refine ⟨fun p hp => ?_, hr, ihl hol hx, hor⟩
      rcases (mem_toList_insert hx p).mp hp with rfl | hp
      · exact hc
      · exact hl p hp
    | gt =>
      simp only [hc] at hx
      refine ⟨hl, fun p hp => ?_, hol, ihr hor hx⟩
      rcases (mem_toList_insert hx p).mp hp with rfl | hp
      · exact Std.OrientedCmp.lt_of_gt hc
      · exact hr p hp
    | eq => simp [hc] at hx

theorem find?_insert_self [Std.ReflCmp cmp] {t : SearchTree κ ν} {x : κ} {w : ν}
    (hx : t.find? cmp x = none) : (t.insert cmp x w).find? cmp x = some w := by
  induction t with
  | nil => simp only [insert, find?, Std.ReflCmp.compare_self]
  | node k v l r ihl ihr =>
    simp only [find?] at hx
    simp only [insert]
    cases hc : cmp x k with
    | lt => simp only [hc] at hx; simp only [find?, hc, ihl hx]
    | gt => simp only [hc] at hx; simp only [find?, hc, ihr hx]
    | eq => simp [hc] at hx

/-! ### Descents -/

theorem mem_toList_of_mem_descent {t : SearchTree κ ν} {x : κ} {p : κ × ν}
    (h : p ∈ t.descent cmp x) : p ∈ t.toList := by
  induction t with
  | nil => simp [descent] at h
  | node k v l r ihl ihr =>
    simp only [descent, List.mem_cons] at h
    simp only [toList, List.mem_append, List.mem_cons]
    rcases h with rfl | h
    · exact .inr (.inl rfl)
    · cases hc : cmp x k with
      | lt => simp only [hc] at h; exact .inl (ihl h)
      | gt => simp only [hc] at h; exact .inr (.inr (ihr h))
      | eq => simp [hc] at h

/-- A search succeeds exactly where the descent meets its key. -/
theorem find?_eq_some_iff_mem_descent [Std.LawfulEqCmp cmp] {t : SearchTree κ ν}
    {x : κ} {v : ν} : t.find? cmp x = some v ↔ (x, v) ∈ t.descent cmp x := by
  induction t with
  | nil => simp [find?, descent]
  | node k w l r ihl ihr =>
    simp only [find?, descent, List.mem_cons, Prod.mk.injEq]
    have hne : cmp x k ≠ .eq → x ≠ k := by
      rintro hc rfl
      exact hc Std.ReflCmp.compare_self
    cases hc : cmp x k with
    | lt => simpa [hne (by simp [hc])] using ihl
    | gt => simpa [hne (by simp [hc])] using ihr
    | eq => simp [Std.LawfulEqCmp.eq_of_compare hc, eq_comm]

/-! ### Growth

Insertion happens where a descent falls off the tree, so it makes descents longer and changes nothing
they have met before. -/

theorem descent_prefix_insert (t : SearchTree κ ν) (x y : κ) (w : ν) :
    t.descent cmp x <+: (t.insert cmp y w).descent cmp x := by
  induction t with
  | nil => exact List.nil_prefix
  | node k v l r ihl ihr =>
    simp only [insert]
    cases cmp y k with
    | lt =>
      simp only [descent]
      refine List.cons_prefix_cons.mpr ⟨rfl, ?_⟩
      cases cmp x k with
      | lt => exact ihl
      | gt => exact List.prefix_rfl
      | eq => exact List.prefix_rfl
    | gt =>
      simp only [descent]
      refine List.cons_prefix_cons.mpr ⟨rfl, ?_⟩
      cases cmp x k with
      | lt => exact List.prefix_rfl
      | gt => exact ihr
      | eq => exact List.prefix_rfl
    | eq => exact List.prefix_rfl

end SearchTree
