import RsProperties.PropertyArea.Refinement

/-!
# The representation invariant of the area file

What a reader of the mapped file can rely on, stated over its bytes. `RepInv pa objs` says that the
objects `objs` fill the allocated space, that the `left`, `right` and `children` links form a tree
over the nodes among them, that sibling trees are search trees, and that every `prop` link leads to
an entry of its own that carries the node's dotted path and has a proper header. Sibling
trees and paths are read off the links themselves (`Sibling`, `NodePath`).

`AreaInv.repInv` derives all of it from the writers' invariant, so it holds in every state of every
run.
-/

namespace RsProperties

open ByteMem PropertyAreaMap

section Definitions

variable (m : Mem)

/-- The node `k` is in the sibling tree whose root is at `r`. -/
inductive Sibling : ℕ → ℕ → Prop
  | here {r : ℕ} (hr : r ≠ 0) : Sibling r r
  | left {r k : ℕ} (hr : r ≠ 0) (h : Sibling (linkAt m r .left) k) : Sibling r k
  | right {r k : ℕ} (hr : r ≠ 0) (h : Sibling (linkAt m r .right) k) : Sibling r k

/-- The node at `n` is reached from the root through the segments. -/
inductive NodePath : ℕ → List Bytes → Prop
  | root : NodePath 0 []
  | child {n k : ℕ} {p : List Bytes} {seg : Bytes} (h : NodePath n p)
      (hk : Sibling m (linkAt m n .children) k) (hseg : NodeAt m k seg) : NodePath k (p ++ [seg])

/-- The root or one of the nodes among the objects. -/
def NodeOf (objs : List Block) (n : ℕ) : Prop := n = 0 ∨ ∃ seg, ⟨n, .node seg⟩ ∈ objs

/-- A non-zero tree link. -/
def TreeLink (objs : List Block) (n k : ℕ) : Prop :=
  NodeOf objs n ∧ k ≠ 0 ∧ ∃ f, f ≠ .prop ∧ linkAt m n f = k

end Definitions

/-- A linked entry whose value is in the slot: a clean serial whose top byte is the length of the
NUL-terminated value. -/
structure ShortHeader (m : Mem) (a : ℕ) : Prop where
  even : PropertyInfo.serial m a % 2 = 0
  short : PropertyInfo.serial m a / 2 ^ 16 % 2 = 0
  len_eq : PropertyInfo.serial m a >>> 24 = (PropertyInfo.shortValueBytes m a).length
  len_le : (PropertyInfo.shortValueBytes m a).length ≤ 91
  terminated : m (a + 4 + (PropertyInfo.shortValueBytes m a).length) = 0

/-- A linked entry whose value is out of line: the long flag, the length of the legacy text and that
text itself, and a relative offset to an object that holds the NUL-terminated value. -/
structure LongHeader (m : Mem) (objs : List Block) (off : ℕ) : Prop where
  even : PropertyInfo.serial m (off + 128) % 2 = 0
  long : PropertyInfo.serial m (off + 128) / 2 ^ 16 % 2 = 1
  len_eq : PropertyInfo.serial m (off + 128) >>> 24 = longLegacyError.length
  text : Holds m (off + 128 + 4) (longLegacyError ++ [0])
  value : ∃ rel v, PropertyInfo.longOffset m (off + 128) = .ok rel ∧
    ⟨off + rel, .long v⟩ ∈ objs ∧ propValueMax ≤ v.length ∧ 0 ∉ v ∧
    Holds m (off + rel + 128) (v ++ [0])

/-- The representation invariant, with the list of all allocated objects. -/
structure RepInv (pa : PropertyAreaMap) (objs : List Block) : Prop where
  used_mod : pa.bytesUsed % 4 = 0
  used_low : 112 ≤ pa.bytesUsed
  used_high : pa.bytesUsed ≤ pa.paDataSize
  /-- The objects are disjoint 4-aligned ranges that fill the space from the root node and the backup
  slot (the first 112 bytes) up to `bytes_used`. -/
  layout : Layout pa.bytesUsed objs
  /-- Every node object carries its segment. -/
  node_at : ∀ off seg, ⟨off, .node seg⟩ ∈ objs → NodeAt pa.mmap.data off seg
  /-- Tree links lead to nodes. -/
  link_node : ∀ n k, TreeLink pa.mmap.data objs n k → NodeOf objs k
  /-- Each node but the root is the target of exactly one link. -/
  link_unique : ∀ k, NodeOf objs k → k ≠ 0 →
    ∃! nf : ℕ × LinkField, NodeOf objs nf.1 ∧ nf.2 ≠ .prop ∧ linkAt pa.mmap.data nf.1 nf.2 = k
  acyclic : ∀ n, ¬ Relation.TransGen (TreeLink pa.mmap.data objs) n n
  /-- Every node hangs below the root. -/
  path_exists : ∀ n, NodeOf objs n → ∃ p, NodePath pa.mmap.data n p
  /-- Sibling trees are strictly ordered by length and then bytes. -/
  ordered_left : ∀ n k s s', NodeOf objs n →
    Sibling pa.mmap.data (linkAt pa.mmap.data n .left) k →
    NodeAt pa.mmap.data n s → NodeAt pa.mmap.data k s' → cmpPropName s' s = .lt
  ordered_right : ∀ n k s s', NodeOf objs n →
    Sibling pa.mmap.data (linkAt pa.mmap.data n .right) k →
    NodeAt pa.mmap.data n s → NodeAt pa.mmap.data k s' → cmpPropName s s' = .lt
  /-- Every non-zero `prop` link leads to an entry that stores the node's dotted path. -/
  prop_entry : ∀ n p, NodePath pa.mmap.data n p → linkAt pa.mmap.data n .prop ≠ 0 →
    ⟨linkAt pa.mmap.data n .prop, .entry (joinDot p)⟩ ∈ objs ∧
      pa.propertyInfoName (linkAt pa.mmap.data n .prop) = .ok (joinDot p)
  /-- Different nodes have different entries. -/
  prop_distinct : ∀ n n', NodeOf objs n → NodeOf objs n' → linkAt pa.mmap.data n .prop ≠ 0 →
    linkAt pa.mmap.data n .prop = linkAt pa.mmap.data n' .prop → n = n'
  short_entry : ∀ n, NodeOf objs n → linkAt pa.mmap.data n .prop ≠ 0 →
    PropertyInfo.isLong pa.mmap.data (linkAt pa.mmap.data n .prop + 128) = false →
    ShortHeader pa.mmap.data (linkAt pa.mmap.data n .prop + 128)
  long_entry : ∀ n, NodeOf objs n → linkAt pa.mmap.data n .prop ≠ 0 →
    PropertyInfo.isLong pa.mmap.data (linkAt pa.mmap.data n .prop + 128) = true →
    LongHeader pa.mmap.data objs (linkAt pa.mmap.data n .prop)

/-! ### Sibling trees read off the links -/

section Siblings

variable {m : Mem} {t : SearchTree Bytes ℕ} {lo : ℕ}

theorem NodeAt.seg_eq {off : ℕ} {s s' : Bytes} (h : NodeAt m off s) (h' : NodeAt m off s') :
    s = s' := by
  have hlen : s.length = s'.length := h.1.symm.trans h'.1
  refine List.ext_getElem hlen fun i h1 h2 => ?_
  have e1 := h.2 i (by simp; omega)
  have e2 := h'.2 i (by simp; omega)
  rw [List.getElem_append_left h1] at e1
  rw [List.getElem_append_left h2] at e2
  exact e1.symm.trans e2

/-- The siblings reached by the links are the nodes of the represented tree. -/
theorem sibling_iff (ht : TreeAt m t) (hr : Rising (lo + 1) t) {k : ℕ} :
    Sibling m (rootOff t) k ↔ ∃ seg, (seg, k) ∈ t.toList := by
  induction t generalizing lo with
  | nil =>
    simp only [rootOff, SearchTree.toList, List.not_mem_nil, exists_false, iff_false]
    intro h
    cases h <;> contradiction
  | node s off l r ihl ihr =>
    obtain ⟨-, hl, hr', htl, htr⟩ := ht
    obtain ⟨h0, hrl, hrr⟩ := hr
    have hoff : off ≠ 0 := by omega
    have ihl := ihl htl hrl
    have ihr := ihr htr hrr
    simp only [rootOff, SearchTree.toList, List.mem_append, List.mem_cons, Prod.mk.injEq]
    constructor
    · intro h
      cases h with
      | here => exact ⟨s, .inr (.inl ⟨rfl, rfl⟩)⟩
      | left _ h =>
        obtain ⟨seg, hm⟩ := ihl.mp (hl ▸ h)
        exact ⟨seg, .inl hm⟩
      | right _ h =>
        obtain ⟨seg, hm⟩ := ihr.mp (hr' ▸ h)
        exact ⟨seg, .inr (.inr hm)⟩
    · rintro ⟨seg, hm | ⟨-, rfl⟩ | hm⟩
      · exact .left hoff (hl.symm ▸ ihl.mpr ⟨seg, hm⟩)
      · exact .here hoff
      · exact .right hoff (hr'.symm ▸ ihr.mpr ⟨seg, hm⟩)

/-- No node hangs at a clear link. -/
theorem not_sibling_zero {k : ℕ} : ¬ Sibling m 0 k := by
  intro h
  cases h <;> contradiction

variable {g : Shape}

/-- Where a node of a represented tree sits: its two links lead to the subtrees below it. -/
theorem SubTree.sub_of_mem (hs : SubTree g m lo t) {s : Bytes} {off : ℕ}
    (hmem : (s, off) ∈ t.toList) : ∃ l r lo', SubTree g m lo' (.node s off l r) ∧
      (∀ p ∈ (SearchTree.node s off l r).toList, p ∈ t.toList) := by
  induction t generalizing lo with
  | nil => simp [SearchTree.toList] at hmem
  | node s' off' l r ihl ihr =>
    simp only [SearchTree.toList, List.mem_append, List.mem_cons, Prod.mk.injEq] at hmem
    rcases hmem with hm | ⟨rfl, rfl⟩ | hm
    · obtain ⟨l', r', lo', hs', hsub⟩ := ihl hs.left hm
      exact ⟨l', r', lo', hs', fun p hp => List.mem_append_left _ (hsub p hp)⟩
    · exact ⟨l, r, lo, hs, fun p hp => hp⟩
    · obtain ⟨l', r', lo', hs', hsub⟩ := ihr hs.right hm
      exact ⟨l', r', lo', hs', fun p hp =>
        List.mem_append_right _ (List.mem_cons_of_mem _ (hsub p hp))⟩

theorem rootOff_mem (hne : rootOff t ≠ 0) : ∃ seg, (seg, rootOff t) ∈ t.toList := by
  cases t with
  | nil => exact absurd rfl hne
  | node s off l r => exact ⟨s, by simp [SearchTree.toList, rootOff]⟩

theorem SubTree.rootOff_le (hs : SubTree g m lo t) {p : Bytes × ℕ} (hp : p ∈ t.toList) :
    rootOff t ≤ p.2 := by
  cases t with
  | nil => simp [SearchTree.toList] at hp
  | node s off l r =>
    simp only [SearchTree.toList, List.mem_append, List.mem_cons] at hp
    rcases hp with hp | rfl | hp
    · have := hs.left.rising.le hp
      simp only [rootOff]
      omega
    · exact le_rfl
    · have := hs.right.rising.le hp
      simp only [rootOff]
      omega

/-- A sibling link of a node of the tree stays in the tree and leads further on. -/
theorem SubTree.link_inside (hs : SubTree g m lo t) {s : Bytes} {off k : ℕ} {f : LinkField}
    (hmem : (s, off) ∈ t.toList) (hf : f = .left ∨ f = .right) (hk : linkAt m off f = k)
    (hk0 : k ≠ 0) : (∃ seg, (seg, k) ∈ t.toList) ∧ off + 20 ≤ k := by
  obtain ⟨l, r, lo', hs', hsub⟩ := hs.sub_of_mem hmem
  rcases hf with rfl | rfl
  · rw [hs'.treeAt.2.1] at hk
    subst hk
    obtain ⟨seg, hm⟩ := rootOff_mem hk0
    exact ⟨⟨seg, hsub _ (List.mem_append_left _ hm)⟩, hs'.left.rising.le hm⟩
  · rw [hs'.treeAt.2.2.1] at hk
    subst hk
    obtain ⟨seg, hm⟩ := rootOff_mem hk0
    exact ⟨⟨seg, hsub _ (List.mem_append_right _ (List.mem_cons_of_mem _ hm))⟩,
      hs'.right.rising.le hm⟩

/-- Every node of the tree but its root is the target of a sibling link in the tree. -/
theorem TreeAt.exists_link (ht : TreeAt m t) {s : Bytes} {k : ℕ} (hmem : (s, k) ∈ t.toList) :
    k = rootOff t ∨ ∃ s' o f, (s', o) ∈ t.toList ∧ (f = .left ∨ f = .right) ∧ linkAt m o f = k := by
  induction t with
  | nil => simp [SearchTree.toList] at hmem
  | node s0 off l r ihl ihr =>
    obtain ⟨-, hl, hr, htl, htr⟩ := ht
    simp only [SearchTree.toList, List.mem_append, List.mem_cons, Prod.mk.injEq] at hmem ⊢
    rcases hmem with hm | ⟨rfl, rfl⟩ | hm
    · rcases ihl htl hm with rfl | ⟨s', o, f, hm', hf, hk⟩
      · exact .inr ⟨s0, off, .left, .inr (.inl ⟨rfl, rfl⟩), .inl rfl, hl⟩
      · exact .inr ⟨s', o, f, .inl hm', hf, hk⟩
    · exact .inl rfl
    · rcases ihr htr hm with rfl | ⟨s', o, f, hm', hf, hk⟩
      · exact .inr ⟨s0, off, .right, .inr (.inl ⟨rfl, rfl⟩), .inr rfl, hr⟩
      · exact .inr ⟨s', o, f, .inr (.inr hm'), hf, hk⟩

/-- Where a sibling link to `k` can start: at the root of the tree, whose links lead to the roots of
the two subtrees, or inside the subtree that contains `k`. -/
private theorem SubTree.link_source {s0 s : Bytes} {off o k : ℕ} {l r : SearchTree Bytes ℕ}
    {f : LinkField} (hs : SubTree g m lo (.node s0 off l r))
    (hmem : (s, o) ∈ (SearchTree.node s0 off l r).toList) (hf : f = .left ∨ f = .right)
    (hk : linkAt m o f = k) (hk0 : k ≠ 0) :
    (∃ seg, (seg, k) ∈ l.toList) ∧
      (o = off ∧ f = .left ∧ k = rootOff l ∨ (s, o) ∈ l.toList ∧ rootOff l < k) ∨
    (∃ seg, (seg, k) ∈ r.toList) ∧
      (o = off ∧ f = .right ∧ k = rootOff r ∨ (s, o) ∈ r.toList ∧ rootOff r < k) := by
  simp only [SearchTree.toList, List.mem_append, List.mem_cons, Prod.mk.injEq] at hmem
  rcases hmem with hm | ⟨rfl, rfl⟩ | hm
  · obtain ⟨hin, hlt⟩ := hs.left.link_inside hm hf hk hk0
    have := hs.left.rootOff_le hm
    exact .inl ⟨hin, .inr ⟨hm, by simp only at this; omega⟩⟩
  · rcases hf with rfl | rfl
    · have hkl : k = rootOff l := hk ▸ hs.treeAt.2.1
      exact .inl ⟨hkl ▸ rootOff_mem (hkl ▸ hk0), .inl ⟨rfl, rfl, hkl⟩⟩
    · have hkr : k = rootOff r := hk ▸ hs.treeAt.2.2.1
      exact .inr ⟨hkr ▸ rootOff_mem (hkr ▸ hk0), .inl ⟨rfl, rfl, hkr⟩⟩
  · obtain ⟨hin, hlt⟩ := hs.right.link_inside hm hf hk hk0
    have := hs.right.rootOff_le hm
    exact .inr ⟨hin, .inr ⟨hm, by simp only at this; omega⟩⟩

/-- Within a tree at most one sibling link leads to a node. -/
theorem SubTree.link_unique {used : ℕ} (hw : g.Wf used) (hs : SubTree g m lo t)
    {s s' : Bytes} {o o' k : ℕ} {f f' : LinkField} (hmem : (s, o) ∈ t.toList)
    (hmem' : (s', o') ∈ t.toList) (hf : f = .left ∨ f = .right) (hf' : f' = .left ∨ f' = .right)
    (hk : linkAt m o f = k) (hk' : linkAt m o' f' = k) (hk0 : k ≠ 0) : o = o' ∧ f = f' := by
  induction t generalizing lo with
  | nil => simp [SearchTree.toList] at hmem
  | node s0 off l r ihl ihr =>
    rcases hs.link_source hmem hf hk hk0 with ⟨⟨_, hin⟩, hsrc⟩ | ⟨⟨_, hin⟩, hsrc⟩ <;>
      rcases hs.link_source hmem' hf' hk' hk0 with ⟨⟨_, hin'⟩, hsrc'⟩ | ⟨⟨_, hin'⟩, hsrc'⟩
    · rcases hsrc with ⟨rfl, rfl, h1⟩ | ⟨hm, h1⟩ <;> rcases hsrc' with ⟨rfl, rfl, h2⟩ | ⟨hm', h2⟩
      · exact ⟨rfl, rfl⟩
      · omega
      · omega
      · exact ihl hs.left hm hm'
    · have hne := hs.apart hw _ hin _ hin'
      exact absurd rfl hne
    · have hne := hs.apart hw _ hin' _ hin
      exact absurd rfl hne
    · rcases hsrc with ⟨rfl, rfl, h1⟩ | ⟨hm, h1⟩ <;> rcases hsrc' with ⟨rfl, rfl, h2⟩ | ⟨hm', h2⟩
      · exact ⟨rfl, rfl⟩
      · omega
      · omega
      · exact ihr hs.right hm hm'

end Siblings

/-! ### The invariant in memory -/

section Memory

variable {pa : PropertyAreaMap} {g : Shape}

/-- The node of a sibling tree determines the tree. -/
theorem Shape.Wf.parent_unique {used : ℕ} (hw : g.Wf used) {n n' k : ℕ} {s s' : Bytes}
    (h : (s, k) ∈ (g.kids n).toList) (h' : (s', k) ∈ (g.kids n').toList) : n = n' := by
  have h1 := hw.path_kid n _ h
  have h2 := hw.path_kid n' _ h'
  have hp : g.path n ++ [s] = g.path n' ++ [s'] := h1.symm.trans h2
  exact hw.path_injective (hw.kid_parent n _ h) (hw.kid_parent n' _ h') (List.append_inj' hp rfl).1

/-- A tree link starts at a node's `children` link and leads to the root of its sibling tree, or it
is a sibling link inside a tree. -/
theorem AreaInv.link_cases (h : AreaInv pa g) {n k : ℕ} {f : LinkField} (hn : g.IsNode n)
    (hf : f ≠ .prop) (hk : linkAt pa.mmap.data n f = k) (hk0 : k ≠ 0) :
    (f = .children ∧ k = rootOff (g.kids n)) ∨
    ((f = .left ∨ f = .right) ∧ ∃ p s, (s, n) ∈ (g.kids p).toList) := by
  cases f with
  | prop => exact absurd rfl hf
  | children => exact .inl ⟨rfl, hk ▸ h.rep.children n hn⟩
  | left =>
    have hn0 : n ≠ 0 := by
      rintro rfl
      exact hk0 (hk ▸ h.rep.root.1)
    obtain ⟨p, s, hm, -, -⟩ := h.wf.exists_parent hn hn0
    exact .inr ⟨.inl rfl, p, s, hm⟩
  | right =>
    have hn0 : n ≠ 0 := by
      rintro rfl
      exact hk0 (hk ▸ h.rep.root.2)
    obtain ⟨p, s, hm, -, -⟩ := h.wf.exists_parent hn hn0
    exact .inr ⟨.inr rfl, p, s, hm⟩

/-- Where a tree link leads. -/
theorem AreaInv.link_target (h : AreaInv pa g) {n k : ℕ} {f : LinkField} (hn : g.IsNode n)
    (hf : f ≠ .prop) (hk : linkAt pa.mmap.data n f = k) (hk0 : k ≠ 0) :
    g.IsNode k ∧ n + 20 ≤ k := by
  rcases h.link_cases hn hf hk hk0 with ⟨-, rfl⟩ | ⟨hfs, p, s, hm⟩
  · obtain ⟨seg, hm⟩ := rootOff_mem hk0
    exact ⟨h.wf.isNode_kid hm, (h.wf.rising n).le hm⟩
  · obtain ⟨⟨seg, hm'⟩, hle⟩ := (h.subTree p).link_inside hm hfs hk hk0
    exact ⟨h.wf.isNode_kid hm', hle⟩

/-- Each node but the root is the target of exactly one link. -/
theorem AreaInv.link_existsUnique (h : AreaInv pa g) {k : ℕ} (hk : g.IsNode k) (hk0 : k ≠ 0) :
    ∃! nf : ℕ × LinkField, g.IsNode nf.1 ∧ nf.2 ≠ .prop ∧
      linkAt pa.mmap.data nf.1 nf.2 = k := by
  obtain ⟨p, s, hm, hp, -⟩ := h.wf.exists_parent hk hk0
  refine existsUnique_of_exists_of_unique ?_ ?_
  · rcases (h.rep.tree p).exists_link hm with hroot | ⟨s', o, f, hm', hf, hl⟩
    · exact ⟨(p, .children), hp, by simp, (h.rep.children p hp).trans hroot.symm⟩
    · refine ⟨(o, f), h.wf.isNode_kid hm', ?_, hl⟩
      rcases hf with rfl | rfl <;> simp
  · -- a link to `k` is the `children` link of `p` or a sibling link in the tree below `p`
    have source : ∀ n f, g.IsNode n → f ≠ .prop → linkAt pa.mmap.data n f = k →
        (n = p ∧ f = .children ∧ k = rootOff (g.kids p)) ∨
        ((f = .left ∨ f = .right) ∧ (∃ s', (s', n) ∈ (g.kids p).toList) ∧
          rootOff (g.kids p) < k) := by
      intro n f hn hf hl
      rcases h.link_cases hn hf hl hk0 with ⟨hfc, hroot⟩ | ⟨hfs, p', s', hm'⟩
      · obtain ⟨s', hm'⟩ := rootOff_mem (hroot ▸ hk0)
        rw [← hroot] at hm'
        obtain rfl := h.wf.parent_unique hm' hm
        exact .inl ⟨rfl, hfc, hroot⟩
      · obtain ⟨⟨seg, hmk⟩, hle⟩ := (h.subTree p').link_inside hm' hfs hl hk0
        obtain rfl := h.wf.parent_unique hmk hm
        have := (h.subTree p').rootOff_le hm'
        exact .inr ⟨hfs, ⟨s', hm'⟩, by simp only at this; omega⟩
    rintro ⟨n, f⟩ ⟨n', f'⟩ ⟨hn, hf, hl⟩ ⟨hn', hf', hl'⟩
    rcases source n f hn hf hl with ⟨rfl, rfl, h1⟩ | ⟨hfs, ⟨s1, hm1⟩, h1⟩ <;>
      rcases source n' f' hn' hf' hl' with ⟨rfl, rfl, h2⟩ | ⟨hfs', ⟨s2, hm2⟩, h2⟩
    · rfl
    · omega
    · omega
    · obtain ⟨rfl, rfl⟩ := (h.subTree p).link_unique h.wf hm1 hm2 hfs hfs' hl hl' hk0
      rfl

/-- The paths read off the links are those of the shape. -/
theorem AreaInv.nodePath_iff (h : AreaInv pa g) {n : ℕ} {p : List Bytes} :
    NodePath pa.mmap.data n p ↔ g.IsNode n ∧ g.path n = p := by
  constructor
  · intro hp
    induction hp with
    | root => exact ⟨.inl rfl, h.wf.path_root⟩
    | @child n k p seg _ hk hseg ih =>
      obtain ⟨hn, rfl⟩ := ih
      rw [h.rep.children n hn] at hk
      obtain ⟨s, hm⟩ := (sibling_iff (h.rep.tree n) (h.wf.rising n)).mp hk
      have hs : s = seg := NodeAt.seg_eq ((h.rep.tree n).nodeAt hm) hseg
      exact ⟨h.wf.isNode_kid hm, hs ▸ h.wf.path_kid n _ hm⟩
  · rintro ⟨hn, rfl⟩
    induction n using Nat.strong_induction_on with
    | _ n ih =>
      by_cases hn0 : n = 0
      · rw [hn0, h.wf.path_root]
        exact .root
      obtain ⟨q, s, hm, hq, hlt⟩ := h.wf.exists_parent hn hn0
      rw [h.wf.path_kid q _ hm]
      refine .child (ih q hlt hq) ?_ ((h.rep.tree q).nodeAt hm)
      rw [h.rep.children q hq]
      exact (sibling_iff (h.rep.tree q) (h.wf.rising q)).mpr ⟨s, hm⟩

/-- A node's segment, in its tree. -/
theorem AreaInv.node_seg (h : AreaInv pa g) {n : ℕ} (hn : g.IsNode n) (hn0 : n ≠ 0) {s : Bytes}
    (hs : NodeAt pa.mmap.data n s) : ∃ l r lo, SubTree g pa.mmap.data lo (.node s n l r) := by
  obtain ⟨p, s', hm, -, -⟩ := h.wf.exists_parent hn hn0
  obtain rfl : s' = s := NodeAt.seg_eq ((h.rep.tree p).nodeAt hm) hs
  obtain ⟨l, r, lo, hsub, -⟩ := (h.subTree p).sub_of_mem hm
  exact ⟨l, r, lo, hsub⟩

/-- A non-zero `prop` link leads to the entry bound at the node. -/
theorem AreaInv.entry_of_prop (h : AreaInv pa g) {n : ℕ} (hn : g.IsNode n)
    (hp : linkAt pa.mmap.data n .prop ≠ 0) :
    ∃ e, g.entry n = some e ∧ linkAt pa.mmap.data n .prop = e.off := by
  have hlink := h.rep.prop n hn
  cases he : g.entry n with
  | none =>
    rw [he] at hlink
    exact absurd hlink hp
  | some e =>
    rw [he] at hlink
    exact ⟨e, rfl, hlink⟩

theorem AreaInv.shortHeader (h : AreaInv pa g) {n : ℕ} {e : Entry} (he : g.entry n = some e)
    (hv : e.value.length < propValueMax) : ShortHeader pa.mmap.data (e.off + 128) := by
  obtain ⟨hs, hval⟩ := (h.rep.entry n e he).short hv
  have hread := h.shortValueBytes_eq he hv
  refine ⟨hs.even, hs.short, ?_, ?_, ?_⟩
  · rw [hread, Nat.shiftRight_eq_div_pow, hs.len_eq]
  · rw [hread]
    rw [propValueMax] at hv
    omega
  · rw [hread]
    exact (holds_cons.mp (holds_append.mp hval).2).1

theorem AreaInv.longHeader (h : AreaInv pa g) {n : ℕ} {e : Entry} (he : g.entry n = some e)
    (hv : propValueMax ≤ e.value.length) : LongHeader pa.mmap.data g.blocks e.off := by
  obtain ⟨hs, htext, hrel, hval⟩ := (h.rep.entry n e he).long hv
  have hpad : PropertyInfo.errorBytesPadded longLegacyErrorBufferSize longLegacyError =
      (longLegacyError ++ [0]) ++ List.replicate 5 0 := by decide
  refine ⟨?_, ?_, ?_, ?_, _, e.value, ?_, h.wf.long_block n e he hv, hv, h.wf.entry_value n e he,
    hval⟩
  · rw [hs]
    decide
  · rw [hs]
    decide
  · rw [hs]
    decide
  · rw [hpad] at htext
    exact (holds_append.mp htext).1
  · rw [PropertyInfo.longOffset, isLong_of_long hs, hrel]
    rfl

/-- **The writers' invariant implies the representation invariant.** -/
theorem AreaInv.repInv (h : AreaInv pa g) : RepInv pa g.blocks where
  used_mod := h.basic.used_mod
  used_low := h.basic.used_low
  used_high := h.basic.dataSize ▸ h.basic.used_high
  layout := h.wf.layout
  node_at := by
    intro off seg hb
    obtain ⟨n, hm⟩ := h.wf.block_kid off seg hb
    exact (h.rep.tree n).nodeAt hm
  link_node := by
    rintro n k ⟨hn, hk0, f, hf, hk⟩
    exact (h.link_target hn hf hk hk0).1
  link_unique := fun k hk hk0 => h.link_existsUnique hk hk0
  acyclic := by
    -- offsets grow along every link
    have hlt : ∀ n k, Relation.TransGen (TreeLink pa.mmap.data g.blocks) n k → n < k := by
      intro n k ht
      induction ht with
      | single hl =>
        obtain ⟨hn, hk0, f, hf, hk⟩ := hl
        have := (h.link_target hn hf hk hk0).2
        omega
      | tail _ hl ih =>
        obtain ⟨hn, hk0, f, hf, hk⟩ := hl
        have := (h.link_target hn hf hk hk0).2
        omega
    exact fun n hn => lt_irrefl n (hlt n n hn)
  path_exists := fun n hn => ⟨g.path n, h.nodePath_iff.mpr ⟨hn, rfl⟩⟩
  ordered_left := by
    intro n k s s' hn hsib hs hs'
    have hn0 : n ≠ 0 := by
      rintro rfl
      rw [h.rep.root.1] at hsib
      exact not_sibling_zero hsib
    obtain ⟨l, r, lo, hsub⟩ := h.node_seg hn hn0 hs
    rw [hsub.treeAt.2.1] at hsib
    obtain ⟨seg, hm⟩ := (sibling_iff hsub.left.treeAt hsub.left.rising).mp hsib
    obtain rfl : seg = s' := NodeAt.seg_eq (hsub.left.treeAt.nodeAt hm) hs'
    exact hsub.ordered.1 _ hm
  ordered_right := by
    intro n k s s' hn hsib hs hs'
    have hn0 : n ≠ 0 := by
      rintro rfl
      rw [h.rep.root.2] at hsib
      exact not_sibling_zero hsib
    obtain ⟨l, r, lo, hsub⟩ := h.node_seg hn hn0 hs
    rw [hsub.treeAt.2.2.1] at hsib
    obtain ⟨seg, hm⟩ := (sibling_iff hsub.right.treeAt hsub.right.rising).mp hsib
    obtain rfl : seg = s' := NodeAt.seg_eq (hsub.right.treeAt.nodeAt hm) hs'
    exact hsub.ordered.2.1 _ hm
  prop_entry := by
    intro n p hp h0
    obtain ⟨hn, rfl⟩ := h.nodePath_iff.mp hp
    obtain ⟨e, he, hlink⟩ := h.entry_of_prop hn h0
    rw [hlink]
    exact ⟨h.wf.entry_block n e he, h.propertyInfoName_eq he⟩
  prop_distinct := by
    intro n n' hn hn' h0 heq
    obtain ⟨e, he, hlink⟩ := h.entry_of_prop hn h0
    obtain ⟨e', he', hlink'⟩ := h.entry_of_prop hn' (heq ▸ h0)
    exact h.wf.entry_injective he he' (by rw [← hlink, ← hlink', heq])
  short_entry := by
    intro n hn h0 hl
    obtain ⟨e, he, hlink⟩ := h.entry_of_prop hn h0
    rw [hlink] at hl ⊢
    rw [h.isLong_eq he, decide_eq_false_iff_not] at hl
    exact h.shortHeader he (by omega)
  long_entry := by
    intro n hn h0 hl
    obtain ⟨e, he, hlink⟩ := h.entry_of_prop hn h0
    rw [hlink] at hl ⊢
    rw [h.isLong_eq he, decide_eq_true_iff] at hl
    exact h.longHeader he hl

end Memory

/-- **The representation invariant holds in every state of every run.** -/
theorem area_repInv {pa : PropertyAreaMap} {M : Bytes → Option Bytes} {seen : List (Bytes × ℕ)}
    (h : AreaRun pa M seen) : ∃ objs, RepInv pa objs := by
  obtain ⟨g, hinv, -, -⟩ := h.exists_shape
  exact ⟨g.blocks, hinv.repInv⟩

/-- A run that adds a long value below a name, then the name itself, and updates it. -/
theorem area_repInv_nested : ∃ objs, RepInv (finalState (backupAndApplyWrite 392 (ascii "1") (ascii "22")
    (finalState (PropertyAreaMap.add (ascii "x.a") (ascii "1") (finalState (PropertyAreaMap.add
      (ascii "x.a.b") (List.replicate 100 97) newRw)))))) objs := by
  have h1 := AreaRun.add .init (ascii "x.a.b") (show 0 ∉ List.replicate 100 97 by decide)
  have h2 := h1.add (ascii "x.a") (show 0 ∉ ascii "1" by decide)
  have hfind : (finalState (PropertyAreaMap.add (ascii "x.a") (ascii "1") (finalState
      (PropertyAreaMap.add (ascii "x.a.b") (List.replicate 100 97) newRw)))).find (ascii "x.a") =
      .ok 392 := by
    decide +kernel
  have h3 := h2.find hfind
  exact area_repInv (h3.update (List.mem_singleton_self _) (ascii "1") (show 0 ∉ ascii "22" by decide))

end RsProperties
