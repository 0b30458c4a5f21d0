import RsProperties.PropertyArea.Alloc
import RsProperties.Library.SearchTree

/-!
# The shape of a property area

`Shape` is the abstract contents of an area: the allocated blocks in allocation order, the sibling
tree below every node, the path of every node and the entry bound at it. Nodes are named by their
data offsets, the root being `0`. `Shape.Wf` is what a shape satisfies on its own; how the bytes
of an area represent a shape is `Rep`, in the next module.

The facts used throughout: paths determine nodes (`Wf.path_injective`), and the walk along the
segments of a name reaches exactly the node whose path they are (`Wf.walk_eq_some_iff`). So the
value a shape gives to a name can be read off the paths (`Wf.lookup_eq_some_iff`), which turns the
effect of every operation on the represented map into a fact about a single node.
-/

namespace RsProperties

open ByteMem

/-! ### The order of the sibling trees -/

theorem cmpPropName_eq : cmpPropName = compareLex (compareOn List.length) compare := rfl

instance : Std.TransCmp cmpPropName := by
  rw [cmpPropName_eq]
  infer_instance

instance : Std.LawfulEqCmp cmpPropName where
  eq_of_compare {a b} h := by
    have h' : compare a b = .eq := (Ordering.then_eq_eq.mp h).2
    exact Std.LawfulEqCmp.eq_of_compare h'

/-! ### Blocks -/

/-- What an allocation holds. -/
inductive Obj
  | node (seg : Bytes)
  | entry (name : Bytes)
  | long (value : Bytes)
  deriving DecidableEq, Repr

/-- The space an entry with its trailing name takes. -/
def entryExtent (name : Bytes) : ℕ := bionicAlign (96 + name.length + 1) 4

/-- The space an out-of-line value takes. -/
def longExtent (value : Bytes) : ℕ := bionicAlign (value.length + 1) 4

def Obj.extent : Obj → ℕ
  | .node seg => PropertyAreaMap.nodeExtent seg
  | .entry name => entryExtent name
  | .long value => longExtent value

/-- An allocation at a data offset. -/
structure Block where
  off : ℕ
  obj : Obj
  deriving DecidableEq, Repr

def Block.stop (b : Block) : ℕ := b.off + b.obj.extent

theorem entryExtent_ge (name : Bytes) : 96 + name.length + 1 ≤ entryExtent name :=
  le_bionicAlign_four _

theorem longExtent_ge (value : Bytes) : value.length + 1 ≤ longExtent value :=
  le_bionicAlign_four _

theorem Obj.extent_pos (o : Obj) : 0 < o.extent := by
  cases o with
  | node seg => exact Nat.lt_of_lt_of_le (by omega) (PropertyAreaMap.nodeExtent_ge seg)
  | entry name => exact Nat.lt_of_lt_of_le (by omega) (entryExtent_ge name)
  | long value => exact Nat.lt_of_lt_of_le (by omega) (longExtent_ge value)

theorem Obj.extent_mod (o : Obj) : o.extent % 4 = 0 := by
  cases o <;> exact bionicAlign_four_mod _

/-- The blocks are 4-aligned and in order, and fill the space between the backup slot and `used`. -/
structure Layout (used : ℕ) (blocks : List Block) : Prop where
  sorted : blocks.Pairwise fun a b => a.stop ≤ b.off
  aligned : ∀ b ∈ blocks, b.off % 4 = 0
  low : ∀ b ∈ blocks, 112 ≤ b.off
  high : ∀ b ∈ blocks, b.stop ≤ used
  total : 112 + (blocks.map fun b => b.obj.extent).sum = used

/-- Two blocks are the same or disjoint. -/
theorem Layout.disjoint {used : ℕ} {blocks : List Block} (h : Layout used blocks) {a b : Block}
    (ha : a ∈ blocks) (hb : b ∈ blocks) : a = b ∨ a.stop ≤ b.off ∨ b.stop ≤ a.off := by
  by_cases hab : a = b
  · exact .inl hab
  have : Std.Symm fun a b : Block => a.stop ≤ b.off ∨ b.stop ≤ a.off := ⟨fun _ _ => Or.symm⟩
  have hs : blocks.Pairwise fun a b => a.stop ≤ b.off ∨ b.stop ≤ a.off :=
    h.sorted.imp .inl
  exact .inr (hs.forall ha hb hab)

theorem Layout.eq_of_off {used : ℕ} {blocks : List Block} (h : Layout used blocks) {a b : Block}
    (ha : a ∈ blocks) (hb : b ∈ blocks) (ho : a.off = b.off) : a = b := by
  rcases h.disjoint ha hb with rfl | hd | hd
  · rfl
  · have := a.obj.extent_pos
    rw [Block.stop] at hd
    omega
  · have := b.obj.extent_pos
    rw [Block.stop] at hd
    omega

/-- Allocating a block at the end. -/
theorem Layout.snoc {used : ℕ} {blocks : List Block} (h : Layout used blocks) (o : Obj)
    (hm : used % 4 = 0) (hl : 112 ≤ used) :
    Layout (used + o.extent) (blocks ++ [⟨used, o⟩]) := by
  have hmem : ∀ b ∈ blocks ++ [⟨used, o⟩], b ∈ blocks ∨ b = ⟨used, o⟩ := by simp
  refine ⟨List.pairwise_append.mpr ⟨h.sorted, by simp, fun a ha b hb => ?_⟩, ?_, ?_, ?_, ?_⟩
  · obtain rfl : b = ⟨used, o⟩ := by simpa using hb
    exact h.high a ha
  · intro b hb
    rcases hmem b hb with hb | rfl
    · exact h.aligned b hb
    · exact hm
  · intro b hb
    rcases hmem b hb with hb | rfl
    · exact h.low b hb
    · exact hl
  · intro b hb
    rcases hmem b hb with hb | rfl
    · exact (h.high b hb).trans (Nat.le_add_right _ _)
    · exact le_rfl
  · rw [List.map_append, List.sum_append, ← Nat.add_assoc, h.total]
    simp

/-! ### Shapes -/

/-- A bound name: where its entry is and what it reads. -/
structure Entry where
  off : ℕ
  value : Bytes
  deriving DecidableEq, Repr

/-- The abstract contents of an area. -/
structure Shape where
  /-- All allocations, in order, including entries a failed `add` left behind. -/
  blocks : List Block
  /-- The sibling tree below a node: segments with the nodes' offsets. -/
  kids : ℕ → SearchTree Bytes ℕ
  /-- The segments on the way from the root to a node. -/
  path : ℕ → List Bytes
  /-- The entry a node's `prop` link leads to. -/
  entry : ℕ → Option Entry

namespace Shape

variable (g : Shape)

/-- The root or an allocated trie node. -/
def IsNode (n : ℕ) : Prop := n = 0 ∨ ∃ seg, ⟨n, .node seg⟩ ∈ g.blocks

/-- The walk along segments from a node. -/
def walk : ℕ → List Bytes → Option ℕ
  | n, [] => some n
  | n, seg :: segs => ((g.kids n).find? cmpPropName seg).bind (walk · segs)

/-- The entry of a name. -/
def lookup (name : Bytes) : Option Entry := (g.walk 0 (splitDot name)).bind g.entry

/-- The segments below `n` that have no node yet: once one is missing, so are all behind it. -/
def missing : ℕ → List Bytes → List Bytes
  | _, [] => []
  | n, seg :: segs =>
    match (g.kids n).find? cmpPropName seg with
    | some k => missing k segs
    | none => seg :: segs

/-- Some node has the path. -/
def HasPath (p : List Bytes) : Prop := ∃ n, g.IsNode n ∧ g.path n = p

/-- The finite map an area represents. -/
def toMap (name : Bytes) : Option Bytes := (g.lookup name).map Entry.value

end Shape

/-- Offsets grow by at least a node header from a node to its subtrees. -/
def Rising : ℕ → SearchTree Bytes ℕ → Prop
  | _, .nil => True
  | lo, .node _ off l r => lo ≤ off ∧ Rising (off + 20) l ∧ Rising (off + 20) r

theorem Rising.le {lo : ℕ} {t : SearchTree Bytes ℕ} (h : Rising lo t) {p : Bytes × ℕ}
    (hp : p ∈ t.toList) : lo ≤ p.2 := by
  induction t generalizing lo with
  | nil => simp [SearchTree.toList] at hp
  | node k v l r ihl ihr =>
    obtain ⟨h0, hl, hr⟩ := h
    simp only [SearchTree.toList, List.mem_append, List.mem_cons] at hp
    rcases hp with hp | rfl | hp
    · have := ihl hl hp
      omega
    · exact h0
    · have := ihr hr hp
      omega

/-- A new node behind all others keeps the offsets rising. -/
theorem Rising.insert {lo off : ℕ} {t : SearchTree Bytes ℕ} (h : Rising lo t) (seg : Bytes)
    (hlo : lo ≤ off) (ht : ∀ p ∈ t.toList, p.2 + 20 ≤ off) :
    Rising lo (t.insert cmpPropName seg off) := by
  induction t generalizing lo with
  | nil => exact ⟨hlo, trivial, trivial⟩
  | node k v l r ihl ihr =>
    obtain ⟨h0, hl, hr⟩ := h
    have hv : v + 20 ≤ off := ht (k, v) (by simp [SearchTree.toList])
    simp only [SearchTree.insert]
    cases cmpPropName seg k with
    | lt => exact ⟨h0, ihl hl hv fun p hp => ht p (by simp [SearchTree.toList, hp]), hr⟩
    | gt => exact ⟨h0, hl, ihr hr hv fun p hp => ht p (by simp [SearchTree.toList, hp])⟩
    | eq => exact ⟨h0, hl, hr⟩

/-- A shape that an area with the given `bytes_used` can have. -/
structure Shape.Wf (g : Shape) (used : ℕ) : Prop where
  layout : Layout used g.blocks
  kid_block : ∀ n, ∀ p ∈ (g.kids n).toList, ⟨p.2, .node p.1⟩ ∈ g.blocks
  kid_parent : ∀ n, ∀ p ∈ (g.kids n).toList, g.IsNode n
  block_kid : ∀ off seg, ⟨off, .node seg⟩ ∈ g.blocks → ∃ n, (seg, off) ∈ (g.kids n).toList
  ordered : ∀ n, (g.kids n).Ordered cmpPropName
  rising : ∀ n, Rising (n + 20) (g.kids n)
  path_root : g.path 0 = []
  path_kid : ∀ n, ∀ p ∈ (g.kids n).toList, g.path p.2 = g.path n ++ [p.1]
  seg_ok : ∀ off seg, ⟨off, .node seg⟩ ∈ g.blocks → seg ≠ [] ∧ 0 ∉ seg ∧ dot ∉ seg
  entry_node : ∀ n e, g.entry n = some e → g.IsNode n ∧ n ≠ 0
  entry_block : ∀ n e, g.entry n = some e → ⟨e.off, .entry (joinDot (g.path n))⟩ ∈ g.blocks
  long_block : ∀ n e, g.entry n = some e → propValueMax ≤ e.value.length →
    ⟨e.off + entryExtent (joinDot (g.path n)), .long e.value⟩ ∈ g.blocks
  entry_value : ∀ n e, g.entry n = some e → 0 ∉ e.value

namespace Shape.Wf

variable {g : Shape} {used : ℕ}

theorem isNode_kid (h : g.Wf used) {n : ℕ} {p : Bytes × ℕ} (hp : p ∈ (g.kids n).toList) :
    g.IsNode p.2 := .inr ⟨p.1, h.kid_block n p hp⟩

/-- A node other than the root hangs in the sibling tree of a smaller node. -/
theorem exists_parent (h : g.Wf used) {k : ℕ} (hk : g.IsNode k) (hk0 : k ≠ 0) :
    ∃ n seg, (seg, k) ∈ (g.kids n).toList ∧ g.IsNode n ∧ n < k := by
  obtain ⟨seg, hb⟩ := hk.resolve_left hk0
  obtain ⟨n, hn⟩ := h.block_kid k seg hb
  have hle : n + 20 ≤ k := (h.rising n).le hn
  exact ⟨n, seg, hn, h.kid_parent n _ hn, by omega⟩

theorem walk_append (g : Shape) (n : ℕ) (segs segs' : List Bytes) :
    g.walk n (segs ++ segs') = (g.walk n segs).bind (g.walk · segs') := by
  induction segs generalizing n with
  | nil => rfl
  | cons seg segs ih =>
    simp only [List.cons_append, walk, Option.bind_assoc, ih]

theorem walk_sound (h : g.Wf used) {n k : ℕ} {segs : List Bytes} (hn : g.IsNode n)
    (hw : g.walk n segs = some k) : g.IsNode k ∧ g.path k = g.path n ++ segs := by
  induction segs generalizing n with
  | nil =>
    obtain rfl : n = k := by simpa [walk] using hw
    exact ⟨hn, by simp⟩
  | cons seg segs ih =>
    obtain ⟨o, ho, hw⟩ := Option.bind_eq_some_iff.mp hw
    have hmem := SearchTree.mem_toList_of_find? ho
    obtain ⟨hk, hp⟩ := ih (h.isNode_kid hmem) hw
    refine ⟨hk, ?_⟩
    rw [hp, h.path_kid n _ hmem, List.append_assoc]
    rfl

/-- Every node is reached by walking its path. -/
theorem walk_path (h : g.Wf used) {k : ℕ} (hk : g.IsNode k) : g.walk 0 (g.path k) = some k := by
  induction k using Nat.strong_induction_on with
  | _ k ih =>
    by_cases hk0 : k = 0
    · rw [hk0, h.path_root, walk]
    obtain ⟨n, seg, hmem, hn, hlt⟩ := h.exists_parent hk hk0
    rw [h.path_kid n _ hmem, walk_append, ih n hlt hn, Option.bind_some, walk,
      SearchTree.find?_of_mem_toList (h.ordered n) hmem]
    rfl

/-- **The walk from the root reaches exactly the node with the given path.** -/
theorem walk_eq_some_iff (h : g.Wf used) {segs : List Bytes} {k : ℕ} :
    g.walk 0 segs = some k ↔ g.IsNode k ∧ g.path k = segs := by
  constructor
  · intro hw
    obtain ⟨hk, hp⟩ := h.walk_sound (.inl rfl) hw
    exact ⟨hk, by rw [hp, h.path_root, List.nil_append]⟩
  · rintro ⟨hk, rfl⟩
    exact h.walk_path hk

/-- The walk by one segment finds the node whose path is longer by it. -/
theorem find_kid_iff (h : g.Wf used) {n k : ℕ} (hn : g.IsNode n) {seg : Bytes} :
    (g.kids n).find? cmpPropName seg = some k ↔ g.IsNode k ∧ g.path k = g.path n ++ [seg] := by
  rw [← h.walk_eq_some_iff, walk_append, h.walk_path hn, Option.bind_some, walk]
  cases (g.kids n).find? cmpPropName seg <;> rfl

/-- Only nodes have sibling trees below them. -/
theorem kids_eq_nil (h : g.Wf used) {n : ℕ} (hn : ¬ g.IsNode n) : g.kids n = .nil := by
  cases hk : g.kids n with
  | nil => rfl
  | node s o l r => exact absurd (h.kid_parent n (s, o) (by simp [hk, SearchTree.toList])) hn

theorem path_injective (h : g.Wf used) {k k' : ℕ} (hk : g.IsNode k) (hk' : g.IsNode k')
    (hp : g.path k = g.path k') : k = k' := by
  have hw := h.walk_path hk
  rw [hp, h.walk_path hk'] at hw
  exact (Option.some.inj hw).symm

theorem path_ne_nil (h : g.Wf used) {k : ℕ} (hk : g.IsNode k) (hk0 : k ≠ 0) : g.path k ≠ [] := by
  obtain ⟨n, seg, hmem, -, -⟩ := h.exists_parent hk hk0
  rw [h.path_kid n _ hmem]
  simp

theorem path_segs (h : g.Wf used) {k : ℕ} (hk : g.IsNode k) :
    ∀ s ∈ g.path k, s ≠ [] ∧ 0 ∉ s ∧ dot ∉ s := by
  induction k using Nat.strong_induction_on with
  | _ k ih =>
    intro s hs
    by_cases hk0 : k = 0
    · rw [hk0, h.path_root] at hs
      simp at hs
    obtain ⟨n, seg, hmem, hn, hlt⟩ := h.exists_parent hk hk0
    rw [h.path_kid n _ hmem] at hs
    rcases List.mem_append.mp hs with hs | hs
    · exact ih n hlt hn s hs
    · obtain rfl : s = seg := by simpa using hs
      exact h.seg_ok k s (h.kid_block n _ hmem)

/-- The dotted path of a bound node splits back into the path. -/
theorem splitDot_path (h : g.Wf used) {k : ℕ} (hk : g.IsNode k) (hk0 : k ≠ 0) :
    splitDot (joinDot (g.path k)) = g.path k :=
  splitDot_joinDot (h.path_ne_nil hk hk0) fun s hs => (h.path_segs hk s hs).2.2

/-- **The entry of a name is the one at the node whose path the name spells.** -/
theorem lookup_eq_some_iff (h : g.Wf used) {name : Bytes} {e : Entry} :
    g.lookup name = some e ↔ ∃ k, g.entry k = some e ∧ joinDot (g.path k) = name := by
  rw [lookup, Option.bind_eq_some_iff]
  constructor
  · rintro ⟨k, hw, he⟩
    refine ⟨k, he, ?_⟩
    rw [(h.walk_eq_some_iff.mp hw).2, joinDot_splitDot]
  · rintro ⟨k, he, rfl⟩
    obtain ⟨hk, hk0⟩ := h.entry_node k e he
    exact ⟨k, h.walk_eq_some_iff.mpr ⟨hk, (h.splitDot_path hk hk0).symm⟩, he⟩

/-- The nodes of a path are there as soon as its last one is. -/
theorem hasPath_prefix (h : g.Wf used) {p q : List Bytes} (hq : g.HasPath q) (hp : p <+: q) :
    g.HasPath p := by
  obtain ⟨k, hk, rfl⟩ := hq
  obtain ⟨t, ht⟩ := hp
  have hw := h.walk_path hk
  rw [← ht, walk_append] at hw
  obtain ⟨j, hj, -⟩ := Option.bind_eq_some_iff.mp hw
  exact ⟨j, h.walk_eq_some_iff.mp hj⟩

theorem walk_eq_none_of_missing (g : Shape) {n : ℕ} {segs : List Bytes}
    (h : g.missing n segs ≠ []) : g.walk n segs = none := by
  induction segs generalizing n with
  | nil => exact absurd rfl h
  | cons seg segs ih =>
    rw [missing] at h
    rw [walk]
    cases hf : (g.kids n).find? cmpPropName seg with
    | none => rfl
    | some k =>
      rw [hf] at h
      exact ih h

/-- A name with a missing node is not bound. -/
theorem lookup_of_missing (g : Shape) {name : Bytes} (h : g.missing 0 (splitDot name) ≠ []) :
    g.lookup name = none := by
  rw [lookup, walk_eq_none_of_missing g h]
  rfl

/-- Two entries at one offset are bound at one node. -/
theorem entry_injective (h : g.Wf used) {k k' : ℕ} {e e' : Entry} (he : g.entry k = some e)
    (he' : g.entry k' = some e') (ho : e.off = e'.off) : k = k' := by
  have hb := h.layout.eq_of_off (h.entry_block k e he) (h.entry_block k' e' he') ho
  have hj : joinDot (g.path k) = joinDot (g.path k') := by
    injection hb with _ hobj
    exact Obj.entry.inj hobj
  obtain ⟨hk, hk0⟩ := h.entry_node k e he
  obtain ⟨hk', hk0'⟩ := h.entry_node k' e' he'
  refine h.path_injective hk hk' ?_
  rw [← h.splitDot_path hk hk0, hj, h.splitDot_path hk' hk0']

/-- An entry's name has only proper segments. -/
theorem nul_notMem_joinDot (h : g.Wf used) {k : ℕ} (hk : g.IsNode k) :
    0 ∉ joinDot (g.path k) := by
  have hs := h.path_segs hk
  generalize g.path k = segs at hs
  induction segs with
  | nil => simp [joinDot]
  | cons s segs ih =>
    have h0 : 0 ∉ s := (hs s (by simp)).2.1
    cases segs with
    | nil => exact h0
    | cons s' segs =>
      have hd : (0 : UInt8) ≠ dot := by decide
      rw [joinDot, List.mem_append, List.mem_cons]
      rintro (hm | hm | hm)
      · exact h0 hm
      · exact hd hm
      · exact ih (fun t ht => hs t (by simp_all)) hm

end Shape.Wf

/-! ### What the operations do to a shape -/

namespace Shape

/-- Allocate a block. -/
def alloc (g : Shape) (b : Block) : Shape := { g with blocks := g.blocks ++ [b] }

/-- Hang a new node of the given segment below `n`. -/
def grow (g : Shape) (n : ℕ) (seg : Bytes) (off : ℕ) : Shape where
  blocks := g.blocks ++ [⟨off, .node seg⟩]
  kids := Function.update g.kids n ((g.kids n).insert cmpPropName seg off)
  path := Function.update g.path off (g.path n ++ [seg])
  entry := g.entry

/-- Bind an entry at a node. -/
def bindEntry (g : Shape) (n : ℕ) (e : Entry) : Shape :=
  { g with entry := Function.update g.entry n (some e) }

variable {g : Shape} {used : ℕ}

theorem Wf.node_lt (h : g.Wf used) {n : ℕ} (hn : g.IsNode n) (hl : 112 ≤ used) :
    n + 20 ≤ used := by
  rcases hn with rfl | ⟨seg, hb⟩
  · omega
  · have hh := h.layout.high _ hb
    have he := PropertyAreaMap.nodeExtent_ge seg
    simp only [Block.stop, Obj.extent] at hh
    omega

theorem Wf.node_mod (h : g.Wf used) {n : ℕ} (hn : g.IsNode n) : n % 4 = 0 := by
  rcases hn with rfl | ⟨seg, hb⟩
  · rfl
  · exact h.layout.aligned _ hb

/-- Two nodes are the same or have disjoint headers. -/
theorem Wf.node_apart (h : g.Wf used) {n n' : ℕ} (hn : g.IsNode n) (hn' : g.IsNode n') :
    n = n' ∨ n + 20 ≤ n' ∨ n' + 20 ≤ n := by
  rcases hn with rfl | ⟨seg, hb⟩ <;> rcases hn' with rfl | ⟨seg', hb'⟩
  · exact .inl rfl
  · have := h.layout.low _ hb'
    simp only at this
    omega
  · have := h.layout.low _ hb
    simp only at this
    omega
  · have he := PropertyAreaMap.nodeExtent_ge seg
    have he' := PropertyAreaMap.nodeExtent_ge seg'
    rcases h.layout.disjoint hb hb' with heq | hd | hd
    · exact .inl (congrArg Block.off heq)
    all_goals
      simp only [Block.stop, Obj.extent] at hd
      omega

@[simp]
theorem isNode_alloc_entry {off n : ℕ} {name : Bytes} :
    (g.alloc ⟨off, .entry name⟩).IsNode n ↔ g.IsNode n := by
  simp [IsNode, alloc]

/-- Allocating something other than a node keeps the shape well formed. -/
theorem Wf.alloc (h : g.Wf used) {o : Obj} (ho : ∀ seg, o ≠ .node seg) (hm : used % 4 = 0)
    (hl : 112 ≤ used) : (g.alloc ⟨used, o⟩).Wf (used + o.extent) := by
  have hsub : ∀ b ∈ g.blocks, b ∈ (g.alloc ⟨used, o⟩).blocks := fun b hb =>
    List.mem_append_left _ hb
  have hnode : ∀ off seg, ⟨off, .node seg⟩ ∈ (g.alloc ⟨used, o⟩).blocks →
      ⟨off, .node seg⟩ ∈ g.blocks := by
    intro off seg hb
    rcases List.mem_append.mp hb with hb | hb
    · exact hb
    · have : Obj.node seg = o := congrArg Block.obj (List.mem_singleton.mp hb)
      exact absurd this.symm (ho seg)
  have hisn : ∀ n, g.IsNode n → (g.alloc ⟨used, o⟩).IsNode n := fun n hn =>
    hn.imp id fun ⟨seg, hb⟩ => ⟨seg, hsub _ hb⟩
  exact {
    layout := h.layout.snoc o hm hl
    kid_block := fun n p hp => hsub _ (h.kid_block n p hp)
    kid_parent := fun n p hp => hisn n (h.kid_parent n p hp)
    block_kid := fun off seg hb => h.block_kid off seg (hnode off seg hb)
    ordered := h.ordered
    rising := h.rising
    path_root := h.path_root
    path_kid := h.path_kid
    seg_ok := fun off seg hb => h.seg_ok off seg (hnode off seg hb)
    entry_node := fun n e he => ⟨hisn n (h.entry_node n e he).1, (h.entry_node n e he).2⟩
    entry_block := fun n e he => hsub _ (h.entry_block n e he)
    long_block := fun n e he hv => hsub _ (h.long_block n e he hv)
    entry_value := h.entry_value }

/-- Binding an entry whose blocks are allocated keeps the shape well formed. -/
theorem Wf.bindEntry (h : g.Wf used) {n : ℕ} {e : Entry} (hn : g.IsNode n) (hn0 : n ≠ 0)
    (hb : ⟨e.off, .entry (joinDot (g.path n))⟩ ∈ g.blocks)
    (hlong : propValueMax ≤ e.value.length →
      ⟨e.off + entryExtent (joinDot (g.path n)), .long e.value⟩ ∈ g.blocks)
    (hv : 0 ∉ e.value) : (g.bindEntry n e).Wf used := by
  have key : ∀ k e', (g.bindEntry n e).entry k = some e' →
      k = n ∧ e' = e ∨ k ≠ n ∧ g.entry k = some e' := by
    intro k e' he
    simp only [Shape.bindEntry, Function.update_apply] at he
    split_ifs at he with hk
    · exact .inl ⟨hk, (Option.some.inj he).symm⟩
    · exact .inr ⟨hk, he⟩
  refine ⟨h.layout, h.kid_block, h.kid_parent, h.block_kid, h.ordered, h.rising, h.path_root,
    h.path_kid, h.seg_ok, ?_, ?_, ?_, ?_⟩
  all_goals
    intro k e' he
    rcases key k e' he with ⟨rfl, rfl⟩ | ⟨-, he⟩
  · exact ⟨hn, hn0⟩
  · exact h.entry_node k e' he
  · exact hb
  · exact h.entry_block k e' he
  · exact hlong
  · exact h.long_block k e' he
  · exact hv
  · exact h.entry_value k e' he

section Grow

variable {n : ℕ} {seg : Bytes}

theorem isNode_grow {off k : ℕ} : (g.grow n seg off).IsNode k ↔ g.IsNode k ∨ k = off := by
  simp only [IsNode, grow, List.mem_append, List.mem_singleton, Block.mk.injEq, Obj.node.injEq]
  constructor
  · rintro (h | ⟨s, h | ⟨h, -⟩⟩)
    · exact .inl (.inl h)
    · exact .inl (.inr ⟨s, h⟩)
    · exact .inr h
  · rintro ((h | ⟨s, h⟩) | h)
    · exact .inl h
    · exact .inr ⟨s, .inl h⟩
    · exact .inr ⟨seg, .inr ⟨h, rfl⟩⟩

theorem path_grow_of_ne {off k : ℕ} (h : k ≠ off) : (g.grow n seg off).path k = g.path k :=
  Function.update_of_ne h _ _

theorem mem_kids_grow {off : ℕ} (hf : (g.kids n).find? cmpPropName seg = none) {k : ℕ}
    {p : Bytes × ℕ} : p ∈ ((g.grow n seg off).kids k).toList ↔
      k = n ∧ p = (seg, off) ∨ p ∈ (g.kids k).toList := by
  simp only [grow, Function.update_apply]
  split_ifs with hk
  · rw [SearchTree.mem_toList_insert hf, hk]
    simp
  · simp [hk]

/-- A new node at the end of the allocated region keeps the shape well formed. -/
theorem Wf.grow (h : g.Wf used) (hn : g.IsNode n)
    (hf : (g.kids n).find? cmpPropName seg = none) (hseg : seg ≠ [] ∧ 0 ∉ seg ∧ dot ∉ seg)
    (hm : used % 4 = 0) (hl : 112 ≤ used) :
    (g.grow n seg used).Wf (used + PropertyAreaMap.nodeExtent seg) := by
  have hlt : ∀ k, g.IsNode k → k ≠ used := fun k hk => by
    have := h.node_lt hk hl
    omega
  have hsub : ∀ b ∈ g.blocks, b ∈ (g.grow n seg used).blocks := fun b hb =>
    List.mem_append_left _ hb
  have hblock : ∀ off s, ⟨off, .node s⟩ ∈ (g.grow n seg used).blocks →
      ⟨off, .node s⟩ ∈ g.blocks ∨ off = used ∧ s = seg := by
    intro off s hb
    rcases List.mem_append.mp hb with hb | hb
    · exact .inl hb
    · exact .inr (by simpa using hb)
  have hpath : ∀ k, g.IsNode k → (g.grow n seg used).path k = g.path k := fun k hk =>
    path_grow_of_ne (hlt k hk)
  have hnew : (g.grow n seg used).path used = g.path n ++ [seg] := Function.update_self _ _ _
  exact {
    layout := h.layout.snoc (.node seg) hm hl
    kid_block := by
      intro k p hp
      rcases (mem_kids_grow hf).mp hp with ⟨-, rfl⟩ | hp
      · exact List.mem_append_right _ (by simp)
      · exact hsub _ (h.kid_block k p hp)
    kid_parent := by
      intro k p hp
      rcases (mem_kids_grow hf).mp hp with ⟨rfl, -⟩ | hp
      · exact isNode_grow.mpr (.inl hn)
      · exact isNode_grow.mpr (.inl (h.kid_parent k p hp))
    block_kid := by
      intro off s hb
      rcases hblock off s hb with hb | ⟨rfl, rfl⟩
      · obtain ⟨k, hk⟩ := h.block_kid off s hb
        exact ⟨k, (mem_kids_grow hf).mpr (.inr hk)⟩
      · exact ⟨n, (mem_kids_grow hf).mpr (.inl ⟨rfl, rfl⟩)⟩
    ordered := by
      intro k
      simp only [Shape.grow, Function.update_apply]
      split_ifs
      · exact SearchTree.ordered_insert (h.ordered n) hf
      · exact h.ordered k
    rising := by
      intro k
      simp only [Shape.grow, Function.update_apply]
      split_ifs with hk
      · refine hk ▸ (h.rising n).insert seg (h.node_lt hn hl) fun p hp => ?_
        exact h.node_lt (h.isNode_kid hp) hl
      · exact h.rising k
    path_root := by rw [hpath 0 (.inl rfl), h.path_root]
    path_kid := by
      intro k p hp
      rcases (mem_kids_grow hf).mp hp with ⟨rfl, rfl⟩ | hp
      · rw [hnew, hpath k hn]
      · rw [hpath p.2 (h.isNode_kid hp), hpath k (h.kid_parent k p hp), h.path_kid k p hp]
    seg_ok := by
      intro off s hb
      rcases hblock off s hb with hb | ⟨-, rfl⟩
      · exact h.seg_ok off s hb
      · exact hseg
    entry_node := fun k e he =>
      ⟨isNode_grow.mpr (.inl (h.entry_node k e he).1), (h.entry_node k e he).2⟩
    entry_block := fun k e he => by
      rw [hpath k (h.entry_node k e he).1]
      exact hsub _ (h.entry_block k e he)
    long_block := fun k e he hv => by
      rw [hpath k (h.entry_node k e he).1]
      exact hsub _ (h.long_block k e he hv)
    entry_value := h.entry_value }

end Grow

end Shape

end RsProperties
