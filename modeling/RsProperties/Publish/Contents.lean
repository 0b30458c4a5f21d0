import RsProperties.PropertyArea.Add
import RsProperties.Library.Interference

/-!
# What the other processes may rely on

`Published` is a shape that fits an area. While a writer runs, the published shape only grows
(`Shape.Grows`): no node and no entry ever goes or moves, and a search only meets more nodes behind
those it has met before. `Stored` is what the bytes say of it: every published node and entry is
completely in place. It says nothing about `bytes_used` and the space behind the published blocks,
which is where the writer works.

A lookup needs less. A `Skeleton` is published contents of which only the nodes and the links count
(`Linked`), and it has grown as well where an entry has taken another value (`Shape.Spreads`). The
writer in turn promises more: it stores into no published entry and not into the backup slot, which
`Framed` contents record by a memory that agrees with the current one there (`Kept`).
-/

namespace RsProperties

open ByteMem PropertyAreaMap

/-- A shape has grown: nothing in it has gone or moved. -/
structure Shape.Grows (g g' : Shape) : Prop where
  blocks : g.blocks ⊆ g'.blocks
  path : ∀ n, g.IsNode n → g'.path n = g.path n
  descent : ∀ n seg,
    (g.kids n).descent cmpPropName seg <+: (g'.kids n).descent cmpPropName seg
  entry : ∀ n e, g.entry n = some e → g'.entry n = some e

namespace Shape.Grows

variable {g g' g'' : Shape}

theorem refl (g : Shape) : g.Grows g :=
  ⟨List.Subset.refl _, fun _ _ => rfl, fun _ _ => List.prefix_rfl, fun _ _ h => h⟩

theorem isNode (h : g.Grows g') {n : ℕ} (hn : g.IsNode n) : g'.IsNode n :=
  hn.imp id fun ⟨seg, hb⟩ => ⟨seg, h.blocks hb⟩

theorem trans (h : g.Grows g') (h' : g'.Grows g'') : g.Grows g'' :=
  ⟨List.Subset.trans h.blocks h'.blocks, fun n hn => (h'.path n (h.isNode hn)).trans (h.path n hn),
    fun n seg => (h.descent n seg).trans (h'.descent n seg),
    fun n e he => h'.entry n e (h.entry n e he)⟩

theorem find (h : g.Grows g') {n k : ℕ} {seg : Bytes}
    (hf : (g.kids n).find? cmpPropName seg = some k) :
    (g'.kids n).find? cmpPropName seg = some k := by
  rw [SearchTree.find?_eq_some_iff_mem_descent] at hf ⊢
  exact (h.descent n seg).subset hf

/-- A walk that reaches a node keeps reaching it. -/
theorem walk (h : g.Grows g') {n k : ℕ} {segs : List Bytes} (hw : g.walk n segs = some k) :
    g'.walk n segs = some k := by
  induction segs generalizing n with
  | nil => exact hw
  | cons seg segs ih =>
    obtain ⟨j, hj, hw⟩ := Option.bind_eq_some_iff.mp hw
    exact Option.bind_eq_some_iff.mpr ⟨j, h.find hj, ih hw⟩

/-- A bound name keeps its entry. -/
theorem lookup (h : g.Grows g') {name : Bytes} {e : Entry} (hl : g.lookup name = some e) :
    g'.lookup name = some e := by
  obtain ⟨k, hw, he⟩ := Option.bind_eq_some_iff.mp hl
  exact Option.bind_eq_some_iff.mpr ⟨k, h.walk hw, h.entry k e he⟩

/-- Allocating a block that holds no node. -/
theorem alloc (g : Shape) (b : Block) : g.Grows (g.alloc b) :=
  ⟨List.subset_append_left _ _, fun _ _ => rfl, fun _ _ => List.prefix_rfl, fun _ _ h => h⟩

/-- Hanging a new node into a sibling tree. -/
theorem grow {used : ℕ} (hw : g.Wf used) (hl : 112 ≤ used) (n : ℕ) (seg : Bytes) :
    g.Grows (g.grow n seg used) := by
  have hext := Shape.Extends.grow hw hl n seg
  refine ⟨hext.blocks, hext.path, fun k s => ?_, fun k e he => hext.entry ▸ he⟩
  simp only [Shape.grow, Function.update_apply]
  split_ifs with hk
  · rw [hk]
    exact SearchTree.descent_prefix_insert _ _ _ _
  · exact List.prefix_rfl

/-- Binding an entry where there was none. -/
theorem bindEntry {n : ℕ} (hn : g.entry n = none) (e : Entry) : g.Grows (g.bindEntry n e) := by
  refine ⟨List.Subset.refl _, fun _ _ => rfl, fun _ _ => List.prefix_rfl, fun k e' he' => ?_⟩
  have hk : k ≠ n := by
    rintro rfl
    rw [hn] at he'
    cases he'
  exact (Function.update_of_ne hk _ _).trans he'

/-- Allocating the blocks of a new entry. -/
theorem allocEntry (g : Shape) (off : ℕ) (name value : Bytes) :
    g.Grows (g.allocEntry off name value) := by
  rw [Shape.allocEntry]
  split_ifs
  · exact (alloc _ _).trans (alloc _ _)
  · exact alloc _ _

end Shape.Grows

/-- A shape has grown, but for the values of its entries. -/
structure Shape.Spreads (g g' : Shape) : Prop where
  blocks : g.blocks ⊆ g'.blocks
  path : ∀ n, g.IsNode n → g'.path n = g.path n
  descent : ∀ n seg,
    (g.kids n).descent cmpPropName seg <+: (g'.kids n).descent cmpPropName seg
  entry : ∀ n e, g.entry n = some e → ∃ e', g'.entry n = some e' ∧ e'.off = e.off

theorem Shape.Grows.spreads {g g' : Shape} (h : g.Grows g') : g.Spreads g' :=
  ⟨h.blocks, h.path, h.descent, fun n e he => ⟨e, h.entry n e he, rfl⟩⟩

namespace Shape.Spreads

variable {g g' g'' : Shape}

theorem isNode (h : g.Spreads g') {n : ℕ} (hn : g.IsNode n) : g'.IsNode n :=
  hn.imp id fun ⟨seg, hb⟩ => ⟨seg, h.blocks hb⟩

theorem trans (h : g.Spreads g') (h' : g'.Spreads g'') : g.Spreads g'' := by
  refine ⟨List.Subset.trans h.blocks h'.blocks,
    fun n hn => (h'.path n (h.isNode hn)).trans (h.path n hn),
    fun n seg => (h.descent n seg).trans (h'.descent n seg), fun n e he => ?_⟩
  obtain ⟨e', he', ho⟩ := h.entry n e he
  obtain ⟨e'', he'', ho'⟩ := h'.entry n e' he'
  exact ⟨e'', he'', ho'.trans ho⟩

theorem find (h : g.Spreads g') {n k : ℕ} {seg : Bytes}
    (hf : (g.kids n).find? cmpPropName seg = some k) :
    (g'.kids n).find? cmpPropName seg = some k := by
  rw [SearchTree.find?_eq_some_iff_mem_descent] at hf ⊢
  exact (h.descent n seg).subset hf

/-- A walk that reaches a node keeps reaching it. -/
theorem walk (h : g.Spreads g') {n k : ℕ} {segs : List Bytes} (hw : g.walk n segs = some k) :
    g'.walk n segs = some k := by
  induction segs generalizing n with
  | nil => exact hw
  | cons seg segs ih =>
    obtain ⟨j, hj, hw⟩ := Option.bind_eq_some_iff.mp hw
    exact Option.bind_eq_some_iff.mpr ⟨j, h.find hj, ih hw⟩

/-- A bound name keeps its entry's place. -/
theorem lookup (h : g.Spreads g') {name : Bytes} {e : Entry} (hl : g.lookup name = some e) :
    ∃ e', g'.lookup name = some e' ∧ e'.off = e.off := by
  obtain ⟨k, hw, he⟩ := Option.bind_eq_some_iff.mp hl
  obtain ⟨e', he', ho⟩ := h.entry k e he
  exact ⟨e', Option.bind_eq_some_iff.mpr ⟨k, h.walk hw, he'⟩, ho⟩

/-- An entry takes another value. -/
theorem revalue {n : ℕ} {e : Entry} (he : g.entry n = some e) (value : Bytes) :
    g.Spreads (g.bindEntry n ⟨e.off, value⟩) := by
  refine ⟨List.Subset.refl _, fun _ _ => rfl, fun _ _ => List.prefix_rfl, fun k e' he' => ?_⟩
  by_cases hk : k = n
  · subst hk
    obtain rfl := Option.some.inj (he.symm.trans he')
    exact ⟨_, Function.update_self _ _ _, rfl⟩
  · exact ⟨e', (Function.update_of_ne hk _ _).trans he', rfl⟩

end Shape.Spreads

namespace Publish

/-- A shape that fits an area. -/
structure Published where
  shape : Shape
  used : ℕ
  wf : shape.Wf used
  fits : used ≤ 130944

instance : Preorder Published where
  le c c' := c.shape.Grows c'.shape
  le_refl c := .refl c.shape
  le_trans _ _ _ := .trans

/-- Published contents of which the nodes and the links count. -/
structure Skeleton extends Published

instance : Preorder Skeleton where
  le c c' := c.shape.Spreads c'.shape
  le_refl c := Shape.Grows.spreads (.refl c.shape)
  le_trans _ _ _ := .trans

/-- The bytes hold the nodes and the links of a shape. -/
structure Linked (m : Mem) (g : Shape) : Prop where
  children : ∀ n, g.IsNode n → linkAt m n .children = rootOff (g.kids n)
  prop : ∀ n, g.IsNode n → linkAt m n .prop = ((g.entry n).map Entry.off).getD 0
  tree : ∀ n, TreeAt m (g.kids n)

/-- The bytes hold the published shape. -/
def Stored (c : Published) (m : Mem) : Prop := Rep m c.shape

theorem Stored.linked {c : Published} {m : Mem} (h : Stored c m) : Linked m c.shape :=
  ⟨h.children, h.prop, h.tree⟩

/-- Every published value has been passed for its name. -/
def Published.From (calls : Bytes → Bytes → Prop) (c : Published) : Prop :=
  ∀ name e, c.shape.lookup name = some e → calls name e.value

/-- An area under the writers' invariant has published its shape. -/
def Published.ofInv {pa : PropertyAreaMap} {g : Shape} (h : AreaInv pa g) : Published :=
  ⟨g, pa.bytesUsed, h.wf, h.basic.used_high⟩

theorem Published.low (c : Published) : 112 ≤ c.used := by
  have := c.wf.layout.total
  omega

/-- The backup slot and the entries of `g`, with their values, are as they were. -/
structure Kept (g : Shape) (m m' : Mem) : Prop where
  backup : SameOn m m' 148 240
  block : ∀ b ∈ g.blocks, (∀ seg, b.obj ≠ .node seg) → SameOn m m' (b.off + 128) (b.stop + 128)

theorem Kept.refl (g : Shape) (m : Mem) : Kept g m m := ⟨.refl _ _ _, fun _ _ _ => .refl _ _ _⟩

theorem Kept.trans {g g' : Shape} {m m' m'' : Mem} (h : Kept g m m') (h' : Kept g' m' m'')
    (hsub : g.blocks ⊆ g'.blocks) : Kept g m m'' :=
  ⟨h.backup.trans h'.backup, fun b hb ho => (h.block b hb ho).trans (h'.block b (hsub hb) ho)⟩

theorem Kept.symm {g : Shape} {m m' : Mem} (h : Kept g m m') : Kept g m' m :=
  ⟨h.backup.symm, fun b hb ho => (h.block b hb ho).symm⟩

/-- Published contents with a memory that agrees with the current one on their entries. -/
structure Framed extends Published where
  mem : Mem

instance : Preorder Framed where
  le c c' := c.toPublished ≤ c'.toPublished ∧ Kept c.shape c.mem c'.mem
  le_refl c := ⟨le_rfl, .refl _ _⟩
  le_trans _ _ _ h h' := ⟨h.1.trans h'.1, h.2.trans h'.2 h.1.blocks⟩

/-- Stores behind the published blocks and to the `bytes_used` word are not seen. -/
theorem Stored.of_sameOn {c : Published} {m m' : Mem} (h : Stored c m)
    (hs : SameOn m m' 4 (c.used + 128)) : Stored c m' := by
  have hlow := c.low
  refine h.congr_blocks c.wf (hs.mono (by omega) (by omega)) fun b hb => ?_
  have := c.wf.layout.high b hb
  exact hs.mono (by omega) (by omega)

end Publish

end RsProperties
