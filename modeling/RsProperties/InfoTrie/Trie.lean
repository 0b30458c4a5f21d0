import RsProperties.InfoTrie.Serializer

/-!
# The trie as a lookup structure

The lookup on the built trie itself, in terms of strings: a walk along the segments of a name that picks up
contexts and types on its way. This is the middle layer between the parser, which computes the same walk over
the bytes of the image, and the rule list, which decides what stands at every node.
-/

namespace RsProperties.InfoTrie

open ByteMem

/-- A string the image can store: NUL-free UTF-8. -/
structure Text (s : Bytes) : Prop where
  nul : 0 ∉ s
  utf8 : Utf8.valid s = true

/-- The name of an entry or a node below the root. -/
structure SegName (s : Bytes) : Prop extends Text s where
  ne_nil : s ≠ []

/-- A table the binary search can be trusted on: strictly sorted, and made of storable strings. -/
structure TableOk (strings : List Bytes) : Prop where
  sorted : strings.Pairwise fun a b => compare a b = .lt
  text : ∀ s ∈ strings, Text s

/-! ### What a lookup has found so far -/

/-- The newer of two optional strings; an empty string does not count. -/
def pick (new old : Option Bytes) : Option Bytes := if new.getD [] = [] then old else new

structure Found where
  context : Option Bytes
  type : Option Bytes
  deriving DecidableEq, Repr

/-- Take over what an entry says. -/
def Found.take (found : Found) (entry : PropertyEntryBuilder) : Found where
  context := pick entry.context found.context
  type := pick entry.rtype found.type

/-- Take over what an entry says, if there is one. -/
def Found.takeAny (found : Found) (entry : Option PropertyEntryBuilder) : Found :=
  entry.elim found found.take

/-! ### Nodes -/

/-- The child with the given key. -/
def child (node : TrieBuilderNode) (seg : Bytes) : Option TrieBuilderNode :=
  node.children.find? fun c => decide (c.key = seg)

/-- The node at the end of a path. -/
def get? : List Bytes → TrieBuilderNode → Option TrieBuilderNode
  | [], node => some node
  | seg :: segs, node => (child node seg).bind (get? segs)

/-- The first prefix entry, in the order of the image, that matches. -/
def firstPrefix (node : TrieBuilderNode) (remaining : Bytes) : Option PropertyEntryBuilder :=
  node.sortedPrefixMatches.find? fun e => e.name.isPrefixOf remaining

/-- The exact entry of the given name. -/
def exactMatch (node : TrieBuilderNode) (remaining : Bytes) : Option PropertyEntryBuilder :=
  node.sortedExactMatches.find? fun e => decide (e.name = remaining)

/-- The walk along the segments of a name. -/
def walk : List Bytes → TrieBuilderNode → Found → TrieBuilderNode × Bytes × Found
  | [], node, found => (node, [], found)
  | seg :: segs, node, found =>
    let remaining := joinDot (seg :: segs)
    let found := (found.take node.propertyEntry).takeAny (firstPrefix node remaining)
    if segs = [] then (node, remaining, found)
    else
      match child node seg with
      | some c => walk segs c found
      | none => (node, remaining, found)

/-- The lookup: the walk, then the exact entries of the node it ends at, then the prefix entries once
more. -/
def lookup (root : TrieBuilderNode) (name : Bytes) : Found :=
  let (node, remaining, found) := walk (splitDot name) root ⟨none, none⟩
  match exactMatch node remaining with
  | some e => found.take e
  | none => found.takeAny (firstPrefix node remaining)

/-! ### Well-formed tries -/

/-- All names of a node are names, and its children have distinct keys. -/
structure NodeOk (node : TrieBuilderNode) : Prop where
  prefixes : ∀ e ∈ node.prefixes, SegName e.name
  exactMatches : ∀ e ∈ node.exactMatches, SegName e.name
  children : ∀ c ∈ node.children, SegName c.key
  nodup : (node.children.map TrieBuilderNode.key).Nodup

/-- Every node of the trie is well-formed. -/
def TreeOk (root : TrieBuilderNode) : Prop := ∀ path node, get? path root = some node → NodeOk node

theorem TreeOk.root {root : TrieBuilderNode} (h : TreeOk root) : NodeOk root := h [] root rfl

theorem TreeOk.child {root c : TrieBuilderNode} (h : TreeOk root) {seg : Bytes}
    (hc : child root seg = some c) : TreeOk c := by
  intro path node hn
  refine h (seg :: path) node ?_
  rw [get?, hc]
  exact hn

theorem child_eq_some {node c : TrieBuilderNode} {seg : Bytes} (h : child node seg = some c) :
    c ∈ node.children ∧ c.key = seg :=
  ⟨List.mem_of_find?_eq_some h, by simpa using List.find?_some h⟩

/-- With distinct keys, a child is found under its key. -/
theorem child_of_mem {node c : TrieBuilderNode} (h : (node.children.map TrieBuilderNode.key).Nodup)
    (hc : c ∈ node.children) : child node c.key = some c := by
  unfold child
  generalize node.children = cs at h hc
  induction cs with
  | nil => cases hc
  | cons d cs ih =>
    rw [List.map_cons, List.nodup_cons] at h
    rcases List.mem_cons.mp hc with rfl | hc
    · simp
    · have hne : d.key ≠ c.key := fun e => h.1 (e ▸ List.mem_map_of_mem hc)
      rw [List.find?_cons_of_neg (by simpa using hne)]
      exact ih h.2 hc

/-! ### The sorted arrays -/

section Orders

variable {α : Type} (cmp : α → α → Ordering) [Std.TransCmp cmp]

theorem isLE_total (a b : α) : (cmp a b).isLE = true ∨ (cmp b a).isLE = true := by
  have h : cmp a b = (cmp b a).swap := Std.OrientedCmp.eq_swap
  rw [h]
  cases cmp b a <;> simp

theorem pairwise_sorted {r : α → α → Prop} [DecidableRel r]
    (hr : ∀ a b, r a b ↔ (cmp a b).isLE = true) (l : List α) : (l.insertionSort r).Pairwise r := by
  have : Std.Total r := ⟨fun a b => by simpa only [hr] using isLE_total cmp a b⟩
  have : IsTrans α r := ⟨fun a b c => by simpa only [hr] using Std.TransCmp.isLE_trans⟩
  exact List.pairwise_insertionSort r l

end Orders

/-- The comparison behind `prefixOrder`. -/
def prefixCmp : PropertyEntryBuilder → PropertyEntryBuilder → Ordering :=
  compareLex (fun a b => compareOn (fun e : PropertyEntryBuilder => e.name.length) b a)
    (compareOn PropertyEntryBuilder.name)

instance : Std.TransCmp prefixCmp := by
  have : Std.TransCmp fun a b => compareOn (fun e : PropertyEntryBuilder => e.name.length) b a :=
    Std.TransCmp.opposite
  unfold prefixCmp
  infer_instance

/-- In the order of the image, longer prefixes come first. -/
theorem pairwise_sortedPrefixMatches (node : TrieBuilderNode) :
    node.sortedPrefixMatches.Pairwise fun a b => b.name.length ≤ a.name.length := by
  refine (pairwise_sorted prefixCmp (fun _ _ => Iff.rfl) node.prefixes).imp fun {a b} h => ?_
  have h : ((compare b.name.length a.name.length).then (compare a.name b.name)).isLE = true := h
  cases hc : compare b.name.length a.name.length with
  | lt => exact (Nat.compare_eq_lt.mp hc).le
  | eq => exact (Nat.compare_eq_eq.mp hc).le
  | gt =>
    rw [hc] at h
    cases h

/-- The children of a node, strictly sorted by key. -/
theorem pairwise_sortedChildren {node : TrieBuilderNode}
    (h : (node.children.map TrieBuilderNode.key).Nodup) :
    (node.sortedChildren.map TrieBuilderNode.key).Pairwise fun a b => compare a b = .lt := by
  have hle : (node.sortedChildren.map TrieBuilderNode.key).Pairwise
      fun a b => (compare a b).isLE = true :=
    List.pairwise_map.mpr
      (pairwise_sorted (compareOn TrieBuilderNode.key) (fun _ _ => Iff.rfl) node.children)
  have hperm := (List.perm_insertionSort childOrder node.children).map TrieBuilderNode.key
  have hne : (node.sortedChildren.map TrieBuilderNode.key).Nodup := hperm.nodup_iff.mpr h
  refine (hle.and hne).imp fun {a b} hab => ?_
  obtain ⟨hab, hne⟩ := hab
  cases hc : compare a b with
  | lt => rfl
  | eq => exact absurd (Std.LawfulEqCmp.eq_of_compare hc) hne
  | gt =>
    rw [hc] at hab
    cases hab

theorem mem_sortedChildren {node c : TrieBuilderNode} :
    c ∈ node.sortedChildren ↔ c ∈ node.children :=
  (List.perm_insertionSort childOrder node.children).mem_iff

theorem mem_sortedPrefixMatches {node : TrieBuilderNode} {e : PropertyEntryBuilder} :
    e ∈ node.sortedPrefixMatches ↔ e ∈ node.prefixes :=
  (List.perm_insertionSort prefixOrder node.prefixes).mem_iff

theorem mem_sortedExactMatches {node : TrieBuilderNode} {e : PropertyEntryBuilder} :
    e ∈ node.sortedExactMatches ↔ e ∈ node.exactMatches :=
  (List.perm_insertionSort entryOrder node.exactMatches).mem_iff

end RsProperties.InfoTrie
