import RsProperties.InfoTrie.Size
import Mathlib.Data.Multiset.Basic

/-!
# The image does not depend on any order

The builder puts its entries and nodes into hash sets and maps, in the order of the rules, and the serializer
iterates over them in whatever order these containers have. None of this reaches the bytes of the image: each
array is sorted by a key that is unique in it, so the serializer sees a trie only through the contents of its
levels (`writeTrieNode_congr`), and the contents of the levels are those of the set of rules.
-/

namespace RsProperties.InfoTrie

open ByteMem TrieBuilderNode TrieNodeArena StateExcept TrieSerializer PropertyInfoEntry

/-! ### Tries up to the order of their containers -/

/-- The trie with the containers of each of its nodes in another order. -/
inductive Reordered : TrieBuilderNode → TrieBuilderNode → Prop
  | mk {a b : TrieBuilderNode} {children : List TrieBuilderNode}
      (entry : a.propertyEntry = b.propertyEntry) (prefixes : a.prefixes.Perm b.prefixes)
      (exactMatches : a.exactMatches.Perm b.exactMatches) (perm : a.children.Perm children)
      (below : List.Forall₂ Reordered children b.children) : Reordered a b

theorem Reordered.refl (node : TrieBuilderNode) : Reordered node node := by
  obtain ⟨entry, prefixes, exactMatches, children⟩ := node
  exact .mk rfl (.refl _) (.refl _) (.refl _)
    (List.forall₂_same.mpr fun child _ => Reordered.refl child)

/-- The contents of a level, without the order of its entries. -/
structure Contents where
  entry : PropertyEntryBuilder
  prefixes : Multiset PropertyEntryBuilder
  exactMatches : Multiset PropertyEntryBuilder

def Level.contents (l : Level) : Contents where
  entry := l.entry
  prefixes := l.prefixes
  exactMatches := l.exactMatches

/-- The trie as the contents of its levels. -/
def contents (root : TrieBuilderNode) (path : List Bytes) : Option Contents :=
  (flat root path).map Level.contents

theorem contents_nil (root : TrieBuilderNode) :
    contents root [] = some (level root).contents := rfl

theorem contents_cons (root : TrieBuilderNode) (seg : Bytes) (path : List Bytes) :
    contents root (seg :: path) = (child root seg).bind fun c => contents c path := by
  rw [contents, flat_cons]
  cases child root seg <;> rfl

/-- In each array of a node, no two items have the same key. -/
structure NamesOk (node : TrieBuilderNode) : Prop where
  prefixes : (node.prefixes.map PropertyEntryBuilder.name).Nodup
  exactMatches : (node.exactMatches.map PropertyEntryBuilder.name).Nodup
  children : (node.children.map key).Nodup

/-- Everywhere in the trie. -/
def Distinct (root : TrieBuilderNode) : Prop := ∀ path node, get? path root = some node → NamesOk node

theorem Distinct.root {root : TrieBuilderNode} (h : Distinct root) : NamesOk root := h [] root rfl

theorem Distinct.child {root c : TrieBuilderNode} (h : Distinct root) {seg : Bytes}
    (hc : child root seg = some c) : Distinct c := by
  intro path node hn
  refine h (seg :: path) node ?_
  rw [get?, hc]
  exact hn

section Reorder

variable {a b : TrieBuilderNode}

theorem Reordered.key (h : Reordered a b) : a.key = b.key := by
  cases h with
  | mk entry => exact congrArg PropertyEntryBuilder.name entry

/-- The children of a reordered node, under the same keys. -/
theorem Reordered.children (h : Reordered a b) : ∃ children, a.children.Perm children ∧
    (∀ d ∈ b.children, ∃ c ∈ children, Reordered c d) ∧
    children.map TrieBuilderNode.key = b.children.map TrieBuilderNode.key := by
  cases h with
  | @mk _ _ children _ _ _ perm below =>
    refine ⟨children, perm, ?_⟩
    clear perm
    generalize b.children = ds at below
    induction below with
    | nil => exact ⟨by simp, rfl⟩
    | @cons c d cs ds hcd _ ih =>
      obtain ⟨hmem, hkeys⟩ := ih
      refine ⟨fun d' hd' => ?_, by rw [List.map_cons, List.map_cons, hcd.key, hkeys]⟩
      rcases List.mem_cons.mp hd' with rfl | hd'
      · exact ⟨c, by simp, hcd⟩
      · obtain ⟨c', hc', h'⟩ := hmem d' hd'
        exact ⟨c', List.mem_cons_of_mem _ hc', h'⟩

theorem Reordered.namesOk (h : Reordered a b) (ha : NamesOk a) : NamesOk b := by
  obtain ⟨children, perm, -, hkeys⟩ := h.children
  cases h with
  | mk _ prefixes exactMatches =>
    refine ⟨(prefixes.map _).nodup_iff.mp ha.prefixes,
      (exactMatches.map _).nodup_iff.mp ha.exactMatches, ?_⟩
    rw [← hkeys]
    exact (perm.map _).nodup_iff.mp ha.children

/-- A child of a reordered node is a child of the node, reordered. -/
theorem Reordered.child (h : Reordered a b) (ha : NamesOk a) (seg : Bytes) :
    (child a seg = none ∧ child b seg = none) ∨
      ∃ c d, child a seg = some c ∧ child b seg = some d ∧ Reordered c d := by
  obtain ⟨children, perm, below, hkeys⟩ := h.children
  have hb := h.namesOk ha
  cases hd : InfoTrie.child b seg with
  | some d =>
    obtain ⟨hmem, rfl⟩ := child_eq_some hd
    obtain ⟨c, hc, hcd⟩ := below d hmem
    refine .inr ⟨c, d, ?_, rfl, hcd⟩
    rw [← hcd.key]
    exact child_of_mem ha.children (perm.mem_iff.mpr hc)
  | none =>
    cases hc : InfoTrie.child a seg with
    | none => exact .inl ⟨rfl, rfl⟩
    | some c =>
      obtain ⟨hmem, rfl⟩ := child_eq_some hc
      have hkey : c.key ∈ b.children.map TrieBuilderNode.key := by
        rw [← hkeys]
        exact List.mem_map_of_mem (perm.mem_iff.mp hmem)
      obtain ⟨d, hmem', hk⟩ := List.mem_map.mp hkey
      rw [← hk, child_of_mem hb.children hmem'] at hd
      cases hd

/-- **Another order** of the containers changes no level and makes no name occur twice. -/
theorem Reordered.contents_eq (h : Reordered a b) (ha : Distinct a) :
    contents b = contents a ∧ Distinct b := by
  refine ⟨funext fun path => ?_, fun path => ?_⟩
  · induction path generalizing a b with
    | nil =>
      cases h with
      | mk entry prefixes exactMatches =>
        simp only [contents_nil, Level.contents, level, entry, Multiset.coe_eq_coe.mpr prefixes,
          Multiset.coe_eq_coe.mpr exactMatches]
    | cons seg path ih =>
      rw [contents_cons, contents_cons]
      rcases h.child ha.root seg with ⟨hc, hd⟩ | ⟨c, d, hc, hd, hcd⟩
      · rw [hc, hd]
      · rw [hc, hd]
        exact ih hcd (ha.child hc)
  · induction path generalizing a b with
    | nil =>
      intro node hn
      cases hn
      exact h.namesOk ha.root
    | cons seg path ih =>
      intro node hn
      rw [get?] at hn
      rcases h.child ha.root seg with ⟨hc, hd⟩ | ⟨c, d, hc, hd, hcd⟩
      · rw [hd] at hn
        cases hn
      · rw [hd] at hn
        exact ih hcd (ha.child hc) node hn

end Reorder

/-! ### The serializer -/

/-- A strictly sorted list is determined by its members. -/
theorem eq_of_sorted {l l' : List Bytes} (h : l.Pairwise fun a b => compare a b = .lt)
    (h' : l'.Pairwise fun a b => compare a b = .lt) (hmem : ∀ s, s ∈ l ↔ s ∈ l') : l = l' := by
  have hlt : ∀ a b : Bytes, compare a b = .lt → compare b a = .lt → a = b := fun a b hab hba => by
    rw [Std.OrientedCmp.gt_of_lt hab] at hba
    cases hba
  have hnodup : ∀ {l : List Bytes}, l.Pairwise (fun a b => compare a b = .lt) → l.Nodup := fun h =>
    h.imp fun {a b} hab he => by
      have hself : compare b b = .eq := Std.ReflCmp.compare_self
      rw [he, hself] at hab
      cases hab
  have hperm := (List.perm_ext_iff_of_nodup (hnodup h) (hnodup h')).mpr hmem
  exact hperm.eq_of_pairwise (fun a b _ _ => hlt a b) h h'

/-- Sorting by a key forgets the order of a list without a repeated key. -/
theorem insertionSort_perm_eq {α : Type} (cmp : α → α → Ordering) [Std.TransCmp cmp]
    {r : α → α → Prop} [DecidableRel r] (hr : ∀ a b, r a b ↔ (cmp a b).isLE = true)
    {name : α → Bytes} (hname : ∀ a b, cmp a b = .eq → name a = name b) {l l' : List α}
    (hperm : l.Perm l') (hl : (l.map name).Nodup) : l.insertionSort r = l'.insertionSort r := by
  have hsort := List.perm_insertionSort r l
  have hsort' := List.perm_insertionSort r l'
  refine List.Perm.eq_of_pairwise (fun a b ha hb hab hba => ?_) (pairwise_sorted cmp hr l)
    (pairwise_sorted cmp hr l') ((hsort.trans hperm).trans hsort'.symm)
  have heq : cmp a b = .eq := by
    rw [hr] at hab hba
    exact Std.OrientedCmp.isLE_antisymm hab hba
  have hmem : a ∈ l ∧ b ∈ l :=
    ⟨hsort.mem_iff.mp ha, hperm.mem_iff.mpr (hsort'.mem_iff.mp hb)⟩
  exact List.inj_on_of_nodup_map hl hmem.1 hmem.2 (hname a b heq)

/-- Lists with the same keys give the same results when equal keys do. -/
theorem map_eq_map_of_key {α β γ : Type} {f : α → β} {g : α → γ} {l l' : List α}
    (hkeys : l.map f = l'.map f) (h : ∀ a ∈ l, ∀ b ∈ l', f a = f b → g a = g b) :
    l.map g = l'.map g := by
  induction l generalizing l' with
  | nil =>
    rw [List.map_nil, eq_comm, List.map_eq_nil_iff] at hkeys
    rw [hkeys]
  | cons a l ih =>
    obtain ⟨b, l', rfl, hab, hrest⟩ := List.map_eq_cons_iff.mp hkeys.symm
    rw [List.map_cons, List.map_cons, h a (by simp) b (by simp) hab.symm]
    congr 1
    exact ih hrest.symm fun a ha b hb => h a (List.mem_cons_of_mem _ ha) b (List.mem_cons_of_mem _ hb)

/-- The items are written through their writes only. -/
theorem writeAll_eq_map {α : Type} (write : α → ArenaM ℕ) (items : List α) :
    writeAll write items = writeAll id (items.map write) := by
  induction items with
  | nil => rfl
  | cons item items ih => rw [List.map_cons, writeAll, writeAll, ih, id]

theorem writeOffsetArray_congr {α : Type} {write : α → ArenaM ℕ} {items items' : List α}
    (h : items.map write = items'.map write) (trieOffset field : ℕ) :
    writeOffsetArray trieOffset field items write =
      writeOffsetArray trieOffset field items' write := by
  have hlen : items.length = items'.length := by simpa using congrArg List.length h
  rw [writeOffsetArray, writeOffsetArray, writeAll_eq_map, writeAll_eq_map write items', h, hlen]

section Write

variable {a b : TrieBuilderNode}

/-- The keys of the children are the levels right below the node. -/
theorem mem_keys_iff {seg : Bytes} : seg ∈ a.children.map key ↔ (contents a [seg]).isSome := by
  rw [contents_cons]
  cases hc : child a seg with
  | none =>
    refine iff_of_false (fun hmem => ?_) (by simp)
    obtain ⟨c, hc', rfl⟩ := List.mem_map.mp hmem
    have := List.find?_eq_none.mp hc c hc'
    simp at this
  | some c =>
    obtain ⟨hmem, rfl⟩ := child_eq_some hc
    exact iff_of_true (List.mem_map_of_mem hmem) rfl

theorem sortedChildren_keys_congr (ha : NamesOk a) (hb : NamesOk b)
    (h : contents a = contents b) : a.sortedChildren.map key = b.sortedChildren.map key := by
  refine eq_of_sorted (pairwise_sortedChildren ha.children) (pairwise_sortedChildren hb.children)
    fun seg => ?_
  have hsort : ∀ n : TrieBuilderNode, seg ∈ n.sortedChildren.map key ↔ seg ∈ n.children.map key :=
    fun n => ((List.perm_insertionSort childOrder n.children).map key).mem_iff
  rw [hsort, hsort, mem_keys_iff, mem_keys_iff, h]

/-- **The serializer sees the contents of the levels** and nothing else of a trie. -/
theorem writeTrieNode_congr (levels : ℕ) (ha : Distinct a) (hb : Distinct b)
    (h : contents a = contents b) : writeTrieNode levels a = writeTrieNode levels b := by
  induction levels generalizing a b with
  | zero => rfl
  | succ levels ih =>
    have hroot : (level a).contents = (level b).contents := by
      have := congrFun h []
      rw [contents_nil, contents_nil] at this
      exact Option.some.inj this
    have hentry : a.propertyEntry = b.propertyEntry := congrArg Contents.entry hroot
    have hpre : a.sortedPrefixMatches = b.sortedPrefixMatches := by
      refine insertionSort_perm_eq prefixCmp (fun _ _ => Iff.rfl) (fun x y hxy => ?_)
        (Multiset.coe_eq_coe.mp (congrArg Contents.prefixes hroot)) ha.root.prefixes
      exact Std.LawfulEqCmp.eq_of_compare (Ordering.then_eq_eq.mp hxy).2
    have hexact : a.sortedExactMatches = b.sortedExactMatches := by
      refine insertionSort_perm_eq (compareOn PropertyEntryBuilder.name)
        (fun _ _ => Iff.rfl) (fun x y hxy => ?_)
        (Multiset.coe_eq_coe.mp (congrArg Contents.exactMatches hroot)) ha.root.exactMatches
      exact Std.LawfulEqCmp.eq_of_compare hxy
    have hchildren : a.sortedChildren.map (writeTrieNode levels) =
        b.sortedChildren.map (writeTrieNode levels) := by
      refine map_eq_map_of_key (sortedChildren_keys_congr ha.root hb.root h) fun c hc d hd hk => ?_
      have hca := child_of_mem ha.root.children (mem_sortedChildren.mp hc)
      have hdb := child_of_mem hb.root.children (mem_sortedChildren.mp hd)
      refine ih (ha.child hca) (hb.child hdb) (funext fun path => ?_)
      have := congrFun h (c.key :: path)
      rwa [contents_cons, contents_cons, hca, hk, hdb] at this
    rw [writeTrieNode, writeTrieNode, hentry, hpre, hexact]
    simp only [writeOffsetArray_congr hchildren]

end Write

/-! ### The trie of a set of rules -/

section Rules

variable {rules rules' : List PropertyInfoEntry} {defaultContext defaultType : Bytes}
  {builder builder' : TrieBuilder}

/-- A level has one trailing-dot rule at most. -/
theorem dotRule_eq_some_iff (hb : Built rules defaultContext defaultType builder)
    {path : List Bytes} {r : PropertyInfoEntry} :
    dotRule rules path = some r ↔ r ∈ rulesAt rules .dotted path := by
  refine ⟨List.mem_of_mem_head?, fun hr => ?_⟩
  obtain ⟨r0, rest, hat⟩ := List.exists_cons_of_ne_nil (List.ne_nil_of_mem hr)
  have hdot : dotRule rules path = some r0 := by rw [dotRule, hat]; rfl
  obtain ⟨hr0, hk0, hp0⟩ := dotRule_eq_some hdot
  obtain ⟨hr, hk, hp⟩ := mem_rulesAt.mp hr
  have hparts : ∀ {r : PropertyInfoEntry}, r.kind = .dotted → r.levelPath = r.parts := fun hk =>
    if_pos hk
  rw [hdot, eq_of_slot hb.distinct hr0 hr (hk0.trans hk.symm)
    (by rw [← hparts hk0, ← hparts hk, hp0, hp])]

/-- The names of the entries of a kind differ. -/
theorem nodup_names (hb : Built rules defaultContext defaultType builder) {kind : RuleKind}
    (hk : kind ≠ .dotted) (path : List Bytes) :
    (((rulesAt rules kind path).map entry).map PropertyEntryBuilder.name).Nodup := by
  have hnodup : (rulesAt rules kind path).Nodup :=
    (List.Nodup.of_map _ hb.distinct).filter _
  rw [List.map_map]
  exact hnodup.map_on fun r hr r' hr' h => eq_of_lastName hb hk hr hr' h

/-- Every level of a built trie has distinct names. -/
theorem Built.distinctNames (hb : Built rules defaultContext defaultType builder) :
    Distinct builder.root := by
  intro path node hn
  have hlevel := (hb.node hn).2
  refine ⟨?_, ?_, (hb.keys path node hn).2⟩
  · rw [show node.prefixes = _ from congrArg Level.prefixes hlevel]
    exact nodup_names hb (by decide) path
  · rw [show node.exactMatches = _ from congrArg Level.exactMatches hlevel]
    exact nodup_names hb (by decide) path

/-- The contents of a level depend on the set of rules. -/
theorem contents_levelOf_perm (hperm : rules.Perm rules')
    (hb : Built rules defaultContext defaultType builder)
    (hb' : Built rules' defaultContext defaultType builder') (path : List Bytes) :
    (levelOf rules defaultContext defaultType path).contents =
      (levelOf rules' defaultContext defaultType path).contents := by
  have hat : ∀ kind, (rulesAt rules kind path).Perm (rulesAt rules' kind path) := fun kind =>
    hperm.filter _
  have hdot : dotRule rules path = dotRule rules' path := by
    ext r
    rw [dotRule_eq_some_iff hb, dotRule_eq_some_iff hb', (hat .dotted).mem_iff]
  simp only [Level.contents, levelOf, levelEntry, hdot,
    Multiset.coe_eq_coe.mpr ((hat .plain).map entry),
    Multiset.coe_eq_coe.mpr ((hat .exactMatch).map entry)]

theorem contents_built_perm (hperm : rules.Perm rules')
    (hb : Built rules defaultContext defaultType builder)
    (hb' : Built rules' defaultContext defaultType builder') :
    contents builder.root = contents builder'.root := by
  funext path
  have hv : Visited rules path ↔ Visited rules' path := by
    simp only [Visited, hperm.mem_iff]
  rw [contents, contents, hb.flat, hb'.flat]
  simp only [hv]
  split_ifs
  · exact congrArg some (contents_levelOf_perm hperm hb hb' path)
  · rfl

/-- A reordered list of rules is accepted as well, with the same tables. -/
theorem addRules_perm (hperm : rules.Perm rules') (hc : Text defaultContext)
    (ht : Text defaultType)
    (h : addRules rules (TrieBuilder.new defaultContext defaultType) = .ok builder) :
    ∃ builder', addRules rules' (TrieBuilder.new defaultContext defaultType) = .ok builder' ∧
      builder'.contexts = builder.contexts ∧ builder'.types = builder.types := by
  have hnew := built_new hc ht
  rcases addRules_cases hnew rules with ⟨hchk, hnd, -⟩ | ⟨-, e, -, herr⟩
  · rcases addRules_cases hnew rules' with ⟨-, -, builder', h'⟩ | ⟨hbad, -⟩
    · obtain ⟨hctx, htyp⟩ := mem_tables_addRules h
      obtain ⟨hctx', htyp'⟩ := mem_tables_addRules h'
      have hb := built_addRules hnew h
      have hb' := built_addRules hnew h'
      refine ⟨builder', h', ?_, ?_⟩
      · refine eq_of_sorted hb'.contexts.sorted hb.contexts.sorted fun s => ?_
        simp only [hctx, hctx', hperm.mem_iff]
      · refine eq_of_sorted hb'.types.sorted hb.types.sorted fun s => ?_
        simp only [htyp, htyp', hperm.mem_iff]
    · refine absurd ⟨fun r hr => hchk r (hperm.mem_iff.mpr hr), ?_⟩ hbad
      exact ((hperm.append_left []).map slot).nodup_iff.mp hnd
  · rw [herr] at h
    cases h

end Rules

/-! ### The build -/

/-- `build_trie` where the containers of the trie are iterated in a given order: the serializer is the only
place that iterates over them. -/
def buildTrieWith (order : TrieBuilderNode → TrieBuilderNode) (propertyInfo : List PropertyInfoEntry)
    (defaultContext defaultType : Str) : Except Error Bytes := do
  validateNoInteriorNul "default context" defaultContext.bytes
  validateNoInteriorNul "default type" defaultType.bytes
  let trie ← addRules propertyInfo (TrieBuilder.new defaultContext.bytes defaultType.bytes)
  match TrieSerializer.serialize { trie with root := order trie.root } TrieNodeArena.new with
  | .ok _ arena => return arena.intoData
  | .error e _ => throw e

/-- In the order of the containers themselves it is `build_trie`. -/
theorem buildTrieWith_id : buildTrieWith id = buildTrie := rfl

/-- The image is a function of the tables and the contents of the levels. -/
theorem serialize_congr {a b : TrieBuilder} (hc : a.contexts = b.contexts) (ht : a.types = b.types)
    (ha : Distinct a.root) (hb : Distinct b.root) (h : contents a.root = contents b.root) :
    TrieSerializer.serialize a = TrieSerializer.serialize b := by
  unfold TrieSerializer.serialize
  rw [hc, ht, writeTrieNode_congr _ ha hb h]

section Order

variable {rules rules' : List PropertyInfoEntry} {order order' : TrieBuilderNode → TrieBuilderNode}

theorem buildTrieWith_of_perm (hperm : rules.Perm rules')
    (horder : ∀ node, Reordered node (order node)) (horder' : ∀ node, Reordered node (order' node))
    {defaultContext defaultType : Str} {bytes : Bytes}
    (h : buildTrieWith order rules defaultContext defaultType = .ok bytes) :
    buildTrieWith order' rules' defaultContext defaultType = .ok bytes := by
  obtain ⟨_, hc, h⟩ := except_bind_eq_ok.mp h
  obtain ⟨_, ht, h⟩ := except_bind_eq_ok.mp h
  obtain ⟨builder, hadd, h⟩ := except_bind_eq_ok.mp h
  have hc' : Text defaultContext.bytes := ⟨validateNoInteriorNul_eq_ok.mp hc, defaultContext.valid⟩
  have ht' : Text defaultType.bytes := ⟨validateNoInteriorNul_eq_ok.mp ht, defaultType.valid⟩
  obtain ⟨builder', hadd', hctx, htyp⟩ := addRules_perm hperm hc' ht' hadd
  have hb := built_addRules (built_new hc' ht') hadd
  have hb' := built_addRules (built_new hc' ht') hadd'
  obtain ⟨hcont, hdist⟩ := (horder builder.root).contents_eq hb.distinctNames
  obtain ⟨hcont', hdist'⟩ := (horder' builder'.root).contents_eq hb'.distinctNames
  have hser := serialize_congr (a := { builder' with root := order' builder'.root })
    (b := { builder with root := order builder.root }) hctx htyp hdist' hdist
    (by rw [hcont, hcont', contents_built_perm hperm hb hb'])
  unfold buildTrieWith
  rw [except_bind_ok hc, except_bind_ok ht, except_bind_ok hadd', hser]
  exact h

/-- **The image is independent of the order of the rules and of the containers.** Reordering the rules, and
iterating over the containers in another order, changes neither whether `build_trie` succeeds nor the
bytes it returns. -/
theorem buildTrie_order_independent (hperm : rules.Perm rules')
    (horder : ∀ node, Reordered node (order node)) (horder' : ∀ node, Reordered node (order' node))
    (defaultContext defaultType : Str) :
    ((∃ bytes, buildTrieWith order rules defaultContext defaultType = .ok bytes) ↔
      ∃ bytes, buildTrieWith order' rules' defaultContext defaultType = .ok bytes) ∧
    ∀ bytes bytes', buildTrieWith order rules defaultContext defaultType = .ok bytes →
      buildTrieWith order' rules' defaultContext defaultType = .ok bytes' → bytes = bytes' := by
  refine ⟨⟨fun ⟨bytes, h⟩ => ⟨bytes, buildTrieWith_of_perm hperm horder horder' h⟩,
    fun ⟨bytes, h⟩ => ⟨bytes, buildTrieWith_of_perm hperm.symm horder' horder h⟩⟩, ?_⟩
  intro bytes bytes' h h'
  rw [buildTrieWith_of_perm hperm horder horder' h] at h'
  exact Except.ok.inj h'

/-- Iterate over the containers of the root from their other end. -/
def backwards (node : TrieBuilderNode) : TrieBuilderNode where
  propertyEntry := node.propertyEntry
  prefixes := node.prefixes.reverse
  exactMatches := node.exactMatches.reverse
  children := node.children.reverse

theorem reordered_backwards (node : TrieBuilderNode) : Reordered node (backwards node) :=
  .mk rfl (List.reverse_perm _).symm (List.reverse_perm _).symm (List.reverse_perm _).symm
    (List.forall₂_same.mpr fun child _ => Reordered.refl child)

/-- Two nodes and two prefix entries below the root. -/
def siblingRules : List PropertyInfoEntry :=
  [⟨⟨ascii "b.", by decide⟩, ⟨ascii "db", by decide⟩, ⟨ascii "bool", by decide⟩, false⟩,
    ⟨⟨ascii "c.", by decide⟩, ⟨ascii "da", by decide⟩, ⟨ascii "uint", by decide⟩, false⟩,
    ⟨⟨ascii "q", by decide⟩, ⟨ascii "dq", by decide⟩, ⟨ascii "uint", by decide⟩, false⟩,
    ⟨⟨ascii "p", by decide⟩, ⟨ascii "da", by decide⟩, ⟨ascii "bool", by decide⟩, false⟩]

theorem buildTrie_order_independent_siblings : ∃ bytes,
    buildTrie siblingRules ⟨ascii "def", by decide⟩ ⟨ascii "", by decide⟩ = .ok bytes ∧
    buildTrieWith backwards siblingRules.reverse ⟨ascii "def", by decide⟩ ⟨ascii "", by decide⟩ =
      .ok bytes := by
  rw [← buildTrieWith_id]
  obtain ⟨hiff, heq⟩ := buildTrie_order_independent (List.reverse_perm siblingRules).symm
    Reordered.refl reordered_backwards ⟨ascii "def", by decide⟩ ⟨ascii "", by decide⟩
  have hok : (buildTrieWith id siblingRules ⟨ascii "def", by decide⟩ ⟨ascii "", by decide⟩).isOk =
      true := by
    decide +kernel
  cases hbuild : buildTrieWith id siblingRules ⟨ascii "def", by decide⟩ ⟨ascii "", by decide⟩ with
  | error e =>
    rw [hbuild] at hok
    cases hok
  | ok bytes =>
    obtain ⟨bytes', hbuild'⟩ := hiff.mp ⟨bytes, hbuild⟩
    exact ⟨bytes, rfl, heq bytes bytes' hbuild hbuild' ▸ hbuild'⟩

end Order

end RsProperties.InfoTrie
