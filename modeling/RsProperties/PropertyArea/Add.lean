import RsProperties.PropertyArea.NewEntry

/-!
# Adding and updating properties

What `add` and `backup_and_apply_write` do to the represented shape. `add` runs through the
segments of the name: each step finds the segment's node below the current one, or hangs a new one
there, or fails with a full area and no change (`addStep_spec`). So a failed `add` can leave new
nodes behind, and an unlinked entry when its long value does not fit, but it binds nothing; the
lookups and all entry bytes are as before. `add_spec` and `update_spec` are the results the rest of
the development uses.
-/

namespace RsProperties

open ByteMem StateExcept PropertyAreaMap

variable {pa : PropertyAreaMap} {g : Shape}

/-! ### The sibling walk -/

theorem rootOff_insert {t : SearchTree Bytes ℕ} (h : t ≠ .nil) (seg : Bytes) (off : ℕ) :
    rootOff (t.insert cmpPropName seg off) = rootOff t := by
  cases t with
  | nil => exact absurd rfl h
  | node s o l r =>
    rw [SearchTree.insert]
    cases cmpPropName seg s <;> rfl

/-- A sibling tree that does not contain the node whose link was stored is still represented. -/
theorem AreaInv.treeAt_attached {pa' : PropertyAreaMap} {a : ℕ} {f : LinkField} {seg : Bytes}
    (h : AreaInv pa g) (hat : Attached pa pa' a f seg) (ha : g.IsNode a) {t : SearchTree Bytes ℕ}
    (ht : TreeAt pa.mmap.data t) (hb : ∀ p ∈ t.toList, ⟨p.2, .node p.1⟩ ∈ g.blocks)
    (hne : ∀ p ∈ t.toList, p.2 ≠ a) : TreeAt pa'.mmap.data t := by
  refine ht.congr (fun p hp => h.nodeAt_attached hat ha (hb p hp)) fun p hp => ?_
  have hn : g.IsNode p.2 := .inr ⟨p.1, hb p hp⟩
  exact ⟨h.linkAt_attached hat ha hn (.inl (hne p hp)),
    h.linkAt_attached hat ha hn (.inl (hne p hp))⟩

/-- A fresh node is a sibling tree of its own. -/
theorem Attached.treeAt_fresh {pa' : PropertyAreaMap} {a : ℕ} {f : LinkField} {seg : Bytes}
    (hat : Attached pa pa' a f seg) :
    TreeAt pa'.mmap.data (.node seg pa.bytesUsed .nil .nil) :=
  ⟨hat.node, hat.fresh .left, hat.fresh .right, trivial, trivial⟩

/-- The outcomes of the sibling walk of `add` on the tree `t`: the segment's node, a full area, or a
new node attached inside the tree. -/
inductive WalkOutcome (pa : PropertyAreaMap) (t : SearchTree Bytes ℕ) (seg : Bytes) :
    EStateM.Result Error PropertyAreaMap ℕ → Prop
  | found {k : ℕ} (hk : t.find? cmpPropName seg = some k) : WalkOutcome pa t seg (.ok k pa)
  | full {e : Error} (hf : t.find? cmpPropName seg = none)
      (he : AllocFailure e pa.bytesUsed (nodeExtent seg)) : WalkOutcome pa t seg (.error e pa)
  | attached {pa' : PropertyAreaMap} {a : ℕ} {f : LinkField} {s : Bytes}
      (hf : t.find? cmpPropName seg = none) (hat : Attached pa pa' a f seg)
      (ha : (s, a) ∈ t.toList) (hfield : f = .left ∨ f = .right)
      (htree : TreeAt pa'.mmap.data (t.insert cmpPropName seg pa.bytesUsed)) :
      WalkOutcome pa t seg (.ok pa.bytesUsed pa')

/-- A part of a represented sibling tree. -/
structure SubTree (g : Shape) (m : Mem) (lo : ℕ) (t : SearchTree Bytes ℕ) : Prop where
  treeAt : TreeAt m t
  block : ∀ p ∈ t.toList, ⟨p.2, .node p.1⟩ ∈ g.blocks
  ordered : t.Ordered cmpPropName
  rising : Rising lo t

namespace SubTree

variable {m : Mem} {lo off : ℕ} {s : Bytes} {l r : SearchTree Bytes ℕ}

theorem left (h : SubTree g m lo (.node s off l r)) : SubTree g m (off + 20) l :=
  ⟨h.treeAt.2.2.2.1, fun p hp => h.block p (by simp [SearchTree.toList, hp]), h.ordered.2.2.1,
    h.rising.2.1⟩

theorem right (h : SubTree g m lo (.node s off l r)) : SubTree g m (off + 20) r :=
  ⟨h.treeAt.2.2.2.2, fun p hp => h.block p (by simp [SearchTree.toList, hp]), h.ordered.2.2.2,
    h.rising.2.2⟩

theorem root_block (h : SubTree g m lo (.node s off l r)) : ⟨off, .node s⟩ ∈ g.blocks :=
  h.block (s, off) (by simp [SearchTree.toList])

theorem isNode_root (h : SubTree g m lo (.node s off l r)) : g.IsNode off :=
  .inr ⟨s, h.root_block⟩

theorem ne_root (h : SubTree g m (off + 20) l) : ∀ p ∈ l.toList, p.2 ≠ off := fun p hp => by
  have := h.rising.le hp
  omega

/-- The two subtrees share no node. -/
theorem apart {used : ℕ} (hw : g.Wf used) (h : SubTree g m lo (.node s off l r)) :
    ∀ p ∈ l.toList, ∀ q ∈ r.toList, p.2 ≠ q.2 := by
  intro p hp q hq hpq
  have hblk := hw.layout.eq_of_off (h.left.block p hp) (h.right.block q hq) hpq
  have hseg : p.1 = q.1 := by
    injection hblk with _ hobj
    exact Obj.node.inj hobj
  have hlt : cmpPropName p.1 q.1 = .lt :=
    Std.TransCmp.lt_trans (h.ordered.1 p hp) (h.ordered.2.1 q hq)
  have heq : cmpPropName q.1 q.1 = .eq := Std.ReflCmp.compare_self
  rw [hseg, heq] at hlt
  cases hlt

end SubTree

section WalkSteps

variable {seg s : Bytes} {off lo : ℕ} {l r : SearchTree Bytes ℕ}
  {res : EStateM.Result Error PropertyAreaMap ℕ}

/-- A walk that goes on to the left. -/
theorem WalkOutcome.left (h : AreaInv pa g) (hs : SubTree g pa.mmap.data lo (.node s off l r))
    (hc : cmpPropName seg s = .lt) (hln : l ≠ .nil) (ho : WalkOutcome pa l seg res) :
    WalkOutcome pa (.node s off l r) seg res := by
  have hfind : (SearchTree.node s off l r).find? cmpPropName seg = l.find? cmpPropName seg := by
    rw [SearchTree.find?, hc]
  cases ho with
  | found hk => exact .found (hfind.trans hk)
  | full hf he => exact .full (hfind.trans hf) he
  | @attached pa' a f s' hf hat ha hfield htree =>
    have han : g.IsNode a := .inr ⟨s', hs.left.block _ ha⟩
    have hne : off ≠ a := (hs.left.ne_root _ ha).symm
    refine .attached (s := s') (hfind.trans hf) hat ?_ hfield ?_
    · exact List.mem_append_left _ ha
    rw [SearchTree.insert, hc]
    refine ⟨h.nodeAt_attached hat han hs.root_block hs.treeAt.1, ?_, ?_, htree, ?_⟩
    · rw [h.linkAt_attached hat han hs.isNode_root (.inl hne), hs.treeAt.2.1, rootOff_insert hln]
    · rw [h.linkAt_attached hat han hs.isNode_root (.inl hne), hs.treeAt.2.2.1]
    · exact h.treeAt_attached hat han hs.right.treeAt hs.right.block fun q hq =>
        (hs.apart h.wf _ ha q hq).symm

/-- A walk that goes on to the right. -/
theorem WalkOutcome.right (h : AreaInv pa g) (hs : SubTree g pa.mmap.data lo (.node s off l r))
    (hc : cmpPropName seg s = .gt) (hrn : r ≠ .nil) (ho : WalkOutcome pa r seg res) :
    WalkOutcome pa (.node s off l r) seg res := by
  have hfind : (SearchTree.node s off l r).find? cmpPropName seg = r.find? cmpPropName seg := by
    rw [SearchTree.find?, hc]
  cases ho with
  | found hk => exact .found (hfind.trans hk)
  | full hf he => exact .full (hfind.trans hf) he
  | @attached pa' a f s' hf hat ha hfield htree =>
    have han : g.IsNode a := .inr ⟨s', hs.right.block _ ha⟩
    have hne : off ≠ a := (hs.right.ne_root _ ha).symm
    refine .attached (s := s') (hfind.trans hf) hat ?_ hfield ?_
    · exact List.mem_append_right _ (List.mem_cons_of_mem _ ha)
    rw [SearchTree.insert, hc]
    refine ⟨h.nodeAt_attached hat han hs.root_block hs.treeAt.1, ?_, ?_, ?_, htree⟩
    · rw [h.linkAt_attached hat han hs.isNode_root (.inl hne), hs.treeAt.2.1]
    · rw [h.linkAt_attached hat han hs.isNode_root (.inl hne), hs.treeAt.2.2.1,
        rootOff_insert hrn]
    · exact h.treeAt_attached hat han hs.left.treeAt hs.left.block fun p hp =>
        hs.apart h.wf p hp _ ha

/-- A walk that ends at an empty link attaches there, on the side the comparison says. -/
theorem WalkOutcome.attach (h : AreaInv pa g) (hs : SubTree g pa.mmap.data lo (.node s off l r))
    {f : LinkField} (hside : cmpPropName seg s = .lt ∧ l = .nil ∧ f = .left ∨
      cmpPropName seg s = .gt ∧ r = .nil ∧ f = .right) :
    WalkOutcome pa (.node s off l r) seg
      ((newPropTrieNode seg >>= fun new => storeLink off f new >>= fun _ => pure new) pa) := by
  have hoff := hs.isNode_root
  have hfind : (SearchTree.node s off l r).find? cmpPropName seg = none := by
    rcases hside with ⟨hc, rfl, -⟩ | ⟨hc, rfl, -⟩ <;> rw [SearchTree.find?, hc] <;> rfl
  rcases attach_spec h.basic f seg (h.wf.node_mod hoff) (h.wf.node_lt hoff h.basic.used_low)
    (k := pure) with ⟨e, he, hrun⟩ | ⟨pa', hat, hrun⟩
  · rw [hrun]
    exact .full hfind he
  rw [hrun]
  refine .attached (s := s) hfind hat (by simp [SearchTree.toList]) ?_ ?_
  · exact hside.imp (·.2.2) (·.2.2)
  have hnode := h.nodeAt_attached hat hoff hs.root_block hs.treeAt.1
  rcases hside with ⟨hc, rfl, rfl⟩ | ⟨hc, rfl, rfl⟩
  · rw [SearchTree.insert, hc]
    refine ⟨hnode, hat.link, ?_, hat.treeAt_fresh,
      h.treeAt_attached hat hoff hs.right.treeAt hs.right.block hs.right.ne_root⟩
    rw [h.linkAt_attached hat hoff hoff (.inr (by decide)), hs.treeAt.2.2.1]
  · rw [SearchTree.insert, hc]
    refine ⟨hnode, ?_, hat.link,
      h.treeAt_attached hat hoff hs.left.treeAt hs.left.block hs.left.ne_root, hat.treeAt_fresh⟩
    rw [h.linkAt_attached hat hoff hoff (.inr (by decide)), hs.treeAt.2.1]

end WalkSteps

/-- Offsets grow along the links, so the number of iterations left bounds the rest of the walk. -/
theorem Rising.steps {off steps : ℕ} {t : SearchTree Bytes ℕ} (h : Rising (off + 20) t)
    (hne : t ≠ .nil) (hsteps : 130944 < (steps + 1) * 20 + off) :
    rootOff t ≠ 0 ∧ 130944 < steps * 20 + rootOff t := by
  cases t with
  | nil => exact absurd rfl hne
  | node s o l r =>
    have : off + 20 ≤ o := h.1
    simp only [rootOff]
    omega

/-- **The sibling walk of `add`.** -/
theorem AreaInv.addPropTrieNodeLoop_spec (h : AreaInv pa g) (seg : Bytes)
    {t : SearchTree Bytes ℕ} {lo : ℕ} (hs : SubTree g pa.mmap.data lo t) (hne : t ≠ .nil)
    {steps : ℕ} (hsteps : 130944 < steps * 20 + rootOff t) :
    WalkOutcome pa t seg (addPropTrieNodeLoop seg steps (rootOff t) pa) := by
  induction t generalizing steps lo with
  | nil => exact absurd rfl hne
  | node s off l r ihl ihr =>
    have hlt := h.wf.node_lt hs.isNode_root h.basic.used_low
    have hhigh := h.basic.used_high
    simp only [rootOff] at hsteps ⊢
    obtain ⟨steps, rfl⟩ : ∃ k, steps = k + 1 := ⟨steps - 1, by omega⟩
    obtain ⟨hload, hname⟩ := h.load_node hs.root_block hs.treeAt.1
    rw [addPropTrieNodeLoop, bind_ok (look_ok hload)]
    simp only
    rw [bind_ok (look_ok hname)]
    cases hc : cmpPropName seg s with
    | eq => exact .found (by rw [SearchTree.find?, hc])
    | lt =>
      simp only [hs.treeAt.2.1]
      by_cases hln : l = .nil
      · rw [hln, rootOff, if_neg (not_not_intro rfl)]
        exact .attach h (hln ▸ hs) (.inl ⟨hc, rfl, rfl⟩)
      · obtain ⟨hr0, hst⟩ := hs.left.rising.steps hln hsteps
        rw [if_pos hr0]
        exact .left h hs hc hln (ihl hs.left hln hst)
    | gt =>
      simp only [hs.treeAt.2.2.1]
      by_cases hrn : r = .nil
      · rw [hrn, rootOff, if_neg (not_not_intro rfl)]
        exact .attach h (hrn ▸ hs) (.inr ⟨hc, rfl, rfl⟩)
      · obtain ⟨hr0, hst⟩ := hs.right.rising.steps hrn hsteps
        rw [if_pos hr0]
        exact .right h hs hc hrn (ihr hs.right hrn hst)

/-! ### What a writer keeps -/

/-- The writer kept the rest of the header and all entry and value blocks of `g`. -/
structure Keeps (g : Shape) (pa pa' : PropertyAreaMap) : Prop where
  shape : ∃ m, pa' = pa.withData m
  header : SameOn pa.mmap.data pa'.mmap.data 4 128
  block : ∀ b ∈ g.blocks, (∀ seg, b.obj ≠ .node seg) →
    SameOn pa.mmap.data pa'.mmap.data (b.off + 128) (b.stop + 128)

/-- The shape has only grown: no node moved and no binding changed. -/
structure Shape.Extends (g g' : Shape) : Prop where
  blocks : g.blocks ⊆ g'.blocks
  path : ∀ n, g.IsNode n → g'.path n = g.path n
  entry : g'.entry = g.entry

theorem Keeps.refl (g : Shape) (pa : PropertyAreaMap) : Keeps g pa pa :=
  ⟨⟨pa.mmap.data, rfl⟩, .refl _ _ _, fun _ _ _ => .refl _ _ _⟩

theorem Keeps.trans {g' : Shape} {pa' pa'' : PropertyAreaMap} (h : Keeps g pa pa')
    (h' : Keeps g' pa' pa'') (hsub : g.blocks ⊆ g'.blocks) : Keeps g pa pa'' := by
  obtain ⟨m, rfl⟩ := h.shape
  obtain ⟨m', rfl⟩ := h'.shape
  exact ⟨⟨m', rfl⟩, h.header.trans h'.header,
    fun b hb ho => (h.block b hb ho).trans (h'.block b (hsub hb) ho)⟩

namespace Shape.Extends

variable {g' g'' : Shape}

theorem refl (g : Shape) : g.Extends g := ⟨List.Subset.refl _, fun _ _ => rfl, rfl⟩

theorem isNode (h : g.Extends g') {n : ℕ} (hn : g.IsNode n) : g'.IsNode n :=
  hn.imp id fun ⟨seg, hb⟩ => ⟨seg, h.blocks hb⟩

theorem trans (h : g.Extends g') (h' : g'.Extends g'') : g.Extends g'' :=
  ⟨List.Subset.trans h.blocks h'.blocks, fun n hn => (h'.path n (h.isNode hn)).trans (h.path n hn),
    h'.entry.trans h.entry⟩

/-- Growing changes no lookup. -/
theorem lookup_eq {used used' : ℕ} (h : g.Extends g') (hw : g.Wf used) (hw' : g'.Wf used') :
    g'.lookup = g.lookup := by
  funext name
  refine Option.ext fun e => ?_
  rw [hw'.lookup_eq_some_iff, hw.lookup_eq_some_iff, h.entry]
  refine exists_congr fun k => and_congr_right fun he => ?_
  rw [h.path k (hw.entry_node k e he).1]

theorem alloc (g : Shape) (b : Block) : g.Extends (g.alloc b) :=
  ⟨List.subset_append_left _ _, fun _ _ => rfl, rfl⟩

theorem grow {used : ℕ} (hw : g.Wf used) (hl : 112 ≤ used) (n : ℕ) (seg : Bytes) :
    g.Extends (g.grow n seg used) := by
  refine ⟨List.subset_append_left _ _, fun k hk => Shape.path_grow_of_ne ?_, rfl⟩
  have := hw.node_lt hk hl
  omega

end Shape.Extends

/-- Binding an entry changes the lookup of that one name. -/
theorem Shape.Wf.lookup_bindEntry {used : ℕ} {n : ℕ} {e : Entry} (hw : g.Wf used)
    (hw' : (g.bindEntry n e).Wf used) :
    (g.bindEntry n e).lookup = Function.update g.lookup (joinDot (g.path n)) (some e) := by
  obtain ⟨hn, hn0⟩ := hw'.entry_node n e (Function.update_self _ _ _)
  have hn' : g.IsNode n := hn
  funext name
  rw [Function.update_apply]
  split_ifs with hname
  · exact hw'.lookup_eq_some_iff.mpr ⟨n, Function.update_self _ _ _, hname.symm⟩
  refine Option.ext fun e' => ?_
  rw [hw'.lookup_eq_some_iff, hw.lookup_eq_some_iff]
  refine exists_congr fun k => ?_
  simp only [Shape.bindEntry, Function.update_apply]
  split_ifs with hk
  · subst hk
    exact ⟨fun h => absurd h.2.symm hname, fun h => absurd h.2.symm hname⟩
  · exact Iff.rfl

/-- A link store keeps the entries. -/
theorem AreaInv.keeps_of_same {a : ℕ} {pa' : PropertyAreaMap} (h : AreaInv pa g) (ha : g.IsNode a)
    (hshape : ∃ m, pa' = pa.withData m)
    (hs : ∀ x y, 4 ≤ x → y ≤ pa.bytesUsed + 128 → y ≤ a + 132 ∨ a + 148 ≤ x →
      SameOn pa.mmap.data pa'.mmap.data x y) : Keeps g pa pa' := by
  refine ⟨hshape, hs _ _ le_rfl (by omega) (by omega), fun b hb ho => ?_⟩
  have hhigh := h.wf.layout.high b hb
  rcases h.wf.node_block_apart ha hb (h.wf.entry_ne_node ha hb ho) with hd | hd
  · exact hs _ _ (by omega) (by omega) (by omega)
  · exact hs _ _ (by omega) (by omega) (by omega)

theorem AreaInv.keeps_attached {pa' : PropertyAreaMap} {a : ℕ} {f : LinkField} {seg : Bytes}
    (h : AreaInv pa g) (hat : Attached pa pa' a f seg) (ha : g.IsNode a) : Keeps g pa pa' := by
  obtain ⟨h1, h2⟩ := f.offset_bounds
  exact h.keeps_of_same ha hat.shape fun x y hx hy hxy => hat.same x y hx hy (by omega)

theorem AreaInv.keeps_grown {pa' : PropertyAreaMap} {used : ℕ} (h : AreaInv pa g)
    (hg : Grown pa pa' used) : Keeps g pa pa' := by
  refine ⟨hg.shape, hg.same.mono le_rfl (by omega), fun b hb _ => ?_⟩
  have := h.wf.layout.high b hb
  exact hg.same.mono (by omega) (by omega)

/-! ### One segment -/

/-- One round of `add`'s segment loop. -/
def addStep (n : ℕ) (seg : Bytes) : AreaM ℕ := do
  let root ← childrenRoot n seg
  addPropTrieNode root seg

theorem addLoop_cons (seg : Bytes) (segs : List Bytes) (n : ℕ) :
    addLoop (seg :: segs) n = (addStep n seg >>= addLoop segs) := by
  rw [addLoop, addStep, bind_assoc]

theorem AreaInv.subTree (h : AreaInv pa g) (n : ℕ) :
    SubTree g pa.mmap.data (n + 20) (g.kids n) :=
  ⟨h.rep.tree n, h.wf.kid_block n, h.wf.ordered n, h.wf.rising n⟩

theorem AreaInv.addPropTrieNode_spec (h : AreaInv pa g) (seg : Bytes) {n : ℕ}
    (hne : g.kids n ≠ .nil) :
    WalkOutcome pa (g.kids n) seg (addPropTrieNode (rootOff (g.kids n)) seg pa) := by
  rw [addPropTrieNode, bind_ok (get_run pa)]
  refine h.addPropTrieNodeLoop_spec seg (h.subTree n) hne ?_
  rw [maxIterations, h.basic.dataSize, trieNodeSize]
  omega

/-- The outcomes of one round: the segment's node, a full area without a change, or a new node
below `n`. -/
inductive StepOutcome (pa : PropertyAreaMap) (g : Shape) (n : ℕ) (seg : Bytes) :
    EStateM.Result Error PropertyAreaMap ℕ → Prop
  | found {k : ℕ} (hk : (g.kids n).find? cmpPropName seg = some k) :
      StepOutcome pa g n seg (.ok k pa)
  | full {e : Error} (hf : (g.kids n).find? cmpPropName seg = none)
      (he : AllocFailure e pa.bytesUsed (nodeExtent seg)) : StepOutcome pa g n seg (.error e pa)
  | grown {pa' : PropertyAreaMap} (hf : (g.kids n).find? cmpPropName seg = none)
      (hinv : AreaInv pa' (g.grow n seg pa.bytesUsed)) (hkeep : Keeps g pa pa')
      (hused : pa'.bytesUsed = pa.bytesUsed + nodeExtent seg) :
      StepOutcome pa g n seg (.ok pa.bytesUsed pa')

/-- A node attached inside the sibling tree below `n`. -/
theorem AreaInv.attach_sibling {pa' : PropertyAreaMap} {n a : ℕ} {f : LinkField} {seg s : Bytes}
    (h : AreaInv pa g) (hn : g.IsNode n) (hseg : seg ≠ [] ∧ 0 ∉ seg ∧ dot ∉ seg)
    (hf : (g.kids n).find? cmpPropName seg = none) (hat : Attached pa pa' a f seg)
    (ha : (s, a) ∈ (g.kids n).toList) (hfield : f = .left ∨ f = .right)
    (htree : TreeAt pa'.mmap.data ((g.kids n).insert cmpPropName seg pa.bytesUsed)) :
    AreaInv pa' (g.grow n seg pa.bytesUsed) := by
  have hnil : g.kids n ≠ .nil := by
    intro hnil
    simp [hnil, SearchTree.toList] at ha
  refine h.attach hat hn hf hseg (.inr ⟨⟨s, ha⟩, hfield⟩) htree ?_
  rw [h.linkAt_attached hat (h.wf.isNode_kid ha) hn, h.rep.children n hn, rootOff_insert hnil]
  rcases hfield with rfl | rfl <;> exact .inr (by decide)

/-- The outcomes of `childrenRoot`: the root that is there, a full area, or a new root. -/
inductive RootOutcome (pa : PropertyAreaMap) (g : Shape) (n : ℕ) (seg : Bytes) :
    EStateM.Result Error PropertyAreaMap ℕ → Prop
  | found (hne : g.kids n ≠ .nil) : RootOutcome pa g n seg (.ok (rootOff (g.kids n)) pa)
  | full {e : Error} (hnil : g.kids n = .nil) (he : AllocFailure e pa.bytesUsed (nodeExtent seg)) :
      RootOutcome pa g n seg (.error e pa)
  | created {pa' : PropertyAreaMap} (hnil : g.kids n = .nil)
      (hat : Attached pa pa' n .children seg) (hinv : AreaInv pa' (g.grow n seg pa.bytesUsed))
      (hkids : (g.grow n seg pa.bytesUsed).kids n = .node seg pa.bytesUsed .nil .nil) :
      RootOutcome pa g n seg (.ok pa.bytesUsed pa')

theorem AreaInv.childrenRoot_spec (h : AreaInv pa g) {n : ℕ} (hn : g.IsNode n) {seg : Bytes}
    (hseg : seg ≠ [] ∧ 0 ∉ seg ∧ dot ∉ seg) :
    RootOutcome pa g n seg (childrenRoot n seg pa) := by
  obtain ⟨node, hload, hc, -⟩ := h.trieNode_eq hn
  rw [childrenRoot, bind_ok (look_ok hload), hc]
  by_cases hnil : g.kids n = .nil
  · have hfind : (g.kids n).find? cmpPropName seg = none := by rw [hnil]; rfl
    have hins : (g.kids n).insert cmpPropName seg pa.bytesUsed =
        .node seg pa.bytesUsed .nil .nil := by rw [hnil]; rfl
    rw [hnil, rootOff, if_neg (not_not_intro rfl)]
    rcases attach_spec h.basic .children seg (h.wf.node_mod hn) (h.wf.node_lt hn h.basic.used_low)
      (k := pure) with ⟨e, he, hrun⟩ | ⟨pa', hat, hrun⟩
    · rw [hrun]
      exact .full hnil he
    rw [hrun]
    refine .created hnil hat (h.attach hat hn hfind hseg (.inl ⟨rfl, rfl⟩)
      (hins ▸ hat.treeAt_fresh) (hins ▸ hat.link)) ?_
    rw [← hins]
    exact Function.update_self _ _ _
  · rw [if_pos fun h0 => hnil ((rootOff_eq_zero (h.wf.rising n) (by omega)).mp h0)]
    exact .found hnil

/-- **One round of `add`.** -/
theorem AreaInv.addStep_spec (h : AreaInv pa g) {n : ℕ} (hn : g.IsNode n) {seg : Bytes}
    (hseg : seg ≠ [] ∧ 0 ∉ seg ∧ dot ∉ seg) : StepOutcome pa g n seg (addStep n seg pa) := by
  have hroot := h.childrenRoot_spec hn hseg
  rw [addStep]
  cases hr : childrenRoot n seg pa with
  | error e pa' =>
    rw [hr] at hroot
    rw [bind_error hr]
    cases hroot with
    | full hnil he => exact .full (by rw [hnil]; rfl) he
  | ok root pa' =>
    rw [hr] at hroot
    rw [bind_ok hr]
    cases hroot with
    | found hne =>
      have hwalk := h.addPropTrieNode_spec seg hne
      generalize addPropTrieNode (rootOff (g.kids n)) seg pa = res at hwalk ⊢
      cases hwalk with
      | found hk => exact .found hk
      | full hf he => exact .full hf he
      | attached hf hat ha hfield htree =>
        exact .grown hf (h.attach_sibling hn hseg hf hat ha hfield htree)
          (h.keeps_attached hat (h.wf.isNode_kid ha)) hat.used_eq
    | created hnil hat hinv hkids =>
      -- the new node is the root of the sibling tree, where the walk finds it at once
      have hfind : (g.kids n).find? cmpPropName seg = none := by rw [hnil]; rfl
      have hfound : SearchTree.find? cmpPropName seg (.node seg pa.bytesUsed .nil .nil) =
          some pa.bytesUsed := by
        have heq : cmpPropName seg seg = .eq := Std.ReflCmp.compare_self
        rw [SearchTree.find?, heq]
      have hwalk := hinv.addPropTrieNode_spec seg (n := n) (by rw [hkids]; simp)
      rw [hkids, rootOff] at hwalk
      generalize addPropTrieNode pa.bytesUsed seg pa' = res at hwalk ⊢
      cases hwalk with
      | found hk =>
        rw [hfound] at hk
        obtain rfl := Option.some.inj hk
        exact .grown hfind hinv (h.keeps_attached hat hn) hat.used_eq
      | full hf => rw [hfound] at hf; cases hf
      | attached hf => rw [hfound] at hf; cases hf

/-! ### The segment loop -/

/-- The space of a list of trie nodes. -/
def nodesExtent (segs : List Bytes) : ℕ := (segs.map nodeExtent).sum

/-- How far the segment loop of `add` has come: the nodes of the segments `done` are new, and the
nodes of `left` are still missing. -/
structure Descended (pa pa' : PropertyAreaMap) (g g' : Shape) (n : ℕ) (segs done left : List Bytes) :
    Prop where
  inv : AreaInv pa' g'
  grows : g.Extends g'
  keeps : Keeps g pa pa'
  missing : g.missing n segs = done ++ left
  missing' : g'.missing n segs = left
  used_eq : pa'.bytesUsed = pa.bytesUsed + nodesExtent done
  same : done = [] → pa' = pa
  hasPath : ∀ q, g'.HasPath q → g.HasPath q ∨ ∃ q', q' <+: segs ∧ q = g.path n ++ q'

theorem Descended.refl (h : AreaInv pa g) (n : ℕ) (segs : List Bytes) :
    Descended pa pa g g n segs [] (g.missing n segs) :=
  ⟨h, .refl g, .refl g pa, rfl, rfl, rfl, fun _ => rfl, fun _ hq => .inl hq⟩

/-- Below an existing node. -/
theorem Descended.found {pa' : PropertyAreaMap} {g' : Shape} {n k : ℕ} {seg : Bytes}
    {segs done left : List Bytes} (h : AreaInv pa g) (hn : g.IsNode n)
    (hk : (g.kids n).find? cmpPropName seg = some k)
    (hd : Descended pa pa' g g' k segs done left) :
    Descended pa pa' g g' n (seg :: segs) done left := by
  obtain ⟨hkn, hkp⟩ := (h.wf.find_kid_iff hn).mp hk
  have hk' : (g'.kids n).find? cmpPropName seg = some k := by
    rw [hd.inv.wf.find_kid_iff (hd.grows.isNode hn)]
    exact ⟨hd.grows.isNode hkn, by rw [hd.grows.path k hkn, hd.grows.path n hn, hkp]⟩
  refine ⟨hd.inv, hd.grows, hd.keeps, ?_, ?_, hd.used_eq, hd.same, fun q hq => ?_⟩
  · rw [Shape.missing, hk]
    exact hd.missing
  · rw [Shape.missing, hk']
    exact hd.missing'
  · refine (hd.hasPath q hq).imp id ?_
    rintro ⟨q', hq', rfl⟩
    refine ⟨seg :: q', List.cons_prefix_cons.mpr ⟨rfl, hq'⟩, ?_⟩
    rw [hkp, List.append_assoc]
    rfl

theorem Shape.hasPath_grow {n off : ℕ} {seg : Bytes} {q : List Bytes}
    (h : (g.grow n seg off).HasPath q) : g.HasPath q ∨ q = g.path n ++ [seg] := by
  obtain ⟨k, hk, rfl⟩ := h
  by_cases hko : k = off
  · exact .inr (by rw [hko]; exact Function.update_self _ _ _)
  · rw [Shape.path_grow_of_ne hko]
    exact .inl ⟨k, (Shape.isNode_grow.mp hk).resolve_right hko, rfl⟩

/-- Below a node that has just been created, nothing is there yet. -/
theorem Shape.missing_grow {used n : ℕ} (h : g.Wf used) (hn : g.IsNode n) (hl : 112 ≤ used)
    (seg : Bytes) (segs : List Bytes) : (g.grow n seg used).missing used segs = segs := by
  have hnode : ∀ k, g.IsNode k → k ≠ used := fun k hk => by
    have := h.node_lt hk hl
    omega
  have hnil : (g.grow n seg used).kids used = .nil := by
    rw [Shape.grow]
    simp only [Function.update_of_ne (hnode n hn).symm]
    exact h.kids_eq_nil fun hk => hnode _ hk rfl
  cases segs with
  | nil => rfl
  | cons s segs =>
    rw [Shape.missing, hnil]
    rfl

/-- Below a node this round has created. -/
theorem Descended.grown {pa1 pa' : PropertyAreaMap} {g' : Shape} {n : ℕ} {seg : Bytes}
    {segs done left : List Bytes} (h : AreaInv pa g) (hn : g.IsNode n)
    (hf : (g.kids n).find? cmpPropName seg = none) (hkeep : Keeps g pa pa1)
    (hused : pa1.bytesUsed = pa.bytesUsed + nodeExtent seg)
    (hd : Descended pa1 pa' (g.grow n seg pa.bytesUsed) g' pa.bytesUsed segs done left) :
    Descended pa pa' g g' n (seg :: segs) (seg :: done) left := by
  have hlow := h.basic.used_low
  have hext := Shape.Extends.grow h.wf hlow n seg
  have hext' := hext.trans hd.grows
  have hnew : (g.grow n seg pa.bytesUsed).path pa.bytesUsed = g.path n ++ [seg] :=
    Function.update_self _ _ _
  have hoff : (g.grow n seg pa.bytesUsed).IsNode pa.bytesUsed := Shape.isNode_grow.mpr (.inr rfl)
  have hk' : (g'.kids n).find? cmpPropName seg = some pa.bytesUsed := by
    rw [hd.inv.wf.find_kid_iff (hext'.isNode hn)]
    exact ⟨hd.grows.isNode hoff, by rw [hd.grows.path _ hoff, hext'.path n hn, hnew]⟩
  have hmiss := hd.missing
  rw [Shape.missing_grow h.wf hn hlow] at hmiss
  refine ⟨hd.inv, hext', hkeep.trans hd.keeps hext.blocks, ?_, ?_, ?_, by simp, fun q hq => ?_⟩
  · rw [Shape.missing, hf, hmiss]
    rfl
  · rw [Shape.missing, hk']
    exact hd.missing'
  · rw [hd.used_eq, hused, nodesExtent, nodesExtent, List.map_cons, List.sum_cons]
    omega
  · rcases hd.hasPath q hq with hq | ⟨q', hq', rfl⟩
    · refine (Shape.hasPath_grow hq).imp id fun he => ?_
      exact ⟨[seg], List.cons_prefix_cons.mpr ⟨rfl, List.nil_prefix⟩, he⟩
    · refine .inr ⟨seg :: q', List.cons_prefix_cons.mpr ⟨rfl, hq'⟩, ?_⟩
      rw [hnew, List.append_assoc]
      rfl

/-- **The segment loop of `add`** creates the missing nodes and ends at the node of the path, or
fails at the first one that does not fit; either way the shape has only grown. -/
theorem AreaInv.addLoop_spec (h : AreaInv pa g) (segs : List Bytes) {n : ℕ} (hn : g.IsNode n)
    (hsegs : ∀ s ∈ segs, s ≠ [] ∧ 0 ∉ s ∧ dot ∉ s) :
    ∃ pa' g' done left, Descended pa pa' g g' n segs done left ∧
      ((∃ (e : Error) (seg : Bytes) (rest : List Bytes), left = seg :: rest ∧
          AllocFailure e pa'.bytesUsed (nodeExtent seg) ∧ addLoop segs n pa = .error e pa') ∨
       (∃ k, left = [] ∧ addLoop segs n pa = .ok k pa' ∧ g'.IsNode k ∧
          g'.path k = g.path n ++ segs)) := by
  induction segs generalizing pa g n with
  | nil => exact ⟨pa, g, _, _, .refl h n [], .inr ⟨n, rfl, rfl, hn, by simp⟩⟩
  | cons seg segs ih =>
    have hrest : ∀ s ∈ segs, s ≠ [] ∧ 0 ∉ s ∧ dot ∉ s := fun s hs =>
      hsegs s (List.mem_cons_of_mem _ hs)
    have hstep := h.addStep_spec hn (hsegs seg (by simp))
    rw [addLoop_cons]
    cases hr : addStep n seg pa with
    | error e pa' =>
      rw [hr] at hstep
      cases hstep with
      | full hf he =>
        refine ⟨pa, g, _, _, .refl h n (seg :: segs), .inl ⟨e, seg, segs, ?_, he, bind_error hr⟩⟩
        rw [Shape.missing, hf]
    | ok k pa' =>
      rw [hr] at hstep
      rw [bind_ok hr]
      cases hstep with
      | found hk =>
        obtain ⟨hkn, hkp⟩ := (h.wf.find_kid_iff hn).mp hk
        obtain ⟨pa', g', done, left, hd, hres⟩ := ih h hkn hrest
        refine ⟨pa', g', done, left, hd.found h hn hk, hres.imp id ?_⟩
        rintro ⟨k', hleft, hk', hnode, hpath⟩
        refine ⟨k', hleft, hk', hnode, ?_⟩
        rw [hpath, hkp, List.append_assoc]
        rfl
      | grown hf hinv hkeep hused =>
        obtain ⟨pa'', g'', done, left, hd, hres⟩ :=
          ih hinv (Shape.isNode_grow.mpr (.inr rfl)) hrest
        refine ⟨pa'', g'', seg :: done, left, hd.grown h hn hf hkeep hused, hres.imp id ?_⟩
        rintro ⟨k', hleft, hk', hnode, hpath⟩
        refine ⟨k', hleft, hk', hnode, ?_⟩
        have hnew : (g.grow n seg pa.bytesUsed).path pa.bytesUsed = g.path n ++ [seg] :=
          Function.update_self _ _ _
        rw [hpath, hnew, List.append_assoc]
        rfl

/-! ### `add` -/

/-- The names `add` accepts: no NUL and no empty segment. -/
def ProperName (name : Bytes) : Prop := 0 ∉ name ∧ ∀ s ∈ splitDot name, s ≠ []

instance (name : Bytes) : Decidable (ProperName name) := instDecidableAnd

/-- Allocations that hold no node keep the invariant. -/
theorem AreaInv.of_grown {pa' : PropertyAreaMap} {used : ℕ} {g' : Shape} (h : AreaInv pa g)
    (hg : Grown pa pa' used) (hw : g'.Wf used) (hk : g'.kids = g.kids) (hp : g'.path = g.path)
    (he : g'.entry = g.entry) (hn : ∀ n, g'.IsNode n → g.IsNode n) : AreaInv pa' g' := by
  have hlow := h.basic.used_low
  have hrep : Rep pa'.mmap.data g := by
    refine h.rep.congr_blocks h.wf (hg.same.mono (by omega) (by omega)) fun b hb => ?_
    have := h.wf.layout.high b hb
    exact hg.same.mono (by omega) (by omega)
  refine ⟨hg.basic, hg.used_eq ▸ hw, hrep.root, fun n hn' => ?_, fun n hn' => ?_, fun n => ?_,
    fun n e he' => ?_⟩
  · rw [hrep.children n (hn n hn'), hk]
  · rw [hrep.prop n (hn n hn'), he]
  · rw [hk]
    exact hrep.tree n
  · rw [hp]
    exact hrep.entry n e (he ▸ he')

/-- The blocks of a new entry. -/
def Shape.allocEntry (g : Shape) (off : ℕ) (name value : Bytes) : Shape :=
  if propValueMax ≤ value.length then
    (g.alloc ⟨off, .entry name⟩).alloc ⟨off + entryExtent name, .long value⟩
  else g.alloc ⟨off, .entry name⟩

/-- Allocating the blocks of a new entry. -/
theorem Shape.Wf.allocEntry {used : ℕ} (h : g.Wf used) (hm : used % 4 = 0) (hl : 112 ≤ used)
    (name value : Bytes) : (g.allocEntry used name value).Wf
      (used + entryExtent name + if propValueMax ≤ value.length then longExtent value else 0) := by
  have he := h.alloc (o := .entry name) (by simp) hm hl
  have hmod := (Obj.entry name).extent_mod
  rw [Shape.allocEntry]
  split_ifs with hv
  · exact he.alloc (o := .long value) (by simp) (by simp only [Obj.extent] at hmod ⊢; omega)
      (by simp only [Obj.extent]; omega)
  · exact he

theorem Shape.allocEntry_fields (g : Shape) (off : ℕ) (name value : Bytes) :
    (g.allocEntry off name value).kids = g.kids ∧ (g.allocEntry off name value).path = g.path ∧
    (g.allocEntry off name value).entry = g.entry ∧
    (∀ n, (g.allocEntry off name value).IsNode n ↔ g.IsNode n) ∧
    ⟨off, .entry name⟩ ∈ (g.allocEntry off name value).blocks ∧
    (propValueMax ≤ value.length →
      ⟨off + entryExtent name, .long value⟩ ∈ (g.allocEntry off name value).blocks) ∧
    g.blocks ⊆ (g.allocEntry off name value).blocks := by
  rw [Shape.allocEntry]
  split_ifs with hv
  · refine ⟨rfl, rfl, rfl, fun n => by simp [Shape.IsNode, Shape.alloc], by simp [Shape.alloc],
      fun _ => by simp [Shape.alloc], fun b hb => by simp [Shape.alloc, hb]⟩
  · exact ⟨rfl, rfl, rfl, fun n => by simp, by simp [Shape.alloc], fun h => absurd h hv,
      fun b hb => by simp [Shape.alloc, hb]⟩

/-- The space of a new entry, with its out-of-line value. -/
def boundExtent (name value : Bytes) : ℕ :=
  entryExtent name + if propValueMax ≤ value.length then longExtent value else 0

theorem Shape.missing_congr {g' : Shape} (h : g'.kids = g.kids) (n : ℕ) (segs : List Bytes) :
    g'.missing n segs = g.missing n segs := by
  induction segs generalizing n with
  | nil => rfl
  | cons seg segs ih =>
    rw [Shape.missing, Shape.missing, h]
    cases (g.kids n).find? cmpPropName seg with
    | none => rfl
    | some k => exact ih k

/-- The outcomes of what `add` does at the node of the name, once it is there. -/
inductive BindOutcome (pa : PropertyAreaMap) (g : Shape) (name value : Bytes) :
    EStateM.Result Error PropertyAreaMap Unit → Prop
  | full {e : Error} (he : AllocFailure e pa.bytesUsed (entryExtent name)) :
      BindOutcome pa g name value (.error e pa)
  /-- The entry block stays allocated, linked from nowhere. -/
  | stranded {e : Error} {pa' : PropertyAreaMap} (hv : propValueMax ≤ value.length)
      (hinv : AreaInv pa' (g.alloc ⟨pa.bytesUsed, .entry name⟩)) (hkeep : Keeps g pa pa')
      (hused : pa'.bytesUsed = pa.bytesUsed + entryExtent name)
      (he : AllocFailure e pa'.bytesUsed (longExtent value)) :
      BindOutcome pa g name value (.error e pa')
  | bound {pa' : PropertyAreaMap} {g' : Shape} (hinv : AreaInv pa' g') (hkeep : Keeps g pa pa')
      (hsub : g.blocks ⊆ g'.blocks)
      (hlookup : g'.lookup = Function.update g.lookup name (some ⟨pa.bytesUsed, value⟩))
      (hused : pa'.bytesUsed = pa.bytesUsed + boundExtent name value)
      (hpath : ∀ q, g'.HasPath q ↔ g.HasPath q) : BindOutcome pa g name value (.ok () pa')

/-- The memory after the store of a `prop` link. -/
def publishedProp (m : Mem) (n off : ℕ) : Mem := writeU32 m (n + 128 + LinkField.prop.offset) off

/-- **Publishing a new entry**: an entry written behind the allocated blocks, then its `prop` link. -/
theorem AreaInv.publishEntry {pa' : PropertyAreaMap} (h : AreaInv pa g) {k : ℕ} {name value : Bytes}
    (hk : g.IsNode k) (hk0 : k ≠ 0) (hname : joinDot (g.path k) = name) (hv : 0 ∉ value)
    (hg : Grown pa pa' (pa.bytesUsed + entryExtent name +
      if propValueMax ≤ value.length then longExtent value else 0))
    (hat : EntryAt pa'.mmap.data pa.bytesUsed name value) :
    storeLink k .prop pa.bytesUsed pa' =
        .ok () (pa'.withData (publishedProp pa'.mmap.data k pa.bytesUsed)) ∧
      AreaInv pa' (g.allocEntry pa.bytesUsed name value) ∧
      AreaInv (pa'.withData (publishedProp pa'.mmap.data k pa.bytesUsed))
        ((g.allocEntry pa.bytesUsed name value).bindEntry k ⟨pa.bytesUsed, value⟩) := by
  obtain ⟨hkids, hpath, hentry, hnode, hb, hlong, -⟩ :=
    g.allocEntry_fields pa.bytesUsed name value
  have hw := h.wf.allocEntry h.basic.used_mod h.basic.used_low name value
  have hinv := h.of_grown hg hw hkids hpath hentry fun n hn => (hnode n).mp hn
  have hpk : joinDot ((g.allocEntry pa.bytesUsed name value).path k) = name := by rw [hpath, hname]
  have hk1 := (hnode k).mpr hk
  have hlt := hinv.wf.node_lt hk1 hinv.basic.used_low
  have hhigh := hinv.basic.used_high
  refine ⟨storeLink_run hinv.basic .prop (hinv.wf.node_mod hk1) (by omega), hinv, ?_⟩
  refine hinv.storeProp (e := ⟨pa.bytesUsed, value⟩) hk1 hk0 ?_ ?_ hv ?_
  all_goals rw [hpk]
  · exact hb
  · exact hlong
  · exact hat

/-- What `add` does at the name's node, once it is there. -/
theorem AreaInv.bindNew_spec (h : AreaInv pa g) {k : ℕ} {name value : Bytes} (hk : g.IsNode k)
    (hk0 : k ≠ 0) (hname : joinDot (g.path k) = name) (hv : 0 ∉ value) :
    BindOutcome pa g name value
      ((newPropInfo name value >>= fun off => storeLink k .prop off) pa) := by
  have hmod := h.basic.used_mod
  have hlow := h.basic.used_low
  rcases newPropInfo_spec h.basic name value with
    ⟨e, he, hr⟩ | ⟨hlen, e, pa', he, hr, hg⟩ | ⟨pa', hr, hg, hat⟩
  · rw [bind_error hr]
    exact .full he
  · rw [bind_error hr]
    have hw : (g.alloc ⟨pa.bytesUsed, .entry name⟩).Wf (pa.bytesUsed + entryExtent name) :=
      h.wf.alloc (by simp) hmod hlow
    exact .stranded hlen (h.of_grown hg hw rfl rfl rfl fun n hn => Shape.isNode_alloc_entry.mp hn)
      (h.keeps_grown hg) hg.used_eq (hg.used_eq ▸ he)
  · obtain ⟨-, hpath, hentry, hnode, -, -, hsub⟩ :=
      g.allocEntry_fields pa.bytesUsed name value
    obtain ⟨hst, hinv, hbind⟩ := h.publishEntry hk hk0 hname hv hg hat
    rw [bind_ok hr, hst]
    generalize g.allocEntry pa.bytesUsed name value = g1 at *
    have hext : g.Extends g1 := ⟨hsub, fun n _ => congrFun hpath n, hentry⟩
    have hpk : joinDot (g1.path k) = name := by rw [hpath, hname]
    have hk1 := (hnode k).mpr hk
    have hused : (pa'.withData (publishedProp pa'.mmap.data k pa.bytesUsed)).bytesUsed =
        pa'.bytesUsed :=
      readU32_writeU32_of_disjoint (by simp only [LinkField.offset]; omega)
    refine .bound hbind ((h.keeps_grown hg).trans (hinv.keeps_of_same hk1 ⟨_, rfl⟩ ?_) hsub) hsub
      ?_ ?_ fun q => ?_
    · intro x y _ _ hxy
      exact (sameOn_writeU32 (by simp only [LinkField.offset]; omega)).symm
    · rw [hinv.wf.lookup_bindEntry (hused ▸ hbind.wf), hpk, hext.lookup_eq h.wf hinv.wf]
    · rw [hused, hg.used_eq, boundExtent]
      omega
    · refine exists_congr fun n => and_congr (hnode n) ?_
      rw [← hpath]
      rfl

/-- Why `add` found the area full, and what it has taken of it by then. -/
inductive FullCause (pa pa' : PropertyAreaMap) (g g' : Shape) (name value : Bytes) (e : Error) : Prop
  /-- A node of the name does not fit. -/
  | node {done rest : List Bytes} {seg : Bytes}
      (hm : g.missing 0 (splitDot name) = done ++ seg :: rest)
      (hm' : g'.missing 0 (splitDot name) = seg :: rest)
      (hused : pa'.bytesUsed = pa.bytesUsed + nodesExtent done)
      (he : AllocFailure e pa'.bytesUsed (nodeExtent seg)) (hsame : done = [] → pa' = pa)
  /-- The entry does not fit. -/
  | entry (hm' : g'.missing 0 (splitDot name) = [])
      (hused : pa'.bytesUsed = pa.bytesUsed + nodesExtent (g.missing 0 (splitDot name)))
      (he : AllocFailure e pa'.bytesUsed (entryExtent name))
      (hsame : g.missing 0 (splitDot name) = [] → pa' = pa)
  /-- The entry has been allocated, its long value does not fit. -/
  | long (hv : propValueMax ≤ value.length) (hm' : g'.missing 0 (splitDot name) = [])
      (hused : pa'.bytesUsed = pa.bytesUsed + nodesExtent (g.missing 0 (splitDot name)) +
        entryExtent name)
      (he : AllocFailure e pa'.bytesUsed (longExtent value))

/-- The outcomes of `add`. -/
inductive AddOutcome (pa : PropertyAreaMap) (g : Shape) (name value : Bytes) :
    EStateM.Result Error PropertyAreaMap Unit → Prop
  /-- A name with a NUL or an empty segment: nothing has been touched. -/
  | refused {e : Error} (hname : ¬ ProperName name) : AddOutcome pa g name value (.error e pa)
  /-- A full area: blocks may have been allocated, nothing has been bound. -/
  | full {e : Error} {pa' : PropertyAreaMap} {g' : Shape} (hname : ProperName name)
      (he : FullCause pa pa' g g' name value e) (hinv : AreaInv pa' g') (hkeep : Keeps g pa pa')
      (hsub : g.blocks ⊆ g'.blocks) (hlookup : g'.lookup = g.lookup)
      (hl : g.lookup name = none) : AddOutcome pa g name value (.error e pa')
  /-- The name was bound already. -/
  | kept {pa' : PropertyAreaMap} {g' : Shape} {e : Entry} (hname : ProperName name)
      (hl : g.lookup name = some e) (hinv : AreaInv pa' g') (hkeep : Keeps g pa pa')
      (hsub : g.blocks ⊆ g'.blocks) (hlookup : g'.lookup = g.lookup) :
      AddOutcome pa g name value (.ok () pa')
  /-- The name has been bound. -/
  | bound {pa' : PropertyAreaMap} {g' : Shape} {off : ℕ} (hname : ProperName name)
      (hl : g.lookup name = none) (hinv : AreaInv pa' g') (hkeep : Keeps g pa pa')
      (hsub : g.blocks ⊆ g'.blocks)
      (hlookup : g'.lookup = Function.update g.lookup name (some ⟨off, value⟩))
      (hused : pa'.bytesUsed = pa.bytesUsed + nodesExtent (g.missing 0 (splitDot name)) +
        boundExtent name value)
      (hpath : ∀ q, g'.HasPath q ↔ g.HasPath q ∨ q <+: splitDot name) :
      AddOutcome pa g name value (.ok () pa')

theorem properName_iff {name : Bytes} (h0 : 0 ∉ name) :
    (name.isEmpty || (splitDot name).any List.isEmpty) = true ↔ ¬ ProperName name := by
  constructor
  · intro h hp
    rcases Bool.or_eq_true_iff.mp h with h | h
    · rw [List.isEmpty_iff] at h
      exact hp.2 [] (by simp [h, splitDot]) rfl
    · obtain ⟨s, hs, he⟩ := List.any_eq_true.mp h
      exact hp.2 s hs (List.isEmpty_iff.mp he)
  · intro h
    by_contra hne
    refine h ⟨h0, fun s hs he => hne ?_⟩
    exact Bool.or_eq_true_iff.mpr (.inr (List.any_eq_true.mpr ⟨s, hs, List.isEmpty_iff.mpr he⟩))

/-- **`add`**: a rejected name changes nothing; a full area changes no lookup; otherwise the name is
bound to the value, unless it was bound before. -/
theorem AreaInv.add_spec (h : AreaInv pa g) (name : Bytes) {value : Bytes} (hv : 0 ∉ value) :
    AddOutcome pa g name value (add name value pa) := by
  cases hnul : validateNoInteriorNul "property name" name with
  | error e =>
    rw [add, bind_error (look_error hnul)]
    refine .refused fun hp => ?_
    rw [validateNoInteriorNul_eq_ok.mpr hp.1] at hnul
    cases hnul
  | ok _ =>
    have h0 : 0 ∉ name := validateNoInteriorNul_eq_ok.mp hnul
    rw [add, bind_ok (look_ok hnul)]
    by_cases hp : ProperName name
    · rw [if_neg (fun hc => (properName_iff h0).mp hc hp)]
      have hsegs : ∀ s ∈ splitDot name, s ≠ [] ∧ 0 ∉ s ∧ dot ∉ s := fun s hs =>
        ⟨hp.2 s hs, fun hm => h0 ((mem_of_mem_splitDot hs).1 0 hm), (mem_of_mem_splitDot hs).2⟩
      obtain ⟨pa1, g1, done, left, hd, ⟨e, seg, rest, rfl, he, hr⟩ | ⟨k, rfl, hr, hk, hpath⟩⟩ :=
        h.addLoop_spec (splitDot name) (.inl rfl) hsegs
      · rw [bind_error hr]
        exact .full hp (.node hd.missing hd.missing' hd.used_eq he hd.same) hd.inv hd.keeps
          hd.grows.blocks (hd.grows.lookup_eq h.wf hd.inv.wf)
          (Shape.Wf.lookup_of_missing g (by rw [hd.missing]; simp))
      rw [bind_ok hr]
      have hinv := hd.inv
      have hmiss : g.missing 0 (splitDot name) = done := by rw [hd.missing, List.append_nil]
      rw [h.wf.path_root, List.nil_append] at hpath
      have hwalk : g1.walk 0 (splitDot name) = some k := hinv.wf.walk_eq_some_iff.mpr ⟨hk, hpath⟩
      have hlook : g.lookup name = g1.entry k := by
        rw [← hd.grows.lookup_eq h.wf hinv.wf, Shape.lookup, hwalk]
        rfl
      obtain ⟨node, hload, -, hprop⟩ := hinv.trieNode_eq hk
      rw [bind_ok (look_ok hload), hprop]
      cases he : g1.entry k with
      | some e =>
        have hpos := (hinv.entry_bounds he).2.1
        simp only [Option.map_some, Option.getD_some]
        rw [if_neg (by omega)]
        exact .kept hp (hlook.trans he) hinv hd.keeps hd.grows.blocks
          (hd.grows.lookup_eq h.wf hinv.wf)
      | none =>
        simp only [Option.map_none, Option.getD_none, if_true]
        have hk0 : k ≠ 0 := by
          rintro rfl
          rw [hinv.wf.path_root] at hpath
          exact splitDot_ne_nil name hpath.symm
        have hbind := hinv.bindNew_spec hk hk0 (by rw [hpath, joinDot_splitDot]) hv
        generalize (newPropInfo name value >>= fun off => storeLink k .prop off) pa1 = res at hbind ⊢
        cases hbind with
        | full hea =>
          refine .full hp (.entry hd.missing' ?_ hea ?_) hinv hd.keeps hd.grows.blocks
            (hd.grows.lookup_eq h.wf hinv.wf) (hlook.trans he)
          · rw [hmiss, hd.used_eq]
          · rw [hmiss]
            exact hd.same
        | stranded hlen hinv2 hkeep2 hused hea =>
          have hext2 := hd.grows.trans (Shape.Extends.alloc g1 ⟨pa1.bytesUsed, .entry name⟩)
          refine .full hp (.long hlen ?_ ?_ hea) hinv2 (hd.keeps.trans hkeep2 hd.grows.blocks)
            hext2.blocks (hext2.lookup_eq h.wf hinv2.wf) (hlook.trans he)
          · have hkids : (g1.alloc ⟨pa1.bytesUsed, .entry name⟩).kids = g1.kids := rfl
            exact (Shape.missing_congr hkids _ _).trans hd.missing'
          · rw [hmiss, hused, hd.used_eq]
        | bound hinv2 hkeep2 hsub2 hl2 hused hpaths =>
          rw [hd.grows.lookup_eq h.wf hinv.wf] at hl2
          refine .bound hp (hlook.trans he) hinv2 (hd.keeps.trans hkeep2 hd.grows.blocks)
            (List.Subset.trans hd.grows.blocks hsub2) hl2 ?_ fun q => ?_
          · rw [hmiss, hused, hd.used_eq]
          · rw [hpaths q]
            refine ⟨fun hq => (hd.hasPath q hq).imp id ?_, ?_⟩
            · rintro ⟨q', hq', rfl⟩
              rwa [h.wf.path_root, List.nil_append]
            · rintro (⟨n, hn, rfl⟩ | hq)
              · exact ⟨n, hd.grows.isNode hn, hd.grows.path n hn⟩
              · exact hinv.wf.hasPath_prefix ⟨k, hk, hpath⟩ hq
    · rw [if_pos ((properName_iff h0).mpr hp)]
      exact .refused hp

/-! ### Updating a short entry -/

section Update

variable {n : ℕ} {e : Entry}

/-- Rewriting a short entry in place binds the new value there. -/
theorem AreaInv.rewriteEntry {value : Bytes} {m : Mem} (h : AreaInv pa g) (he : g.entry n = some e)
    (hv : 0 ∉ value) (hlen : value.length < propValueMax)
    (hs : ∀ x y, y ≤ e.off + 128 ∨ e.off + 224 ≤ x → SameOn pa.mmap.data m x y)
    (hat : EntryAt m e.off (joinDot (g.path n)) value) :
    AreaInv (pa.withData m) (g.bindEntry n ⟨e.off, value⟩) := by
  obtain ⟨hn, hn0⟩ := h.wf.entry_node n e he
  have hb := h.wf.entry_block n e he
  obtain ⟨-, hlow, hstop⟩ := h.entry_bounds he
  have hge := entryExtent_ge (joinDot (g.path n))
  have hused : (pa.withData m).bytesUsed = pa.bytesUsed :=
    (readU32_congr (hs 0 4 (by omega))).symm
  -- the other blocks do not meet the entry
  have hblock : ∀ b ∈ g.blocks, b.off ≠ e.off →
      SameOn pa.mmap.data m (b.off + 128) (b.stop + 128) := by
    intro b hb' hne
    rcases h.wf.layout.disjoint hb' hb with rfl | hd | hd
    · exact absurd rfl hne
    · exact hs _ _ (.inl (by simp only at hd; omega))
    · simp only [Block.stop, Obj.extent] at hd
      exact hs _ _ (.inr (by omega))
  have hnode : ∀ k, g.IsNode k → SameOn pa.mmap.data m (k + 128) (k + 148) := by
    intro k hk
    have hne : e.off ≠ k := h.wf.entry_ne_node hk hb (by simp)
    rcases h.wf.node_block_apart hk hb hne with hd | hd
    · simp only [Block.stop, Obj.extent] at hd
      exact hs _ _ (.inr (by omega))
    · simp only at hd
      exact hs _ _ (.inl (by omega))
  refine ⟨h.basic.withData_of_sameOn (hs 0 4 (by omega)),
    hused ▸ h.wf.bindEntry hn hn0 hb (fun hl => absurd hl (by simp only; omega)) hv,
    ?_, fun k hk => ?_, fun k hk => ?_, fun k => ?_, fun k e' he' => ?_⟩
  · rw [withData_data, linkAt_congr (hnode 0 (.inl rfl)), linkAt_congr (hnode 0 (.inl rfl))]
    exact h.rep.root
  · exact (linkAt_congr (hnode k hk)).trans (h.rep.children k hk)
  · rw [withData_data, linkAt_congr (hnode k hk), h.rep.prop k hk]
    simp only [Shape.bindEntry, Function.update_apply]
    split_ifs with hkn
    · rw [hkn, he]
      rfl
    · rfl
  · refine (h.rep.tree k).congr (fun p hp hat => ?_) fun p hp => ?_
    · have hpb := h.wf.kid_block k p hp
      have hne : e.off ≠ p.2 := h.wf.entry_ne_node (h.wf.isNode_kid hp) hb (by simp)
      have hsame := hblock _ hpb hne.symm
      have := nodeExtent_ge p.1
      simp only [Block.stop, Obj.extent] at hsame
      exact hat.congr (hsame.mono le_rfl (by omega)) (hsame.mono (by omega) (by omega))
    · have hsame := hnode _ (h.wf.isNode_kid hp)
      exact ⟨linkAt_congr hsame, linkAt_congr hsame⟩
  · simp only [Shape.bindEntry, Function.update_apply] at he'
    split_ifs at he' with hkn
    · obtain rfl := Option.some.inj he'
      subst hkn
      exact hat
    · have hne : e'.off ≠ e.off := fun ho => hkn (h.wf.entry_injective he' he ho)
      refine (h.rep.entry k e' he').congr ?_ fun hl => ?_
      · have hsame := hblock _ (h.wf.entry_block k e' he') hne
        simp only [Block.stop, Obj.extent] at hsame
        exact hsame.mono le_rfl (by omega)
      · have hlb := h.wf.long_block k e' he' hl
        have hne' : e'.off + entryExtent (joinDot (g.path k)) ≠ e.off := fun ho => by
          have := congrArg Block.obj (h.wf.layout.eq_of_off hlb hb ho)
          cases this
        have hsame := hblock _ hlb hne'
        simp only [Block.stop, Obj.extent] at hsame
        exact hsame.mono le_rfl (by omega)

/-- The backup slot belongs to no block. -/
theorem AreaInv.of_backup {m : Mem} (h : AreaInv pa g)
    (hs : ∀ x y, y ≤ 148 ∨ 240 ≤ x → SameOn pa.mmap.data m x y) :
    AreaInv (pa.withData m) g := by
  have hused : (pa.withData m).bytesUsed = pa.bytesUsed :=
    (readU32_congr (hs 0 4 (by omega))).symm
  refine ⟨h.basic.withData_of_sameOn (hs 0 4 (by omega)), hused ▸ h.wf,
    h.rep.congr_blocks h.wf (hs _ _ (by omega)) fun b hb => hs _ _ (.inr ?_)⟩
  have := h.wf.layout.low b hb
  omega

/-- `set_dirty_backup_area` stores into the backup slot or refuses. -/
theorem setDirtyBackupArea_spec (h : pa.Basic) (backup : Bytes) :
    (backupSize ≤ backup.length ∧ ∃ err, setDirtyBackupArea backup pa = .error err pa) ∨
    (backup.length < backupSize ∧ setDirtyBackupArea backup pa =
      .ok () (pa.withData (writeBytes pa.mmap.data 148 (backup ++ [0])))) := by
  have hw : pa.mmap.requireWritable = .ok () := by
    rw [MemoryMap.requireWritable, h.writable]
    rfl
  have hsize : backupSize = 92 := rfl
  rw [setDirtyBackupArea, bind_ok (look_ok hw)]
  by_cases hb : backup.length < backupSize
  · refine .inr ⟨hb, ?_⟩
    have hd : pa.mmap.atomicData trieNodeSize pa.dataOffset (backup.length + 1) = .ok 148 := by
      rw [h.dataOffset]
      exact MemoryMap.dataAt_eq_ok h.size_le (by rw [h.size, trieNodeSize]; omega)
    rw [if_neg (by rw [usizeMax]; omega), if_neg (by omega), bind_ok (look_ok hd)]
    rfl
  · refine .inl ⟨by omega, ?_⟩
    by_cases hu : usizeMax < backup.length + 1
    · exact ⟨_, by rw [if_pos hu]; rfl⟩
    · exact ⟨_, by rw [if_neg hu, if_pos (by omega)]; rfl⟩

theorem sameOn_backup {m : Mem} {backup : Bytes} (hb : backup.length < backupSize) {x y : ℕ}
    (hxy : y ≤ 148 ∨ 240 ≤ x) : SameOn m (writeBytes m 148 (backup ++ [0])) x y := by
  have hsize : backupSize = 92 := rfl
  refine (sameOn_writeBytes ?_).symm
  rw [List.length_append, List.length_singleton]
  omega

/-- The memory after the seqlock write of a short value. -/
def appliedWrite (m : Mem) (a : ℕ) (value : Bytes) : Mem :=
  let m' := PropertyInfo.writeValue (writeU32 m a (PropertyInfo.dirtySerial (readU32 m a))) a value
  writeU32 m' a (PropertyInfo.nextSerial value.length (readU32 m a))

theorem sameOn_appliedWrite {m : Mem} {a : ℕ} {value : Bytes} (hv : value.length < propValueMax)
    {x y : ℕ} (hxy : y ≤ a ∨ a + 96 ≤ x) : SameOn m (appliedWrite m a value) x y := by
  have h1 : SameOn m (writeU32 m a (PropertyInfo.dirtySerial (readU32 m a))) x y :=
    (sameOn_writeU32 (by omega)).symm
  exact (h1.trans (PropertyInfo.sameOn_writeValue hv (by omega))).trans
    (sameOn_writeU32 (by omega)).symm

/-- `apply_write` refuses a long entry and a long value, and otherwise publishes the next serial
over the new value. -/
theorem applyWriteAt_spec (h : pa.Basic) {off : ℕ} (hm : off % 4 = 0) (hb : off + 96 ≤ 130944)
    (value : Bytes) :
    ((PropertyInfo.isLong pa.mmap.data (off + 128) = true ∨ propValueMax ≤ value.length) ∧
      ∃ err, applyWriteAt off value pa = .error err pa) ∨
    (PropertyInfo.isLong pa.mmap.data (off + 128) = false ∧ value.length < propValueMax ∧
      applyWriteAt off value pa =
        .ok () (pa.withData (appliedWrite pa.mmap.data (off + 128) value))) := by
  rw [applyWriteAt, bind_ok (look_ok (propertyInfoMut_eq_ok h hm hb))]
  by_cases hl : PropertyInfo.isLong pa.mmap.data (off + 128) = true
  · refine .inl ⟨.inl hl, ?_⟩
    rw [PropertyInfo.isLong] at hl
    have hr : PropertyInfo.applyWrite pa.mmap.data (off + 128) value = .error _ := if_pos hl
    exact ⟨_, by rw [bind_error (look_error hr)]⟩
  have hl' : ¬ (PropertyInfo.serial pa.mmap.data (off + 128) &&& longFlag != 0) = true := hl
  by_cases hv : value.length < propValueMax
  · refine .inr ⟨by simpa using hl, hv, ?_⟩
    have hr : PropertyInfo.applyWrite pa.mmap.data (off + 128) value =
        .ok (PropertyInfo.nextSerial value.length (readU32 pa.mmap.data (off + 128)),
          appliedWrite pa.mmap.data (off + 128) value) := by
      rw [PropertyInfo.applyWrite]
      simp only
      rw [if_neg hl', if_neg (by omega)]
      rfl
    rw [bind_ok (look_ok hr)]
    rfl
  · refine .inl ⟨.inr (by omega), ?_⟩
    have hr : PropertyInfo.applyWrite pa.mmap.data (off + 128) value = .error
        (.invalidArgument s!"Value too long: {value.length} (max: {propValueMax - 1})") := by
      rw [PropertyInfo.applyWrite]
      simp only
      rw [if_neg hl', if_pos (by omega)]
    exact ⟨_, by rw [bind_error (look_error hr)]⟩

/-- What a seqlock write leaves in a short entry. -/
theorem EntryAt.appliedWrite {m : Mem} {off : ℕ} {name old value : Bytes}
    (h : EntryAt m off name old) (hold : old.length < propValueMax)
    (hv : value.length < propValueMax) :
    EntryAt (appliedWrite m (off + 128) value) off name value ∧
      PropertyInfo.serial (RsProperties.appliedWrite m (off + 128) value) (off + 128) =
        PropertyInfo.nextSerial value.length (PropertyInfo.serial m (off + 128)) := by
  have hser : PropertyInfo.serial (RsProperties.appliedWrite m (off + 128) value) (off + 128) =
      PropertyInfo.nextSerial value.length (PropertyInfo.serial m (off + 128)) := by
    refine readU32_writeU32_of_lt (PropertyInfo.nextSerial_lt ?_)
    rw [propValueMax] at hv
    omega
  refine ⟨⟨?_, fun _ => ⟨?_, ?_⟩, fun hl => absurd hl (by omega)⟩, hser⟩
  · exact h.name_at.congr (sameOn_appliedWrite hv (.inr (by omega)))
  · rw [hser]
    exact PropertyInfo.nextSerial_clean (h.short hold).1 _
  · rw [RsProperties.appliedWrite, PropertyInfo.writeValue_of_lt hv]
    exact (holds_writeBytes _ _ _).congr (sameOn_writeU32 (by omega)).symm

/-- The outcomes of `backup_and_apply_write` at the entry `e` of the node `n`. -/
inductive UpdateOutcome (pa : PropertyAreaMap) (g : Shape) (n : ℕ) (e : Entry)
    (backup value : Bytes) : EStateM.Result Error PropertyAreaMap Unit → Prop
  /-- The backup does not fit its slot. -/
  | refused {err : Error} (hb : backupSize ≤ backup.length) :
      UpdateOutcome pa g n e backup value (.error err pa)
  /-- A long entry or a long value: only the backup slot has been written. -/
  | failed {err : Error} {m : Mem} (hb : backup.length < backupSize)
      (hv : propValueMax ≤ e.value.length ∨ propValueMax ≤ value.length)
      (hinv : AreaInv (pa.withData m) g)
      (hs : ∀ x y, y ≤ 148 ∨ 240 ≤ x → SameOn pa.mmap.data m x y) :
      UpdateOutcome pa g n e backup value (.error err (pa.withData m))
  /-- The entry reads the new value under the next serial. -/
  | updated {m : Mem} (hb : backup.length < backupSize) (he : e.value.length < propValueMax)
      (hv : value.length < propValueMax)
      (hinv : AreaInv (pa.withData m) (g.bindEntry n ⟨e.off, value⟩))
      (hs : ∀ x y, y ≤ 148 ∨ 240 ≤ x → y ≤ e.off + 128 ∨ e.off + 224 ≤ x →
        SameOn pa.mmap.data m x y)
      (hser : PropertyInfo.serial m (e.off + 128) = PropertyInfo.nextSerial value.length
        (PropertyInfo.serial pa.mmap.data (e.off + 128))) :
      UpdateOutcome pa g n e backup value (.ok () (pa.withData m))

/-- **`backup_and_apply_write`** on a bound entry. -/
theorem AreaInv.update_spec (h : AreaInv pa g) (he : g.entry n = some e) (backup : Bytes)
    {value : Bytes} (hv : 0 ∉ value) :
    UpdateOutcome pa g n e backup value (backupAndApplyWrite e.off backup value pa) := by
  obtain ⟨hmod, hlow, hstop⟩ := h.entry_bounds he
  have hge := entryExtent_ge (joinDot (g.path n))
  have hhigh := h.basic.used_high
  rw [backupAndApplyWrite]
  rcases setDirtyBackupArea_spec h.basic backup with ⟨hb, err, hr⟩ | ⟨hb, hr⟩
  · rw [bind_error hr]
    exact .refused hb
  rw [bind_ok hr]
  have hs : ∀ x y, y ≤ 148 ∨ 240 ≤ x → SameOn pa.mmap.data
      (writeBytes pa.mmap.data 148 (backup ++ [0])) x y := fun x y hxy => sameOn_backup hb hxy
  have hinv := h.of_backup hs
  generalize writeBytes pa.mmap.data 148 (backup ++ [0]) = m at hs hinv ⊢
  have hlong := hinv.isLong_eq he
  rw [withData_data] at hlong
  rcases applyWriteAt_spec hinv.basic hmod (by omega) value with ⟨hl, err, hr⟩ | ⟨hl, hlen, hr⟩
  · rw [hr]
    refine .failed hb ?_ hinv hs
    rw [withData_data, hlong, decide_eq_true_iff] at hl
    exact hl
  · rw [withData_data, hlong, decide_eq_false_iff_not] at hl
    have hold : e.value.length < propValueMax := by omega
    obtain ⟨hat, hser⟩ := (hinv.rep.entry n e he).appliedWrite hold hlen
    have hs' : ∀ x y, y ≤ e.off + 128 ∨ e.off + 224 ≤ x → SameOn m
        (RsProperties.appliedWrite m (e.off + 128) value) x y := fun x y hxy =>
      sameOn_appliedWrite hlen (by omega)
    rw [hr]
    refine .updated hb hold hlen (hinv.rewriteEntry he hv hlen hs' hat)
      (fun x y h1 h2 => (hs x y h1).trans (hs' x y h2)) ?_
    have hser0 : PropertyInfo.serial m (e.off + 128) =
        PropertyInfo.serial pa.mmap.data (e.off + 128) :=
      (readU32_congr (hs _ _ (.inr (by omega)))).symm
    rw [← hser0]
    exact hser

end Update

end RsProperties
