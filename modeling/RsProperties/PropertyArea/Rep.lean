import RsProperties.PropertyArea.Shape

/-!
# How an area represents a shape

`Rep m g` says that the bytes `m` hold the shape `g`: every node carries its segment, the links of
the nodes are those of the sibling trees, and every bound node's `prop` link leads to an entry that
reads the bound value. `AreaInv` adds the dimensions of the area and the well-formedness of the
shape; it is the invariant of all writers.

Each store of a writer is covered by one frame lemma: stores outside the blocks
(`Rep.congr_blocks`), the attachment of a fresh node (`AreaInv.attach`) and the store of a `prop`
link (`AreaInv.bindEntry`).
-/

namespace RsProperties

open ByteMem StateExcept PropertyAreaMap

/-- The offset a link to a sibling tree stores. -/
def rootOff : SearchTree Bytes ℕ → ℕ
  | .nil => 0
  | .node _ off _ _ => off

/-- The bytes hold a sibling tree. -/
def TreeAt (m : Mem) : SearchTree Bytes ℕ → Prop
  | .nil => True
  | .node seg off l r =>
    NodeAt m off seg ∧ linkAt m off .left = rootOff l ∧ linkAt m off .right = rootOff r ∧
      TreeAt m l ∧ TreeAt m r

/-- The serial word of a long entry. -/
def longSerial : ℕ := longLegacyError.length <<< 24 ||| longFlag

/-- The bytes hold an entry with its trailing name: a short value in the slot under a clean serial,
or a long value behind the entry under the long header. -/
structure EntryAt (m : Mem) (off : ℕ) (name value : Bytes) : Prop where
  name_at : Holds m (off + 96 + 128) (name ++ [0])
  short : value.length < propValueMax →
    PropertyInfo.CleanSerial (PropertyInfo.serial m (off + 128)) value.length ∧
      Holds m (off + 128 + 4) (value ++ [0])
  long : propValueMax ≤ value.length → PropertyInfo.serial m (off + 128) = longSerial ∧
    Holds m (off + 128 + 4)
      (PropertyInfo.errorBytesPadded longLegacyErrorBufferSize longLegacyError) ∧
    readU32 m (off + 128 + 4 + longLegacyErrorBufferSize) = entryExtent name ∧
    Holds m (off + entryExtent name + 128) (value ++ [0])

/-- The bytes hold the shape. -/
structure Rep (m : Mem) (g : Shape) : Prop where
  root : linkAt m 0 .left = 0 ∧ linkAt m 0 .right = 0
  children : ∀ n, g.IsNode n → linkAt m n .children = rootOff (g.kids n)
  prop : ∀ n, g.IsNode n → linkAt m n .prop = ((g.entry n).map Entry.off).getD 0
  tree : ∀ n, TreeAt m (g.kids n)
  entry : ∀ n e, g.entry n = some e → EntryAt m e.off (joinDot (g.path n)) e.value

/-- The invariant of the writers. -/
structure AreaInv (pa : PropertyAreaMap) (g : Shape) : Prop where
  basic : pa.Basic
  wf : g.Wf pa.bytesUsed
  rep : Rep pa.mmap.data g

/-! ### Frames -/

section Frames

variable {m m' : Mem}

theorem PropertyAreaMap.NodeAt.congr {off : ℕ} {seg : Bytes} (h : NodeAt m off seg)
    (h0 : SameOn m m' (off + 128) (off + 132))
    (hs : SameOn m m' (off + 148) (off + 149 + seg.length)) : NodeAt m' off seg := by
  refine ⟨(readU32_congr (h0.mono le_rfl (by omega))).symm.trans h.1, h.2.congr ?_⟩
  exact hs.mono (by omega) (by rw [List.length_append, List.length_singleton]; omega)

theorem PropertyAreaMap.linkAt_congr {off : ℕ} {f : LinkField} (h : SameOn m m' (off + 128) (off + 148)) :
    linkAt m' off f = linkAt m off f := by
  refine (readU32_congr (h.mono (by omega) ?_)).symm
  cases f <;> simp [LinkField.offset]

theorem TreeAt.nodeAt {t : SearchTree Bytes ℕ} (ht : TreeAt m t) {p : Bytes × ℕ}
    (hp : p ∈ t.toList) : NodeAt m p.2 p.1 := by
  induction t with
  | nil => simp [SearchTree.toList] at hp
  | node s off l r ihl ihr =>
    obtain ⟨hn, -, -, hl, hr⟩ := ht
    simp only [SearchTree.toList, List.mem_append, List.mem_cons] at hp
    rcases hp with hp | rfl | hp
    · exact ihl hl hp
    · exact hn
    · exact ihr hr hp

/-- A sibling tree survives when its nodes keep their segments and their sibling links. -/
theorem TreeAt.congr {t : SearchTree Bytes ℕ} (h : TreeAt m t)
    (hn : ∀ p ∈ t.toList, NodeAt m p.2 p.1 → NodeAt m' p.2 p.1)
    (hl : ∀ p ∈ t.toList, linkAt m' p.2 .left = linkAt m p.2 .left ∧
      linkAt m' p.2 .right = linkAt m p.2 .right) : TreeAt m' t := by
  induction t with
  | nil => trivial
  | node seg off l r ihl ihr =>
    obtain ⟨h1, h2, h3, h4, h5⟩ := h
    have here : (seg, off) ∈ (SearchTree.node seg off l r).toList := by simp [SearchTree.toList]
    refine ⟨hn _ here h1, (hl _ here).1.trans h2, (hl _ here).2.trans h3, ?_, ?_⟩
    · exact ihl h4 (fun p hp => hn p (by simp [SearchTree.toList, hp]))
        fun p hp => hl p (by simp [SearchTree.toList, hp])
    · exact ihr h5 (fun p hp => hn p (by simp [SearchTree.toList, hp]))
        fun p hp => hl p (by simp [SearchTree.toList, hp])

theorem EntryAt.congr {off : ℕ} {name value : Bytes} (h : EntryAt m off name value)
    (hs : SameOn m m' (off + 128) (off + 128 + entryExtent name))
    (hlong : propValueMax ≤ value.length → SameOn m m' (off + entryExtent name + 128)
      (off + entryExtent name + 128 + longExtent value)) : EntryAt m' off name value := by
  have hge := entryExtent_ge name
  have hgl := longExtent_ge value
  have hser : PropertyInfo.serial m (off + 128) = PropertyInfo.serial m' (off + 128) :=
    readU32_congr (hs.mono le_rfl (by omega))
  refine ⟨h.name_at.congr (hs.mono (by omega) ?_), fun hv => ?_, fun hv => ?_⟩
  · rw [List.length_append, List.length_singleton]
    omega
  · obtain ⟨h1, h2⟩ := h.short hv
    rw [propValueMax] at hv
    refine ⟨hser ▸ h1, h2.congr (hs.mono (by omega) ?_)⟩
    rw [List.length_append, List.length_singleton]
    omega
  · obtain ⟨h1, h2, h3, h4⟩ := h.long hv
    refine ⟨hser ▸ h1, h2.congr (hs.mono (by omega) ?_), ?_, h4.congr ((hlong hv).mono le_rfl ?_)⟩
    · have hlen : (PropertyInfo.errorBytesPadded longLegacyErrorBufferSize
          longLegacyError).length = 56 := by decide
      rw [hlen]
      omega
    · rw [← h3]
      refine (readU32_congr (hs.mono (by omega) ?_)).symm
      rw [longLegacyErrorBufferSize]
      omega
    · rw [List.length_append, List.length_singleton]
      omega

variable {g : Shape} {used : ℕ}

/-- Stores that keep the root node and all blocks keep the representation. -/
theorem Rep.congr_blocks (h : Rep m g) (hw : g.Wf used) (hroot : SameOn m m' 128 148)
    (hb : ∀ b ∈ g.blocks, SameOn m m' (b.off + 128) (b.stop + 128)) : Rep m' g := by
  have hnode : ∀ n, g.IsNode n → SameOn m m' (n + 128) (n + 148) := by
    rintro n (rfl | ⟨seg, hn⟩)
    · exact hroot
    · have := nodeExtent_ge seg
      exact (hb _ hn).mono le_rfl (by simp only [Block.stop, Obj.extent]; omega)
  refine ⟨?_, fun n hn => ?_, fun n hn => ?_, fun n => ?_, fun n e he => ?_⟩
  · rw [linkAt_congr (hnode 0 (.inl rfl)), linkAt_congr (hnode 0 (.inl rfl))]
    exact h.root
  · rw [linkAt_congr (hnode n hn), h.children n hn]
  · rw [linkAt_congr (hnode n hn), h.prop n hn]
  · refine (h.tree n).congr (fun p hp hat => ?_) fun p hp => ?_
    · have hs := hb _ (hw.kid_block n p hp)
      have := nodeExtent_ge p.1
      simp only [Block.stop, Obj.extent] at hs
      exact hat.congr (hs.mono le_rfl (by omega)) (hs.mono (by omega) (by omega))
    · have hs := hnode p.2 (hw.isNode_kid hp)
      exact ⟨linkAt_congr hs, linkAt_congr hs⟩
  · refine (h.entry n e he).congr ?_ fun hv => ?_
    · have hs := hb _ (hw.entry_block n e he)
      simp only [Block.stop, Obj.extent] at hs
      exact hs.mono le_rfl (by omega)
    · have hs := hb _ (hw.long_block n e he hv)
      simp only [Block.stop, Obj.extent] at hs
      exact hs.mono le_rfl (by omega)

end Frames

/-! ### Attaching a fresh node -/

/-- A fresh node of the given segment has been allocated and a link of `a` set to it. -/
structure Attached (pa pa' : PropertyAreaMap) (a : ℕ) (f : LinkField) (seg : Bytes) : Prop where
  shape : ∃ m, pa' = pa.withData m
  basic : pa'.Basic
  used_eq : pa'.bytesUsed = pa.bytesUsed + nodeExtent seg
  node : NodeAt pa'.mmap.data pa.bytesUsed seg
  fresh : ∀ f', linkAt pa'.mmap.data pa.bytesUsed f' = 0
  link : linkAt pa'.mmap.data a f = pa.bytesUsed
  same : ∀ x y, 4 ≤ x → y ≤ pa.bytesUsed + 128 →
    y ≤ a + 128 + f.offset ∨ a + 128 + f.offset + 4 ≤ x → SameOn pa.mmap.data pa'.mmap.data x y

section Attach

variable {pa pa' : PropertyAreaMap} {a : ℕ} {f : LinkField} {seg : Bytes}

theorem LinkField.offset_bounds (f : LinkField) : 4 ≤ f.offset ∧ f.offset + 4 ≤ 20 := by
  cases f <;> decide

/-- Allocating a node and storing the link to it. -/
theorem attach_spec (h : pa.Basic) (f : LinkField) (seg : Bytes) (ha : a % 4 = 0)
    (hb : a + 20 ≤ pa.bytesUsed) {k : ℕ → AreaM ℕ} :
    (∃ e : Error, AllocFailure e pa.bytesUsed (nodeExtent seg) ∧
      (newPropTrieNode seg >>= fun new => storeLink a f new >>= fun _ => k new) pa = .error e pa) ∨
    (∃ pa', Attached pa pa' a f seg ∧
      (newPropTrieNode seg >>= fun new => storeLink a f new >>= fun _ => k new) pa =
        k pa.bytesUsed pa') := by
  have hhigh := h.used_high
  obtain ⟨hf1, hf2⟩ := f.offset_bounds
  rcases newPropTrieNode_spec h seg with ⟨e, he, hr⟩ | ⟨hfit, pa1, hr, hg, hnode, hfresh⟩
  · exact .inl ⟨e, he, bind_error hr⟩
  refine .inr ?_
  have hst := @storeLink_run pa1 hg.basic a pa.bytesUsed f ha (by omega)
  -- the link cell lies below the fresh node
  have hsame : ∀ x y, y ≤ a + 128 + f.offset ∨ a + 128 + f.offset + 4 ≤ x →
      SameOn pa1.mmap.data (writeU32 pa1.mmap.data (a + 128 + f.offset) pa.bytesUsed) x y :=
    fun x y hxy => (sameOn_writeU32 hxy).symm
  have hused : (pa1.withData (writeU32 pa1.mmap.data (a + 128 + f.offset)
      pa.bytesUsed)).bytesUsed = pa.bytesUsed + nodeExtent seg := by
    rw [bytesUsed_withData, ← readU32_congr (hsame 0 4 (by omega))]
    exact hg.used_eq
  refine ⟨_, ⟨?_, hg.basic.withData_of_sameOn (hsame 0 4 (by omega)), hused, ?_, fun f' => ?_, ?_,
    fun x y hx hy hxy => ?_⟩, by rw [bind_ok hr, bind_ok hst]⟩
  · obtain ⟨m, rfl⟩ := hg.shape
    exact ⟨_, rfl⟩
  · exact hnode.congr (hsame _ _ (by omega)) (hsame _ _ (by omega))
  · exact (linkAt_congr (hsame _ _ (by omega))).trans (hfresh f')
  · exact readU32_writeU32_of_lt (by omega)
  · exact (hg.same.mono hx hy).trans (hsame x y hxy)

/-- Links other than the stored one are as before. -/
theorem Attached.linkAt_eq (h : Attached pa pa' a f seg) {n : ℕ} {f' : LinkField}
    (hn : n + 20 ≤ pa.bytesUsed) (hna : n ≠ a → n + 20 ≤ a ∨ a + 20 ≤ n)
    (hne : n ≠ a ∨ f' ≠ f) : linkAt pa'.mmap.data n f' = linkAt pa.mmap.data n f' := by
  obtain ⟨h1, h2⟩ := f.offset_bounds
  obtain ⟨h1', h2'⟩ := f'.offset_bounds
  refine (readU32_congr (h.same _ _ (by omega) (by omega) ?_)).symm
  by_cases hnn : n = a
  · have hff := hne.resolve_left (not_not_intro hnn)
    subst hnn
    revert hff
    cases f <;> cases f' <;> simp [LinkField.offset]
  · have := hna hnn
    omega

theorem Attached.nodeAt (h : Attached pa pa' a f seg) {n : ℕ} {s : Bytes}
    (hn : n + nodeExtent s ≤ pa.bytesUsed)
    (hna : n ≠ a → n + nodeExtent s ≤ a ∨ a + 20 ≤ n) (hat : NodeAt pa.mmap.data n s) :
    NodeAt pa'.mmap.data n s := by
  obtain ⟨h1, h2⟩ := f.offset_bounds
  have hge := nodeExtent_ge s
  by_cases hnn : n = a
  · subst hnn
    exact hat.congr (h.same _ _ (by omega) (by omega) (by omega))
      (h.same _ _ (by omega) (by omega) (by omega))
  · have := hna hnn
    exact hat.congr (h.same _ _ (by omega) (by omega) (by omega))
      (h.same _ _ (by omega) (by omega) (by omega))

variable {g : Shape}

/-- A node and a block that is not its own do not overlap. -/
theorem Shape.Wf.node_block_apart {used : ℕ} (h : g.Wf used) (ha : g.IsNode a) {b : Block}
    (hb : b ∈ g.blocks) (hne : b.off ≠ a) : b.stop ≤ a ∨ a + 20 ≤ b.off := by
  rcases ha with rfl | ⟨s, hs⟩
  · have := h.layout.low b hb
    omega
  · have hge := nodeExtent_ge s
    rcases h.layout.disjoint hb hs with rfl | hd | hd
    · exact absurd rfl hne
    · exact .inl hd
    · simp only [Block.stop, Obj.extent] at hd
      omega

/-- The nodes of a represented tree keep their segments when a link is stored. -/
theorem AreaInv.nodeAt_attached (h : AreaInv pa g) (hat : Attached pa pa' a f seg)
    (ha : g.IsNode a) {n : ℕ} {s : Bytes} (hb : ⟨n, .node s⟩ ∈ g.blocks)
    (hn : NodeAt pa.mmap.data n s) : NodeAt pa'.mmap.data n s :=
  hat.nodeAt (h.wf.layout.high _ hb) (fun hne => h.wf.node_block_apart ha hb hne) hn

theorem AreaInv.linkAt_attached (h : AreaInv pa g) (hat : Attached pa pa' a f seg)
    (ha : g.IsNode a) {n : ℕ} (hn : g.IsNode n) {f' : LinkField} (hne : n ≠ a ∨ f' ≠ f) :
    linkAt pa'.mmap.data n f' = linkAt pa.mmap.data n f' :=
  hat.linkAt_eq (h.wf.node_lt hn h.basic.used_low)
    (fun hna => (h.wf.node_apart hn ha).resolve_left hna) hne

/-- An entry's block is none of the nodes. -/
theorem Shape.Wf.entry_ne_node {used : ℕ} (h : g.Wf used) (ha : g.IsNode a) {b : Block}
    (hb : b ∈ g.blocks) (ho : ∀ s, b.obj ≠ .node s) : b.off ≠ a := by
  rintro rfl
  rcases ha with h0 | ⟨s, hs⟩
  · have := h.layout.low b hb
    omega
  · exact ho s (congrArg Block.obj (h.layout.eq_of_off hb hs rfl))

/-- Stores to node headers keep the allocated entries. -/
theorem AreaInv.entryAt_of_same {m' : Mem} (h : AreaInv pa g) (ha : g.IsNode a)
    (hs : ∀ x y, 4 ≤ x → y ≤ pa.bytesUsed + 128 → y ≤ a + 128 ∨ a + 148 ≤ x →
      SameOn pa.mmap.data m' x y) {off : ℕ} {name value : Bytes}
    (hb : ⟨off, .entry name⟩ ∈ g.blocks)
    (hlong : propValueMax ≤ value.length → ⟨off + entryExtent name, .long value⟩ ∈ g.blocks)
    (hat : EntryAt pa.mmap.data off name value) : EntryAt m' off name value := by
  have hblock : ∀ b ∈ g.blocks, (∀ s, b.obj ≠ .node s) →
      SameOn pa.mmap.data m' (b.off + 128) (b.stop + 128) := by
    intro b hb ho
    have hhigh := h.wf.layout.high b hb
    rcases h.wf.node_block_apart ha hb (h.wf.entry_ne_node ha hb ho) with hd | hd
    · exact hs _ _ (by omega) (by omega) (by omega)
    · exact hs _ _ (by omega) (by omega) (by omega)
  refine hat.congr ?_ fun hv => ?_
  · have hs := hblock _ hb (by simp)
    simp only [Block.stop, Obj.extent] at hs
    exact hs.mono le_rfl (by omega)
  · have hs := hblock _ (hlong hv) (by simp)
    simp only [Block.stop, Obj.extent] at hs
    exact hs.mono le_rfl (by omega)

/-- **Attaching a node below `n`** keeps the invariant, once the new sibling tree is known to be
represented. The stored link is `n`'s `children` link or a sibling link inside `n`'s tree. -/
theorem AreaInv.attach {n : ℕ} (h : AreaInv pa g) (hat : Attached pa pa' a f seg)
    (hn : g.IsNode n) (hf : (g.kids n).find? cmpPropName seg = none)
    (hseg : seg ≠ [] ∧ 0 ∉ seg ∧ dot ∉ seg)
    (hplace : a = n ∧ f = .children ∨
      (∃ s, (s, a) ∈ (g.kids n).toList) ∧ (f = .left ∨ f = .right))
    (htree : TreeAt pa'.mmap.data ((g.kids n).insert cmpPropName seg pa.bytesUsed))
    (hroot : linkAt pa'.mmap.data n .children =
      rootOff ((g.kids n).insert cmpPropName seg pa.bytesUsed)) :
    AreaInv pa' (g.grow n seg pa.bytesUsed) := by
  have hlow := h.basic.used_low
  have ha : g.IsNode a := by
    rcases hplace with ⟨rfl, -⟩ | ⟨⟨s, hs⟩, -⟩
    · exact hn
    · exact h.wf.isNode_kid hs
  have hused : ∀ k, g.IsNode k → k ≠ pa.bytesUsed := fun k hk => by
    have := h.wf.node_lt hk hlow
    omega
  have hnil : g.kids pa.bytesUsed = .nil := h.wf.kids_eq_nil fun hk => hused _ hk rfl
  refine ⟨hat.basic, hat.used_eq ▸ h.wf.grow hn hf hseg h.basic.used_mod hlow, ?_, ?_, ?_, ?_, ?_⟩
  · -- the root has no siblings, so a sibling link is stored elsewhere
    have hne : 0 ≠ a ∨ f = .children := by
      rcases hplace with ⟨-, hfc⟩ | ⟨⟨s, hs⟩, -⟩
      · exact .inr hfc
      · have := h.wf.layout.low _ (h.wf.kid_block n _ hs)
        exact .inl (by simp only at this; omega)
    rw [h.linkAt_attached hat ha (.inl rfl) (hne.imp id (by rintro rfl; decide)),
      h.linkAt_attached hat ha (.inl rfl) (hne.imp id (by rintro rfl; decide))]
    exact h.rep.root
  · intro k hk
    by_cases hkn : k = n
    · rw [hkn, hroot]
      simp [Shape.grow]
    simp only [Shape.grow, Function.update_of_ne hkn]
    rcases Shape.isNode_grow.mp hk with hk | rfl
    · rw [h.linkAt_attached hat ha hk, h.rep.children k hk]
      rcases hplace with ⟨rfl, -⟩ | ⟨-, rfl | rfl⟩
      · exact .inl hkn
      all_goals exact .inr (by decide)
    · rw [hat.fresh, hnil, rootOff]
  · intro k hk
    rcases Shape.isNode_grow.mp hk with hk | rfl
    · rw [h.linkAt_attached hat ha hk, h.rep.prop k hk]
      · rfl
      · rcases hplace with ⟨-, rfl⟩ | ⟨-, rfl | rfl⟩ <;> exact .inr (by decide)
    · have hnone : g.entry pa.bytesUsed = none := by
        cases he : g.entry pa.bytesUsed with
        | none => rfl
        | some e => exact absurd rfl (hused _ (h.wf.entry_node _ e he).1)
      rw [hat.fresh]
      simp [Shape.grow, hnone]
  · intro k
    by_cases hkn : k = n
    · rw [hkn]
      simpa [Shape.grow] using htree
    simp only [Shape.grow, Function.update_of_ne hkn]
    refine (h.rep.tree k).congr (fun p hp hnode => ?_) fun p hp => ?_
    · exact h.nodeAt_attached hat ha (h.wf.kid_block k p hp) hnode
    · have hpn := h.wf.isNode_kid hp
      -- a sibling link stored in another tree is not one of this tree's nodes
      have hne : p.2 ≠ a ∨ f = .children := by
        rcases hplace with ⟨-, hfc⟩ | ⟨⟨s, hs⟩, -⟩
        · exact .inr hfc
        · refine .inl fun hpa => hkn ?_
          have h1 := h.wf.path_kid k p hp
          have h2 := h.wf.path_kid n _ hs
          simp only at h2
          rw [hpa, h2] at h1
          exact (h.wf.path_injective hn (h.wf.kid_parent k p hp)
            (List.append_inj' h1 rfl).1).symm
      refine ⟨h.linkAt_attached hat ha hpn (hne.imp id ?_),
        h.linkAt_attached hat ha hpn (hne.imp id ?_)⟩ <;> (rintro rfl; decide)
  · intro k e he
    rw [Shape.path_grow_of_ne (hused k (h.wf.entry_node k e he).1)]
    obtain ⟨hf1, hf2⟩ := f.offset_bounds
    exact h.entryAt_of_same ha (fun x y hx hy hxy => hat.same x y hx hy (by omega))
      (h.wf.entry_block k e he) (h.wf.long_block k e he) (h.rep.entry k e he)

end Attach

/-! ### Binding an entry -/

/-- **Storing the `prop` link** of a node to an allocated entry binds the entry there. -/
theorem AreaInv.storeProp {pa : PropertyAreaMap} {g : Shape} (h : AreaInv pa g) {n : ℕ} {e : Entry}
    (hn : g.IsNode n) (hn0 : n ≠ 0)
    (hb : ⟨e.off, .entry (joinDot (g.path n))⟩ ∈ g.blocks)
    (hlong : propValueMax ≤ e.value.length →
      ⟨e.off + entryExtent (joinDot (g.path n)), .long e.value⟩ ∈ g.blocks)
    (hv : 0 ∉ e.value) (hat : EntryAt pa.mmap.data e.off (joinDot (g.path n)) e.value) :
    AreaInv (pa.withData (writeU32 pa.mmap.data (n + 128 + LinkField.prop.offset) e.off))
      (g.bindEntry n e) := by
  have hsame : ∀ x y, y ≤ n + 132 ∨ n + 136 ≤ x → SameOn pa.mmap.data
      (writeU32 pa.mmap.data (n + 128 + LinkField.prop.offset) e.off) x y :=
    fun x y hxy => (sameOn_writeU32 (by simp only [LinkField.offset]; omega)).symm
  have hhigh := h.basic.used_high
  have hstop := h.wf.layout.high _ hb
  have hpos := entryExtent_ge (joinDot (g.path n))
  simp only [Block.stop, Obj.extent] at hstop
  have hlink : ∀ k, g.IsNode k → ∀ f, k ≠ n ∨ f ≠ .prop → linkAt (writeU32 pa.mmap.data
      (n + 128 + LinkField.prop.offset) e.off) k f = linkAt pa.mmap.data k f := by
    intro k hk f hne
    have hap := h.wf.node_apart hk hn
    refine (readU32_congr (hsame _ _ ?_)).symm
    cases f <;> simp only [LinkField.offset, ne_eq, not_true_eq_false, or_false] at hne ⊢ <;> omega
  have hused : (pa.withData (writeU32 pa.mmap.data (n + 128 + LinkField.prop.offset)
      e.off)).bytesUsed = pa.bytesUsed := (readU32_congr (hsame 0 4 (by omega))).symm
  refine ⟨h.basic.withData_of_sameOn (hsame 0 4 (by omega)),
    hused ▸ h.wf.bindEntry hn hn0 hb hlong hv, ?_, ?_, ?_, ?_, ?_⟩
  · rw [withData_data, hlink 0 (.inl rfl) _ (.inr (by decide)),
      hlink 0 (.inl rfl) _ (.inr (by decide))]
    exact h.rep.root
  · intro k hk
    exact (hlink k hk .children (.inr (by decide))).trans (h.rep.children k hk)
  · intro k hk
    simp only [Shape.bindEntry, Function.update_apply]
    split_ifs with hkn
    · subst hkn
      exact readU32_writeU32_of_lt (by omega)
    · exact (hlink k hk .prop (.inl hkn)).trans (h.rep.prop k hk)
  · intro k
    refine (h.rep.tree k).congr (fun p hp hnode => ?_) fun p hp => ?_
    · have hp' := h.wf.kid_block k p hp
      have hge := nodeExtent_ge p.1
      have hap := fun hne => h.wf.node_block_apart hn hp' hne
      simp only [Block.stop, Obj.extent] at hap
      by_cases hpn : p.2 = n
      · exact hnode.congr (hsame _ _ (by omega)) (hsame _ _ (by omega))
      · have := hap hpn
        exact hnode.congr (hsame _ _ (by omega)) (hsame _ _ (by omega))
    · have hpn := h.wf.isNode_kid hp
      exact ⟨hlink _ hpn _ (.inr (by decide)), hlink _ hpn _ (.inr (by decide))⟩
  · intro k e' he
    have keep : ∀ {off : ℕ} {name value : Bytes}, ⟨off, .entry name⟩ ∈ g.blocks →
        (propValueMax ≤ value.length → ⟨off + entryExtent name, .long value⟩ ∈ g.blocks) →
        EntryAt pa.mmap.data off name value → EntryAt (writeU32 pa.mmap.data
          (n + 128 + LinkField.prop.offset) e.off) off name value :=
      h.entryAt_of_same hn fun x y _ _ hxy => hsame x y (by omega)
    simp only [Shape.bindEntry, Function.update_apply] at he
    split_ifs at he with hkn
    · obtain rfl := Option.some.inj he
      exact hkn ▸ keep hb hlong hat
    · exact keep (h.wf.entry_block k e' he) (h.wf.long_block k e' he) (h.rep.entry k e' he)

/-! ### The empty area -/

/-- The shape of a fresh area: the root and nothing else. -/
def Shape.empty : Shape where
  blocks := []
  kids := fun _ => .nil
  path := fun _ => []
  entry := fun _ => none

/-- **A fresh area represents the empty shape.** -/
theorem areaInv_newRw : AreaInv newRw .empty := by
  have hused : newRw.bytesUsed = 112 := by decide +kernel
  have hlink : ∀ f, linkAt newRw.mmap.data 0 f = 0 := by
    intro f
    cases f <;> decide +kernel
  have hroot : ∀ n, Shape.empty.IsNode n → n = 0 := by
    rintro n (hn | ⟨s, hs⟩)
    · exact hn
    · simp [Shape.empty] at hs
  refine ⟨⟨rfl, rfl, rfl, rfl, ?_, ?_, ?_⟩, ?_, ?_⟩
  · rw [hused]
  · rw [hused]
  · rw [hused]; omega
  · constructor <;> simp [Shape.empty, SearchTree.toList, SearchTree.Ordered, Rising]
    constructor <;> simp [hused]
  · refine ⟨⟨hlink _, hlink _⟩, fun n hn => ?_, fun n hn => ?_, fun n => trivial, fun n e he => ?_⟩
    · rw [hroot n hn, hlink]
      rfl
    · rw [hroot n hn, hlink]
      rfl
    · simp [Shape.empty] at he

end RsProperties
