import RsProperties.PropertyArea.Basic

/-!
# Allocation and the primitive stores

What the accessors and the allocating operations do on a well-sized writable area. `Basic` collects
the facts no operation ever changes, together with the bounds on `bytes_used`; under it every checked
access below `bytes_used` succeeds, and the only way an allocation fails is a full area, which leaves
the memory as it was.

`Grown pa pa' used` is the frame of everything that allocates: the new area keeps all old bytes
except the `bytes_used` word.
-/

namespace RsProperties

open ByteMem StateExcept

/-- The errors of `allocate_obj`. -/
def Error.isAlloc : Error → Bool
  | .areaFull _ => true
  | .fileSize _ => true
  | _ => false

namespace PropertyAreaMap

/-- The area with other memory contents. -/
def withData (pa : PropertyAreaMap) (m : Mem) : PropertyAreaMap :=
  { pa with mmap := { pa.mmap with data := m } }

@[simp]
theorem withData_data (pa : PropertyAreaMap) (m : Mem) : (pa.withData m).mmap.data = m := rfl

theorem bytesUsed_withData (pa : PropertyAreaMap) (m : Mem) :
    (pa.withData m).bytesUsed = readU32 m 0 := rfl

/-- The fixed dimensions of a `new_rw` area and the bounds on its allocation pointer. -/
structure Basic (pa : PropertyAreaMap) : Prop where
  size : pa.mmap.size = 131072
  writable : pa.mmap.writable = true
  dataOffset : pa.dataOffset = 128
  dataSize : pa.paDataSize = 130944
  used_mod : pa.bytesUsed % 4 = 0
  used_low : 112 ≤ pa.bytesUsed
  used_high : pa.bytesUsed ≤ 130944

theorem look_ok {α : Type} {f : PropertyAreaMap → Except Error α} {pa : PropertyAreaMap} {a : α}
    (h : f pa = .ok a) : look f pa = .ok a pa := by
  simp only [look, h]

theorem look_error {α : Type} {f : PropertyAreaMap → Except Error α} {pa : PropertyAreaMap}
    {e : Error} (h : f pa = .error e) : look f pa = .error e pa := by
  simp only [look, h]

theorem modifyData_run (f : Mem → Mem) (pa : PropertyAreaMap) :
    modifyData f pa = .ok () (pa.withData (f pa.mmap.data)) := rfl

variable {pa : PropertyAreaMap}

theorem Basic.size_le (h : pa.Basic) : pa.mmap.size ≤ usizeMax := by
  rw [h.size]
  decide

/-- New contents with an admissible `bytes_used` word keep the dimensions. -/
theorem Basic.withData (h : pa.Basic) {m : Mem} (hm : readU32 m 0 % 4 = 0)
    (hl : 112 ≤ readU32 m 0) (hh : readU32 m 0 ≤ 130944) : (pa.withData m).Basic :=
  ⟨h.size, h.writable, h.dataOffset, h.dataSize, hm, hl, hh⟩

/-- Stores behind the header keep the dimensions. -/
theorem Basic.withData_of_sameOn (h : pa.Basic) {m : Mem} (hs : SameOn pa.mmap.data m 0 4) :
    (pa.withData m).Basic := by
  have hr : readU32 m 0 = pa.bytesUsed := (readU32_congr hs).symm
  exact h.withData (hr ▸ h.used_mod) (hr ▸ h.used_low) (hr ▸ h.used_high)

/-! ### Checked access to nodes and entries -/

theorem nodeObject_eq_ok (h : pa.Basic) {n : ℕ} (hn : n % 4 = 0) (hb : n + 20 ≤ 130944) :
    pa.mmap.toObject trieNodeSize 4 n pa.dataOffset = .ok (n + 128) := by
  rw [h.dataOffset]
  refine MemoryMap.toObject_eq_ok h.size_le ?_ (by omega)
  rw [h.size, trieNodeSize]
  omega

theorem trieNode_eq_ok (h : pa.Basic) {n : ℕ} (hn : n % 4 = 0) (hb : n + 20 ≤ 130944) :
    pa.trieNode n = .ok (PropertyTrieNode.read pa.mmap.data (n + 128)) := by
  rw [trieNode, except_bind_ok (nodeObject_eq_ok h hn hb)]
  rfl

theorem propertyInfo_eq_ok (h : pa.Basic) {n : ℕ} (hn : n % 4 = 0) (hb : n + 96 ≤ 130944) :
    pa.propertyInfo n = .ok (n + 128) := by
  rw [propertyInfo, h.dataOffset]
  refine MemoryMap.toObject_eq_ok h.size_le ?_ (by omega)
  rw [h.size, propertyInfoSize, propValueMax]
  omega

theorem propertyInfoMut_eq_ok (h : pa.Basic) {n : ℕ} (hn : n % 4 = 0) (hb : n + 96 ≤ 130944) :
    pa.mmap.toObjectMut propertyInfoSize 4 n pa.dataOffset = .ok (n + 128) := by
  rw [h.dataOffset]
  refine MemoryMap.toObjectMut_eq_ok h.writable h.size_le ?_ (by omega)
  rw [h.size, propertyInfoSize, propValueMax]
  omega

/-- A link store on an addressable node. -/
theorem storeLink_run (h : pa.Basic) {n v : ℕ} (f : LinkField) (hn : n % 4 = 0)
    (hb : n + 20 ≤ 130944) : storeLink n f v pa =
      .ok () (pa.withData (writeU32 pa.mmap.data (n + 128 + f.offset) v)) := by
  rw [storeLink, bind_ok (look_ok (nodeObject_eq_ok h hn hb))]
  rfl

/-! ### Allocation -/

/-- The error of an allocation of `extent` bytes over `used` that does not fit: a full area, unless
the sum leaves `u32`. -/
structure AllocFailure (e : Error) (used extent : ℕ) : Prop where
  isAlloc : e.isAlloc = true
  full : 130944 < used + extent
  areaFull : used + extent < 2 ^ 32 → ∃ msg, e = .areaFull msg

/-- `allocate_obj` either fails without a trace or advances `bytes_used`. -/
theorem allocateObj_spec (h : pa.Basic) (size : ℕ) :
    (∃ e : Error, AllocFailure e pa.bytesUsed (bionicAlign size 4) ∧
      allocateObj size pa = .error e pa) ∨
    (pa.bytesUsed + bionicAlign size 4 ≤ 130944 ∧ allocateObj size pa = .ok pa.bytesUsed
      (pa.withData (writeU32 pa.mmap.data 0 (pa.bytesUsed + bionicAlign size 4)))) := by
  rw [allocateObj, bind_ok (get_run pa)]
  by_cases h1 : 2 ^ 32 ≤ bionicAlign size 4
  · exact .inl ⟨_, ⟨rfl, by omega, fun hlt => by omega⟩, by rw [if_pos h1]; rfl⟩
  by_cases h2 : 2 ^ 32 ≤ pa.bytesUsed + bionicAlign size 4
  · exact .inl ⟨_, ⟨rfl, by omega, fun hlt => by omega⟩, by rw [if_neg h1, if_pos h2]; rfl⟩
  by_cases h3 : pa.paDataSize < pa.bytesUsed + bionicAlign size 4
  · rw [if_neg h1, if_neg h2, if_pos h3]
    exact .inl ⟨_, ⟨rfl, h.dataSize ▸ h3, fun _ => ⟨_, rfl⟩⟩, rfl⟩
  refine .inr ⟨by rw [h.dataSize] at h3; omega, ?_⟩
  have ha : pa.mmap.toObjectMut propertyAreaSize 4 0 0 = .ok 0 :=
    MemoryMap.toObjectMut_eq_ok h.writable h.size_le (by rw [h.size]; decide) rfl
  rw [if_neg h1, if_neg h2, if_neg h3, bind_ok (look_ok ha), bind_ok (modifyData_run _ _)]
  rfl

/-- The area `pa'` has allocated up to `used` over `pa`: everything but the `bytes_used` word and
the fresh region is as it was. -/
structure Grown (pa pa' : PropertyAreaMap) (used : ℕ) : Prop where
  shape : ∃ m, pa' = pa.withData m
  basic : pa'.Basic
  used_eq : pa'.bytesUsed = used
  le : pa.bytesUsed ≤ used
  same : SameOn pa.mmap.data pa'.mmap.data 4 (pa.bytesUsed + 128)

/-- Stores into the freshly allocated region keep `Grown`. -/
theorem Grown.store {pa' : PropertyAreaMap} {used : ℕ} (h : Grown pa pa' used) {m : Mem}
    (hs : SameOn pa'.mmap.data m 0 (pa.bytesUsed + 128)) : Grown pa (pa'.withData m) used := by
  obtain ⟨m', rfl⟩ := h.shape
  refine ⟨⟨m, rfl⟩, h.basic.withData_of_sameOn (hs.mono le_rfl (by omega)), ?_, h.le,
    h.same.trans (hs.mono (by omega) le_rfl)⟩
  rw [bytesUsed_withData, ← readU32_congr (hs.mono le_rfl (by omega))]
  exact h.used_eq

theorem Grown.trans {pa' pa'' : PropertyAreaMap} {used used' : ℕ} (h : Grown pa pa' used)
    (h' : Grown pa' pa'' used') : Grown pa pa'' used' := by
  obtain ⟨m, rfl⟩ := h.shape
  obtain ⟨m', rfl⟩ := h'.shape
  have hle := h.le
  have hu := h.used_eq
  refine ⟨⟨m', rfl⟩, h'.basic, h'.used_eq, ?_, h.same.trans (h'.same.mono le_rfl (by omega))⟩
  have := h'.le
  omega

theorem allocateObj_grown (h : pa.Basic) {size : ℕ}
    (hfit : pa.bytesUsed + bionicAlign size 4 ≤ 130944) :
    Grown pa (pa.withData (writeU32 pa.mmap.data 0 (pa.bytesUsed + bionicAlign size 4)))
      (pa.bytesUsed + bionicAlign size 4) := by
  have hu := h.used_mod
  have hl := h.used_low
  have ha := bionicAlign_four_mod size
  have hr : readU32 (writeU32 pa.mmap.data 0 (pa.bytesUsed + bionicAlign size 4)) 0 =
      pa.bytesUsed + bionicAlign size 4 := readU32_writeU32_of_lt (by omega)
  have hs : SameOn (writeU32 pa.mmap.data 0 (pa.bytesUsed + bionicAlign size 4)) pa.mmap.data 4
      (pa.bytesUsed + 128) := sameOn_writeU32 (.inr le_rfl)
  refine ⟨⟨_, rfl⟩, h.withData ?_ ?_ ?_, hr, by omega, hs.symm⟩
  all_goals rw [hr]; omega

/-- The name written behind a freshly allocated object. -/
theorem writeTrailingName_run (h : pa.Basic) (off headerSize : ℕ) (name : Bytes)
    (hb : off + headerSize + name.length + 1 ≤ 130944) :
    writeTrailingName off headerSize name pa =
      .ok () (pa.withData (writeBytes pa.mmap.data (off + headerSize + 128) (name ++ [0]))) := by
  have hu : ¬ usizeMax < off + headerSize := by rw [usizeMax]; omega
  have ha : pa.mmap.dataMut (off + headerSize) pa.dataOffset (name.length + 1) =
      .ok (off + headerSize + 128) := by
    rw [h.dataOffset]
    exact MemoryMap.dataMut_eq_ok h.writable h.size_le (by rw [h.size]; omega)
  rw [writeTrailingName, if_neg hu, bind_ok (look_ok ha)]
  rfl

/-! ### A new trie node -/

/-- A trie node of the given segment stands at the data offset. -/
def NodeAt (m : Mem) (off : ℕ) (seg : Bytes) : Prop :=
  readU32 m (off + 128) = seg.length ∧ Holds m (off + 20 + 128) (seg ++ [0])

/-- The value of a link of the node at the data offset. -/
def linkAt (m : Mem) (off : ℕ) (f : LinkField) : ℕ := readU32 m (off + 128 + f.offset)

theorem read_eq_linkAt (m : Mem) (off : ℕ) : PropertyTrieNode.read m (off + 128) =
    ⟨readU32 m (off + 128), linkAt m off .prop, linkAt m off .left, linkAt m off .right,
      linkAt m off .children⟩ := rfl

private theorem initHeader_frame (m : Mem) {a : ℕ} (namelen : ℕ) {x y : ℕ} (h : y ≤ a ∨ a + 20 ≤ x) :
    SameOn m (PropertyTrieNode.initHeader m a namelen) x y := by
  have h1 : SameOn m (writeU32 m (a + 4) 0) x y := (sameOn_writeU32 (by omega)).symm
  refine h1.trans (.symm ?_)
  refine (sameOn_writeU32 (by omega)).trans ((sameOn_writeU32 (by omega)).trans
    ((sameOn_writeU32 (by omega)).trans (sameOn_writeU32 (by omega))))

private theorem initHeader_fields (m : Mem) (a : ℕ) {namelen : ℕ} (h : namelen < 2 ^ 32) :
    PropertyTrieNode.read (PropertyTrieNode.initHeader m a namelen) a = ⟨namelen, 0, 0, 0, 0⟩ := by
  unfold PropertyTrieNode.read PropertyTrieNode.initHeader
  congr 1
  · exact readU32_writeU32_of_lt h
  · rw [readU32_writeU32_of_disjoint (by omega), readU32_writeU32_of_disjoint (by omega),
      readU32_writeU32_of_disjoint (by omega), readU32_writeU32_of_disjoint (by omega)]
    exact readU32_writeU32_of_lt (by decide)
  · rw [readU32_writeU32_of_disjoint (by omega), readU32_writeU32_of_disjoint (by omega),
      readU32_writeU32_of_disjoint (by omega)]
    exact readU32_writeU32_of_lt (by decide)
  · rw [readU32_writeU32_of_disjoint (by omega), readU32_writeU32_of_disjoint (by omega)]
    exact readU32_writeU32_of_lt (by decide)
  · rw [readU32_writeU32_of_disjoint (by omega)]
    exact readU32_writeU32_of_lt (by decide)

/-- The space a trie node takes. -/
def nodeExtent (seg : Bytes) : ℕ := bionicAlign (20 + seg.length + 1) 4

theorem nodeExtent_ge (seg : Bytes) : 20 + seg.length + 1 ≤ nodeExtent seg :=
  le_bionicAlign_four _

/-- **`new_prop_trie_node`** fails without a trace, or leaves an unlinked node with clear links at
the old `bytes_used`. -/
theorem newPropTrieNode_spec (h : pa.Basic) (seg : Bytes) :
    (∃ e : Error, AllocFailure e pa.bytesUsed (nodeExtent seg) ∧
      newPropTrieNode seg pa = .error e pa) ∨
    (pa.bytesUsed + nodeExtent seg ≤ 130944 ∧
      ∃ pa', newPropTrieNode seg pa = .ok pa.bytesUsed pa' ∧
        Grown pa pa' (pa.bytesUsed + nodeExtent seg) ∧ NodeAt pa'.mmap.data pa.bytesUsed seg ∧
        ∀ f, linkAt pa'.mmap.data pa.bytesUsed f = 0) := by
  rcases allocateObj_spec h (trieNodeSize + seg.length + 1) with ⟨e, he, hr⟩ | ⟨hfit, hr⟩
  · exact .inl ⟨e, he, by rw [newPropTrieNode, bind_error hr]⟩
  refine .inr ⟨hfit, ?_⟩
  have hge : 20 + seg.length + 1 ≤ bionicAlign (trieNodeSize + seg.length + 1) 4 :=
    le_bionicAlign_four _
  have hg := allocateObj_grown h hfit
  generalize hm1 : pa.withData (writeU32 pa.mmap.data 0
    (pa.bytesUsed + bionicAlign (trieNodeSize + seg.length + 1) 4)) = pa1 at hr hg
  have hobj : pa1.mmap.toObjectMut trieNodeSize 4 pa.bytesUsed pa1.dataOffset =
      .ok (pa.bytesUsed + 128) := by
    rw [hg.basic.dataOffset]
    refine MemoryMap.toObjectMut_eq_ok hg.basic.writable hg.basic.size_le ?_ ?_
    · rw [hg.basic.size, trieNodeSize]; omega
    · have := h.used_mod; omega
  have hg2 := hg.store (initHeader_frame pa1.mmap.data seg.length
    (.inl (le_refl (pa.bytesUsed + 128))))
  have hname := writeTrailingName_run hg2.basic pa.bytesUsed trieNodeSize seg (by rw [trieNodeSize]; omega)
  refine ⟨_, ?_, hg2.store (m := writeBytes
    (PropertyTrieNode.initHeader pa1.mmap.data (pa.bytesUsed + 128) seg.length)
    (pa.bytesUsed + trieNodeSize + 128) (seg ++ [0]))
    (sameOn_writeBytes (.inl (by omega))).symm, ⟨?_, ?_⟩, fun f => ?_⟩
  · rw [newPropTrieNode, bind_ok hr, bind_ok (look_ok hobj), bind_ok (modifyData_run _ _),
      bind_ok hname]
    rfl
  · have hf := congrArg PropertyTrieNode.namelen
      (initHeader_fields pa1.mmap.data (pa.bytesUsed + 128)
        (show seg.length < 2 ^ 32 by omega))
    rw [withData_data, readU32_congr (sameOn_writeBytes (.inl (by rw [trieNodeSize]; omega)))]
    exact hf
  · exact holds_writeBytes _ _ _
  · have hf := initHeader_fields pa1.mmap.data (pa.bytesUsed + 128)
        (show seg.length < 2 ^ 32 by omega)
    rw [linkAt, withData_data,
      readU32_congr (sameOn_writeBytes (.inl (by cases f <;> simp [trieNodeSize, LinkField.offset])))]
    cases f with
    | prop => exact congrArg PropertyTrieNode.prop hf
    | left => exact congrArg PropertyTrieNode.left hf
    | right => exact congrArg PropertyTrieNode.right hf
    | children => exact congrArg PropertyTrieNode.children hf

end PropertyAreaMap

end RsProperties
