import RsProperties.PropertyArea.Rep

/-!
# Reading an area

Under the invariant the readers compute what the shape says. `find` follows the walk of the
segments (`Shape.find`), so it succeeds exactly on the bound names and otherwise reports `NotFound`
(or a parse error, on a name with an empty segment); in particular the iteration bound of
`find_prop_trie_node` is never reached, since offsets grow by at least a node header along every
sibling link. The entry found carries the name and reads the bound value.
-/

namespace RsProperties

open ByteMem StateExcept PropertyAreaMap

variable {pa : PropertyAreaMap} {g : Shape}

/-- The stored name of a node is its segment. -/
theorem trieNodeName_eq_ok (h : pa.Basic) {off : ℕ} {seg : Bytes} (hat : NodeAt pa.mmap.data off seg)
    (h0 : 0 ∉ seg) (hb : off + nodeExtent seg ≤ 130944) :
    pa.trieNodeName off seg.length = .ok seg := by
  have hge := nodeExtent_ge seg
  have h1 : ¬ usizeMax < off + trieNodeSize := by rw [usizeMax, trieNodeSize]; omega
  have h2 : ¬ usizeMax < seg.length + 1 := by rw [usizeMax]; omega
  have hd : pa.mmap.dataAt (off + trieNodeSize) pa.dataOffset (seg.length + 1) =
      .ok (off + 20 + 128) := by
    rw [h.dataOffset]
    exact MemoryMap.dataAt_eq_ok h.size_le (by rw [h.size, trieNodeSize]; omega)
  rw [trieNodeName, if_neg h1, if_neg h2, except_bind_ok hd,
    cstr_of_holds hat.2 h0 (Nat.lt_succ_self _)]

/-- What one iteration of the sibling walks loads. -/
theorem AreaInv.load_node (h : AreaInv pa g) {off : ℕ} {seg : Bytes}
    (hb : ⟨off, .node seg⟩ ∈ g.blocks) (hat : NodeAt pa.mmap.data off seg) :
    pa.trieNode off = .ok ⟨seg.length, linkAt pa.mmap.data off .prop,
      linkAt pa.mmap.data off .left, linkAt pa.mmap.data off .right,
      linkAt pa.mmap.data off .children⟩ ∧ pa.trieNodeName off seg.length = .ok seg := by
  have hhigh := h.basic.used_high
  have hstop := h.wf.layout.high _ hb
  have hge := nodeExtent_ge seg
  simp only [Block.stop, Obj.extent] at hstop
  refine ⟨?_, trieNodeName_eq_ok h.basic hat (h.wf.seg_ok off seg hb).2.1 (by omega)⟩
  rw [trieNode_eq_ok h.basic (h.wf.layout.aligned _ hb) (by simp only; omega), read_eq_linkAt,
    hat.1]

/-- A sibling tree whose root link is `0` is empty. -/
theorem rootOff_eq_zero {lo : ℕ} {t : SearchTree Bytes ℕ} (h : Rising lo t) (hlo : 0 < lo) :
    rootOff t = 0 ↔ t = .nil := by
  cases t with
  | nil => simp [rootOff]
  | node s o l r =>
    have : lo ≤ o := h.1
    simp only [rootOff, reduceCtorEq, iff_false]
    omega

/-- **The sibling walk of `find`** is the search descent; the iteration bound is never reached. -/
theorem AreaInv.findPropTrieNodeLoop_eq (h : AreaInv pa g) (seg : Bytes)
    {t : SearchTree Bytes ℕ} (ht : TreeAt pa.mmap.data t) (hne : t ≠ .nil)
    (hb : ∀ p ∈ t.toList, ⟨p.2, .node p.1⟩ ∈ g.blocks) {lo : ℕ} (hr : Rising lo t) {steps : ℕ}
    (hsteps : 130944 < steps * 20 + rootOff t) :
    pa.findPropTrieNodeLoop seg steps (rootOff t) =
      (t.find? cmpPropName seg).elim (.error (.notFound (display seg))) .ok := by
  induction t generalizing steps lo with
  | nil => exact absurd rfl hne
  | node s off l r ihl ihr =>
    obtain ⟨hnode, hleft, hright, hl, hrt⟩ := ht
    obtain ⟨-, hrl, hrr⟩ := hr
    have hbs : ⟨off, .node s⟩ ∈ g.blocks := hb (s, off) (by simp [SearchTree.toList])
    have hstop := h.wf.layout.high _ hbs
    have hge := nodeExtent_ge s
    have hhigh := h.basic.used_high
    simp only [Block.stop, Obj.extent] at hstop
    simp only [rootOff] at hsteps ⊢
    obtain ⟨steps, rfl⟩ : ∃ k, steps = k + 1 := ⟨steps - 1, by omega⟩
    obtain ⟨hload, hname⟩ := h.load_node hbs hnode
    rw [findPropTrieNodeLoop, except_bind_ok hload]
    simp only
    rw [except_bind_ok hname, SearchTree.find?]
    -- a descent goes to a node at least 20 bytes further on
    have descend : ∀ (c : SearchTree Bytes ℕ), Rising (off + 20) c →
        (c ≠ .nil → pa.findPropTrieNodeLoop seg steps (rootOff c) =
          (c.find? cmpPropName seg).elim (.error (.notFound (display seg))) .ok) →
        (if rootOff c = 0 then .error (.notFound (display seg))
          else pa.findPropTrieNodeLoop seg steps (rootOff c)) =
          (c.find? cmpPropName seg).elim (.error (.notFound (display seg))) .ok := by
      intro c hc ih
      split_ifs with h0
      · rw [(rootOff_eq_zero hc (by omega)).mp h0]
        rfl
      · exact ih fun hcn => h0 (by rw [hcn, rootOff])
    have bound : ∀ c : SearchTree Bytes ℕ, Rising (off + 20) c → c ≠ .nil →
        130944 < steps * 20 + rootOff c := by
      intro c hc hcn
      cases c with
      | nil => exact absurd rfl hcn
      | node s' o' l' r' =>
        have : off + 20 ≤ o' := hc.1
        simp only [rootOff]
        omega
    cases cmpPropName seg s with
    | eq => rfl
    | lt =>
      simp only [hleft]
      exact descend l hrl fun hln => ihl hl hln
        (fun p hp => hb p (by simp [SearchTree.toList, hp])) hrl (bound l hrl hln)
    | gt =>
      simp only [hright]
      exact descend r hrr fun hrn => ihr hrt hrn
        (fun p hp => hb p (by simp [SearchTree.toList, hp])) hrr (bound r hrr hrn)

/-- `find_prop_trie_node` in the sibling tree below a node. -/
theorem AreaInv.findPropTrieNode_eq (h : AreaInv pa g) (seg : Bytes) {n : ℕ}
    (hne : g.kids n ≠ .nil) : pa.findPropTrieNode (rootOff (g.kids n)) seg =
      ((g.kids n).find? cmpPropName seg).elim (.error (.notFound (display seg))) .ok := by
  refine h.findPropTrieNodeLoop_eq seg (h.rep.tree n) hne (h.wf.kid_block n) (h.wf.rising n) ?_
  rw [maxIterations, h.basic.dataSize, trieNodeSize]
  omega

theorem AreaInv.trieNode_eq (h : AreaInv pa g) {n : ℕ} (hn : g.IsNode n) :
    ∃ node, pa.trieNode n = .ok node ∧ node.children = rootOff (g.kids n) ∧
      node.prop = ((g.entry n).map Entry.off).getD 0 := by
  have hlt := h.wf.node_lt hn h.basic.used_low
  have hhigh := h.basic.used_high
  refine ⟨_, trieNode_eq_ok h.basic (h.wf.node_mod hn) (by omega), ?_, ?_⟩
  · exact h.rep.children n hn
  · exact h.rep.prop n hn

/-- What the segment loop of `find` returns from a node on. -/
def Shape.descend (g : Shape) (name : Bytes) : List Bytes → ℕ → Except Error ℕ
  | [], n => .ok n
  | seg :: segs, n =>
    if seg.length = 0 then .error (.parse s!"Invalid property name: {display name}")
    else if rootOff (g.kids n) = 0 then .error (.notFound (display name))
    else
      match (g.kids n).find? cmpPropName seg with
      | some k => g.descend name segs k
      | none => .error (.notFound (display seg))

/-- What `find` returns. -/
def Shape.find (g : Shape) (name : Bytes) : Except Error ℕ := do
  let k ← g.descend name (splitDot name) 0
  match g.entry k with
  | some e => .ok e.off
  | none => .error (.notFound (display name))

section FindShape

variable {used : ℕ} {name : Bytes} {segs : List Bytes} {n k : ℕ} {e : Error}

theorem Shape.Wf.rootOff_eq_zero (h : g.Wf used) (n : ℕ) : rootOff (g.kids n) = 0 ↔ g.kids n = .nil :=
  RsProperties.rootOff_eq_zero (h.rising n) (by omega)

/-- A segment that has a node is passed. -/
theorem Shape.Wf.descend_cons (h : g.Wf used) {seg : Bytes}
    (hf : (g.kids n).find? cmpPropName seg = some k) (name : Bytes) (segs : List Bytes) :
    g.descend name (seg :: segs) n = g.descend name segs k := by
  have hmem := SearchTree.mem_toList_of_find? hf
  have hseg := (h.seg_ok k seg (h.kid_block n _ hmem)).1
  have hroot : rootOff (g.kids n) ≠ 0 := by
    rw [Ne, h.rootOff_eq_zero]
    intro hnil
    rw [hnil] at hmem
    cases hmem
  rw [Shape.descend, if_neg (mt List.length_eq_zero_iff.mp hseg), if_neg hroot, hf]

/-- The loop reaches a node exactly if the walk does. -/
theorem Shape.Wf.descend_eq_ok_iff (h : g.Wf used) :
    g.descend name segs n = .ok k ↔ g.walk n segs = some k := by
  induction segs generalizing n with
  | nil => simp [Shape.descend, Shape.walk]
  | cons seg segs ih =>
    cases hf : (g.kids n).find? cmpPropName seg with
    | some j => rw [h.descend_cons hf, ih, Shape.walk, hf, Option.bind_some]
    | none =>
      rw [Shape.descend, Shape.walk, hf]
      refine iff_of_false (fun hd => ?_) (by simp)
      split_ifs at hd

/-- Where the loop stops early, there is no node, and the error says so or that a segment is empty. -/
theorem Shape.Wf.descend_error (h : g.Wf used) (hd : g.descend name segs n = .error e) :
    g.walk n segs = none ∧ (e.isNotFound = true ∨
      [] ∈ segs ∧ e = .parse s!"Invalid property name: {display name}") := by
  constructor
  · cases hw : g.walk n segs with
    | none => rfl
    | some k => cases hd.symm.trans (h.descend_eq_ok_iff.mpr hw)
  · induction segs generalizing n with
    | nil => cases hd
    | cons seg segs ih =>
      rw [Shape.descend] at hd
      split_ifs at hd with hs h0
      · cases hd
        exact .inr ⟨by simp [List.length_eq_zero_iff.mp hs], rfl⟩
      · cases hd
        exact .inl rfl
      · split at hd
        · exact (ih hd).imp id fun h' => ⟨List.mem_cons_of_mem _ h'.1, h'.2⟩
        · cases hd
          exact .inl rfl

theorem Shape.Wf.find_of_lookup (h : g.Wf used) {e : Entry} (hl : g.lookup name = some e) :
    g.find name = .ok e.off := by
  obtain ⟨k, hw, he⟩ := Option.bind_eq_some_iff.mp hl
  rw [Shape.find, except_bind_ok (h.descend_eq_ok_iff.mpr hw), he]

/-- **An unbound name** is reported absent; only an empty segment makes it a parse error. -/
theorem Shape.Wf.find_error (h : g.Wf used) (hf : g.find name = .error e) :
    g.lookup name = none ∧ (e.isNotFound = true ∨
      [] ∈ splitDot name ∧ e = .parse s!"Invalid property name: {display name}") := by
  constructor
  · cases hl : g.lookup name with
    | none => rfl
    | some e =>
      rw [h.find_of_lookup hl] at hf
      cases hf
  · cases hd : g.descend name (splitDot name) 0 with
    | error e' =>
      rw [Shape.find, except_bind_error hd] at hf
      cases hf
      exact (h.descend_error hd).2
    | ok k =>
      rw [Shape.find, except_bind_ok hd] at hf
      split at hf
      · cases hf
      · cases hf
        exact .inl rfl

theorem Shape.Wf.find_eq_ok_iff (h : g.Wf used) {off : ℕ} :
    g.find name = .ok off ↔ ∃ e, g.lookup name = some e ∧ e.off = off := by
  constructor
  · intro hf
    cases hd : g.descend name (splitDot name) 0 with
    | error e =>
      rw [Shape.find, except_bind_error hd] at hf
      cases hf
    | ok k =>
      rw [Shape.find, except_bind_ok hd] at hf
      have hlook : g.lookup name = g.entry k := by
        rw [Shape.lookup, h.descend_eq_ok_iff.mp hd, Option.bind_some]
      cases he : g.entry k with
      | none =>
        rw [he] at hf
        cases hf
      | some e =>
        rw [he] at hf
        exact ⟨e, hlook.trans he, Except.ok.inj hf⟩
  · rintro ⟨e, hl, rfl⟩
    exact h.find_of_lookup hl

end FindShape

/-- **The segment loop of `find`**. -/
theorem AreaInv.findLoop_eq (h : AreaInv pa g) (name : Bytes) (segs : List Bytes) {n : ℕ}
    (hn : g.IsNode n) : pa.findLoop name segs n = g.descend name segs n := by
  induction segs generalizing n with
  | nil => rfl
  | cons seg segs ih =>
    rw [findLoop, Shape.descend]
    by_cases hs : seg.length = 0
    · rw [if_pos hs, if_pos hs]
    obtain ⟨node, hload, hc, -⟩ := h.trieNode_eq hn
    rw [if_neg hs, if_neg hs, except_bind_ok hload, hc]
    by_cases h0 : rootOff (g.kids n) = 0
    · rw [if_pos h0, if_pos h0]
    have hfind := h.findPropTrieNode_eq seg (mt (h.wf.rootOff_eq_zero n).mpr h0)
    rw [if_neg h0, if_neg h0]
    cases ho : (g.kids n).find? cmpPropName seg with
    | none =>
      rw [ho] at hfind
      rw [except_bind_error hfind]
    | some o =>
      rw [ho] at hfind
      rw [except_bind_ok hfind]
      exact ih (h.wf.isNode_kid (SearchTree.mem_toList_of_find? ho))

/-! ### Entries -/

/-- Where the entries lie. -/
theorem AreaInv.entry_bounds (h : AreaInv pa g) {n : ℕ} {e : Entry} (he : g.entry n = some e) :
    e.off % 4 = 0 ∧ 112 ≤ e.off ∧
      e.off + entryExtent (joinDot (g.path n)) ≤ pa.bytesUsed := by
  have hb := h.wf.entry_block n e he
  exact ⟨h.wf.layout.aligned _ hb, h.wf.layout.low _ hb, h.wf.layout.high _ hb⟩

/-- **`find`** returns what the shape says. -/
theorem AreaInv.find_eq (h : AreaInv pa g) (name : Bytes) : pa.find name = g.find name := by
  have hloop := h.findLoop_eq name (splitDot name) (.inl rfl)
  rw [PropertyAreaMap.find, Shape.find]
  cases hd : g.descend name (splitDot name) 0 with
  | error e =>
    rw [except_bind_error (hloop.trans hd), except_bind_error rfl]
  | ok k =>
    have hk := (h.wf.walk_eq_some_iff.mp (h.wf.descend_eq_ok_iff.mp hd)).1
    obtain ⟨node, hload, -, hp⟩ := h.trieNode_eq hk
    rw [except_bind_ok (hloop.trans hd), except_bind_ok hload, except_bind_ok rfl, hp]
    cases he : g.entry k with
    | none => rw [Option.map_none, Option.getD_none, if_neg (not_not_intro rfl)]
    | some e =>
      obtain ⟨hmod, hlow, hstop⟩ := h.entry_bounds he
      have hge := entryExtent_ge (joinDot (g.path k))
      have hhigh := h.basic.used_high
      rw [Option.map_some, Option.getD_some, if_pos (by omega),
        except_bind_ok (propertyInfo_eq_ok h.basic hmod (by omega))]

/-- **`find` on a bound name** returns its entry. -/
theorem AreaInv.find_of_lookup (h : AreaInv pa g) {name : Bytes} {e : Entry}
    (hl : g.lookup name = some e) : pa.find name = .ok e.off :=
  (h.find_eq name).trans (h.wf.find_of_lookup hl)

/-- **`find` on an unbound name** reports absence; only an empty segment makes it a parse error. -/
theorem AreaInv.find_of_lookup_none (h : AreaInv pa g) {name : Bytes}
    (hl : g.lookup name = none) : ∃ e : Error, pa.find name = .error e ∧
      (e.isNotFound = true ∨
        [] ∈ splitDot name ∧ e = .parse s!"Invalid property name: {display name}") := by
  cases hf : g.find name with
  | error e => exact ⟨e, (h.find_eq name).trans hf, (h.wf.find_error hf).2⟩
  | ok off =>
    obtain ⟨e, hl', -⟩ := h.wf.find_eq_ok_iff.mp hf
    cases hl.symm.trans hl'

/-- `find` returns exactly the offsets of the bound names. -/
theorem AreaInv.find_eq_ok_iff (h : AreaInv pa g) {name : Bytes} {off : ℕ} :
    pa.find name = .ok off ↔ ∃ e, g.lookup name = some e ∧ e.off = off := by
  rw [h.find_eq name, h.wf.find_eq_ok_iff]

section EntryReads

variable {n : ℕ} {e : Entry}

theorem AreaInv.propertyInfo_eq (h : AreaInv pa g) (he : g.entry n = some e) :
    pa.propertyInfo e.off = .ok (e.off + 128) := by
  obtain ⟨hmod, -, hstop⟩ := h.entry_bounds he
  have hge := entryExtent_ge (joinDot (g.path n))
  have hhigh := h.basic.used_high
  exact propertyInfo_eq_ok h.basic hmod (by omega)

/-- The stored name of an entry, in any mapping of the size of an area. -/
theorem propertyInfoName_of_size (hsize : pa.mmap.size = 131072) (hd : pa.dataOffset = 128) {off : ℕ}
    {name : Bytes} (hm : off % 4 = 0) (hat : Holds pa.mmap.data (off + 96 + 128) (name ++ [0]))
    (h0 : 0 ∉ name) (hb : off + entryExtent name ≤ 130944) :
    pa.propertyInfo off = .ok (off + 128) ∧ pa.propertyInfoName off = .ok name := by
  have hge := entryExtent_ge name
  have hle : pa.mmap.size ≤ usizeMax := by
    rw [hsize]
    decide
  have hu : ¬ usizeMax < off + propertyInfoSize := by
    rw [usizeMax, propertyInfoSize, propValueMax]
    omega
  have hinfo : pa.propertyInfo off = .ok (off + 128) := by
    rw [propertyInfo, hd]
    refine MemoryMap.toObject_eq_ok hle ?_ (by omega)
    rw [hsize, propertyInfoSize, propValueMax]
    omega
  refine ⟨hinfo, ?_⟩
  rw [propertyInfoName, except_bind_ok hinfo, if_neg hu, hd]
  refine MemoryMap.cstrAt_eq_ok hle hat h0 ?_
  rw [hsize, propertyInfoSize, propValueMax]
  omega

/-- The stored name of an entry, wherever its value stands. -/
theorem propertyInfoName_of_holds (h : pa.Basic) {off : ℕ} {name : Bytes} (hm : off % 4 = 0)
    (hat : Holds pa.mmap.data (off + 96 + 128) (name ++ [0])) (h0 : 0 ∉ name)
    (hb : off + entryExtent name ≤ 130944) : pa.propertyInfoName off = .ok name :=
  (propertyInfoName_of_size h.size h.dataOffset hm hat h0 hb).2

/-- The name behind an entry is the dotted path of its node. -/
theorem AreaInv.propertyInfoName_eq (h : AreaInv pa g) (he : g.entry n = some e) :
    pa.propertyInfoName e.off = .ok (joinDot (g.path n)) := by
  obtain ⟨hmod, -, hstop⟩ := h.entry_bounds he
  have hhigh := h.basic.used_high
  exact propertyInfoName_of_holds h.basic hmod (h.rep.entry n e he).name_at
    (h.wf.nul_notMem_joinDot (h.wf.entry_node n e he).1) (by omega)

theorem isLong_of_short {m : Mem} {a len : ℕ}
    (h : PropertyInfo.CleanSerial (PropertyInfo.serial m a) len) :
    PropertyInfo.isLong m a = false := by
  rw [PropertyInfo.isLong, h.not_long]
  rfl

theorem isLong_of_long {m : Mem} {a : ℕ} (h : PropertyInfo.serial m a = longSerial) :
    PropertyInfo.isLong m a = true := by
  rw [PropertyInfo.isLong, h]
  decide

/-- The long flag tells the two encodings apart. -/
theorem AreaInv.isLong_eq (h : AreaInv pa g) (he : g.entry n = some e) :
    PropertyInfo.isLong pa.mmap.data (e.off + 128) = decide (propValueMax ≤ e.value.length) := by
  by_cases hv : propValueMax ≤ e.value.length
  · rw [isLong_of_long ((h.rep.entry n e he).long hv).1, decide_eq_true hv]
  · rw [isLong_of_short ((h.rep.entry n e he).short (by omega)).1, decide_eq_false hv]

theorem AreaInv.shortValueBytes_eq (h : AreaInv pa g) (he : g.entry n = some e)
    (hv : e.value.length < propValueMax) :
    PropertyInfo.shortValueBytes pa.mmap.data (e.off + 128) = e.value :=
  scan_of_holds ((h.rep.entry n e he).short hv).2 (h.wf.entry_value n e he) hv

/-- The out-of-line value behind a long header, in any mapping of the size of an area. -/
theorem longPropertyValue_of_size (hsize : pa.mmap.size = 131072) (hd : pa.dataOffset = 128) {off : ℕ}
    {name value : Bytes} (hm : off % 4 = 0) (hat : EntryAt pa.mmap.data off name value)
    (h0 : 0 ∉ name) (hv0 : 0 ∉ value) (hv : propValueMax ≤ value.length)
    (hb : off + entryExtent name + longExtent value ≤ 130944) :
    pa.longPropertyValue off = .ok value := by
  obtain ⟨hser, -, hrel, hval⟩ := hat.long hv
  have hge := longExtent_ge value
  have hge' := entryExtent_ge name
  obtain ⟨hinfo, hname⟩ := propertyInfoName_of_size hsize hd hm hat.name_at h0 (by omega)
  have hoff : PropertyInfo.longOffset pa.mmap.data (off + 128) = .ok (entryExtent name) := by
    rw [PropertyInfo.longOffset, isLong_of_long hser, hrel]
    rfl
  have hmin : ¬ entryExtent name < bionicAlign (propertyInfoSize + name.length + 1) 4 :=
    lt_irrefl _
  have hu : ¬ usizeMax < off + entryExtent name := by
    rw [usizeMax]
    omega
  rw [longPropertyValue, except_bind_ok hinfo, except_bind_ok hoff, except_bind_ok hname]
  simp only
  rw [if_neg hmin, if_neg hu, hd]
  refine MemoryMap.cstrAt_eq_ok (by rw [hsize]; decide) hval hv0 ?_
  rw [hsize]
  omega

/-- The out-of-line value behind a long header. -/
theorem longPropertyValue_of_entryAt (h : pa.Basic) {off : ℕ} {name value : Bytes}
    (hm : off % 4 = 0) (hat : EntryAt pa.mmap.data off name value) (h0 : 0 ∉ name)
    (hv0 : 0 ∉ value) (hv : propValueMax ≤ value.length)
    (hb : off + entryExtent name + longExtent value ≤ 130944) :
    pa.longPropertyValue off = .ok value :=
  longPropertyValue_of_size h.size h.dataOffset hm hat h0 hv0 hv hb

theorem AreaInv.longPropertyValue_eq (h : AreaInv pa g) (he : g.entry n = some e)
    (hv : propValueMax ≤ e.value.length) : pa.longPropertyValue e.off = .ok e.value := by
  have hhigh := h.basic.used_high
  have hstop := h.wf.layout.high _ (h.wf.long_block n e he hv)
  simp only [Block.stop, Obj.extent] at hstop
  exact longPropertyValue_of_entryAt h.basic (h.entry_bounds he).1 (h.rep.entry n e he)
    (h.wf.nul_notMem_joinDot (h.wf.entry_node n e he).1) (h.wf.entry_value n e he) hv (by omega)

/-- **Reading an entry** yields the bound value, in either encoding. -/
theorem AreaInv.propertyValueBytes_eq (h : AreaInv pa g) (he : g.entry n = some e) :
    pa.propertyValueBytes e.off = .ok e.value := by
  rw [propertyValueBytes, except_bind_ok (h.propertyInfo_eq he), h.isLong_eq he]
  by_cases hv : propValueMax ≤ e.value.length
  · rw [decide_eq_true hv, if_pos rfl, h.longPropertyValue_eq he hv]
  · rw [decide_eq_false hv, if_neg (by simp), h.shortValueBytes_eq he (by omega)]

/-- The serial of an entry is even, so a quiescent reader never takes the backup path. -/
theorem AreaInv.serial_not_dirty (h : AreaInv pa g) (he : g.entry n = some e) :
    serialDirty (PropertyInfo.serial pa.mmap.data (e.off + 128)) = false := by
  by_cases hv : propValueMax ≤ e.value.length
  · rw [((h.rep.entry n e he).long hv).1]
    decide
  · exact ((h.rep.entry n e he).short (by omega)).1.not_dirty

/-- `read_with_callback` on a quiescent area decodes the bound value. -/
theorem AreaInv.readWithCallback_eq (h : AreaInv pa g) (he : g.entry n = some e) :
    pa.readWithCallback e.off = (fromUtf8 e.value).elim (.error .utf8) .ok := by
  have hdirty := h.serial_not_dirty he
  rw [readWithCallback, except_bind_ok (h.propertyInfo_eq he), h.isLong_eq he]
  by_cases hv : propValueMax ≤ e.value.length
  · rw [decide_eq_true hv, if_pos rfl, h.longPropertyValue_eq he hv]
    simp only [Functor.map, Except.map, bind, Except.bind, hdirty, Bool.false_eq_true, if_false]
    cases fromUtf8 e.value <;> rfl
  · rw [decide_eq_false hv, if_neg (by simp)]
    simp only [bind, Except.bind, hdirty, Bool.false_eq_true, if_false,
      h.shortValueBytes_eq he (by omega)]
    cases fromUtf8 e.value <;> rfl

end EntryReads

end RsProperties
