import RsProperties.InfoTrie.Image

/-!
# Reading an image back

On an image that holds what it should (`StrAt`, `WordsAt`, `TableAt`, `EntryAt`, `NodeAt`), the parser's
checked accessors succeed. A lookup that logs is shown equal to a `pure` value: the equation says at once
what it returns and that it wrote no warning.
-/

namespace RsProperties.InfoTrie

open ByteMem

section Access

variable {area : PropertyInfoArea} {lo hi off : ℕ}

theorem refFrom_eq_ok (hsize : area.size < 2 ^ 32) {size : ℕ} (h : off + size ≤ area.size)
    (ha : off % 4 = 0) : area.refFrom size off = .ok off := by
  have hu : usizeMax = 2 ^ 64 - 1 := rfl
  unfold PropertyInfoArea.refFrom
  rw [if_neg (by omega), if_neg (by omega), if_neg (by omega)]

theorem cstr_eq_ok {s : Bytes} (h : StrAt area.data lo hi s off) (hhi : hi ≤ area.size)
    (h0 : 0 ∉ s) : area.cstr off = .ok s := by
  have hh := h.high
  unfold PropertyInfoArea.cstr
  rw [if_neg (by omega), cstr_of_holds h.holds h0 (by omega)]

theorem u32SliceFrom_eq_ok (hsize : area.size < 2 ^ 32) {ws : List ℕ}
    (h : WordsAt area.data lo hi ws off) (hhi : hi ≤ area.size) :
    area.u32SliceFrom off ws.length = .ok ws := by
  have hu : usizeMax = 2 ^ 64 - 1 := rfl
  have hh := h.high
  have ha := h.aligned
  unfold PropertyInfoArea.u32SliceFrom
  rw [if_neg (by omega), if_neg (by omega), if_neg (by omega), if_neg (by omega)]
  congr 1
  refine List.ext_getElem (by simp) fun i h1 h2 => ?_
  simp [h.word i h2]

/-! ### The string tables -/

variable {strings : List Bytes}

theorem tableCount_eq (hsize : area.size < 2 ^ 32) (h : TableAt area.data lo hi strings off)
    (hhi : hi ≤ area.size) : area.tableCount off = pure strings.length := by
  obtain ⟨ws, hw, hstr⟩ := h.array
  have hword : WordsAt area.data lo hi [strings.length] off := by
    refine ⟨h.low, ?_, h.aligned, fun i hi => ?_⟩
    · have := hw.high
      simp only [List.length_singleton]
      omega
    · obtain rfl : i = 0 := by simpa using hi
      exact h.count
  have hslice := u32SliceFrom_eq_ok hsize hword hhi
  rw [List.length_singleton] at hslice
  rw [PropertyInfoArea.tableCount, hslice]
  rfl

/-- The offset stored for a string of a table. -/
theorem stringOffset_eq (hsize : area.size < 2 ^ 32) (h : TableAt area.data lo hi strings off)
    (hhi : hi ≤ area.size) (kind field : String) {i : ℕ} {s : Bytes} (hs : strings[i]? = some s) :
    ∃ o, area.stringOffset kind field off (area.tableCount off) i = pure o ∧
      StrAt area.data lo hi s o := by
  have hcount := tableCount_eq hsize h hhi
  obtain ⟨ws, hw, hstr⟩ := h.array
  have hlen := hstr.length_eq
  have hu : usizeMax = 2 ^ 64 - 1 := rfl
  have hh := hw.high
  have hslice := u32SliceFrom_eq_ok hsize hw hhi
  rw [← hlen] at hslice
  obtain ⟨hi', hget⟩ := List.getElem?_eq_some_iff.mp hs
  have hiw : i < ws.length := hlen ▸ hi'
  refine ⟨ws[i], ?_, ?_⟩
  · rw [PropertyInfoArea.stringOffset, hcount, if_neg (by omega)]
    simp only [pure_bind, liftM_pure, hslice, List.getElem?_eq_getElem hiw]
  · rw [← hget]
    exact (List.forall₂_iff_get.mp hstr).2 i hi' hiw

/-- The probe of a table's search is the comparison with the table's string. -/
theorem stringProbe_eq (hsize : area.size < 2 ^ 32) (h : TableAt area.data lo hi strings off)
    (hhi : hi ≤ area.size) (ht : ∀ s ∈ strings, Text s) (kind kind' field : String)
    (needle : Bytes) {i : ℕ} (hi' : i < strings.length) :
    area.stringProbe needle kind (area.stringOffset kind' field off (area.tableCount off)) i =
      pure (compare strings[i] needle) := by
  obtain ⟨o, ho, hstr⟩ := stringOffset_eq hsize h hhi kind' field (List.getElem?_eq_getElem hi')
  have htext := ht _ (List.getElem_mem hi')
  rw [PropertyInfoArea.stringProbe, ho]
  simp only [ExceptT.run_pure, liftM_pure, pure_bind, cstr_eq_ok hstr hhi htext.nul,
    fromUtf8_of_valid htext.utf8]

/-- The search of a sorted table finds exactly its strings. -/
theorem findStringIndex_eq (hsize : area.size < 2 ^ 32) (h : TableAt area.data lo hi strings off)
    (hhi : hi ≤ area.size) (hok : TableOk strings) (kind kind' field : String) (needle : Bytes) :
    ∃ r, area.findStringIndex strings.length needle kind
        (area.stringOffset kind' field off (area.tableCount off)) = pure r ∧
      (∀ i, r = some i → strings[i]? = some needle) ∧ (r = none → needle ∉ strings) := by
  obtain ⟨r, hr, hsome, hnone⟩ := BinarySearch.find_sorted (m := StateT Bool Logged)
    hok.sorted fun i hi' => stringProbe_eq hsize h hhi hok.text kind kind' field needle hi'
  refine ⟨r, ?_, hsome, hnone⟩
  rw [PropertyInfoArea.findStringIndex, hr]
  rfl

end Access

/-! ### Entries -/

/-- The indexes stand for the strings. -/
structure Denotes (contexts types : List Bytes) (found : Found) (ix : Indexes) : Prop where
  context : IsIndex contexts found.context ix.context
  type : IsIndex types found.type ix.type

theorem isIndex_pick {table : List Bytes} {new old : Option Bytes} {i j : ℕ}
    (hi : IsIndex table new i) (hj : IsIndex table old j) :
    IsIndex table (pick new old) (if i ≠ noIndex then i else j) := by
  unfold pick
  by_cases hn : new.getD [] = []
  · rw [IsIndex, if_pos hn] at hi
    rw [if_pos hn, if_neg (by simpa using hi)]
    exact hj
  · rw [if_neg hn]
    have hi' := hi
    rw [IsIndex, if_neg hn] at hi'
    rw [if_pos hi'.1]
    exact hi

section Trie

variable {contexts types : List Bytes} {area : PropertyInfoArea} {lo hi off : ℕ}

theorem Denotes.take {found : Found} {ix : Indexes} (h : Denotes contexts types found ix)
    {m : Mem} {entry : PropertyEntryBuilder} (he : EntryAt contexts types m lo hi entry off) :
    Denotes contexts types (found.take entry)
      (ix.override (PropertyEntry.read m off).contextIndex (PropertyEntry.read m off).typeIndex) :=
  ⟨isIndex_pick he.context h.context, isIndex_pick he.rtype h.type⟩

theorem entryAt_eq_ok (hsize : area.size < 2 ^ 32) {entry : PropertyEntryBuilder}
    (h : EntryAt contexts types area.data lo hi entry off) (hhi : hi ≤ area.size) :
    area.entryAt off = .ok (PropertyEntry.read area.data off) := by
  rw [PropertyInfoArea.entryAt, refFrom_eq_ok hsize (h.high.trans hhi) h.aligned]
  rfl

theorem entryName_eq_ok {entry : PropertyEntryBuilder}
    (h : EntryAt contexts types area.data lo hi entry off) (hhi : hi ≤ area.size)
    (ht : Text entry.name) :
    area.entryName (PropertyEntry.read area.data off) = .ok entry.name :=
  cstr_eq_ok h.name hhi ht.nul

theorem entryNameStr_eq {name : Bytes} (h : SegName name) (kind : String) (idx : ℕ) :
    entryNameStr (.ok name) kind idx = pure (some name) := by
  simp only [entryNameStr, fromUtf8_of_valid h.utf8, if_pos h.ne_nil]

/-- The scan of a node's prefix entries takes over the first match. -/
theorem checkPrefixLoop_eq (hsize : area.size < 2 ^ 32) (hhi : hi ≤ area.size) (remaining : Bytes)
    {entries : List PropertyEntryBuilder} {ws : List ℕ}
    (h : List.Forall₂ (EntryAt contexts types area.data lo hi) entries ws)
    (hn : ∀ e ∈ entries, SegName e.name) {found : Found} {ix : Indexes}
    (hd : Denotes contexts types found ix) (i : ℕ) :
    ∃ ix', area.checkPrefixLoop remaining i ws ix = pure ix' ∧
      Denotes contexts types
        (found.takeAny (entries.find? fun e => e.name.isPrefixOf remaining)) ix' := by
  induction h generalizing i with
  | nil => exact ⟨ix, rfl, hd⟩
  | @cons entry w entries ws he _ ih =>
    have hname := hn entry (by simp)
    have hrest := ih (fun e he' => hn e (by simp [he'])) (i + 1)
    rw [PropertyInfoArea.checkPrefixLoop, entryAt_eq_ok hsize he hhi]
    dsimp only
    have hlen : (PropertyEntry.read area.data w).namelen = entry.name.length := he.namelen
    by_cases hm : entry.name.isPrefixOf remaining = true
    · have hle : entry.name.length ≤ remaining.length := (List.isPrefixOf_iff_prefix.mp hm).length_le
      rw [List.find?_cons_of_pos (p := fun e : PropertyEntryBuilder => e.name.isPrefixOf remaining) hm]
      refine ⟨_, ?_, hd.take he⟩
      rw [if_neg (by omega), entryName_eq_ok he hhi hname.toText, entryNameStr_eq hname, pure_bind]
      simp only [hm, if_true]
    · rw [List.find?_cons_of_neg (p := fun e : PropertyEntryBuilder => e.name.isPrefixOf remaining) hm]
      obtain ⟨ix', hrun, hd'⟩ := hrest
      refine ⟨ix', ?_, hd'⟩
      split_ifs
      · exact hrun
      · rw [entryName_eq_ok he hhi hname.toText, entryNameStr_eq hname, pure_bind]
        simp only [hm]
        exact hrun

/-- The scan of a node's exact entries finds the entry of the remaining name. -/
theorem exactMatchLoop_eq (hsize : area.size < 2 ^ 32) (hhi : hi ≤ area.size) (remaining : Bytes)
    {entries : List PropertyEntryBuilder} {ws : List ℕ}
    (h : List.Forall₂ (EntryAt contexts types area.data lo hi) entries ws)
    (hn : ∀ e ∈ entries, SegName e.name) (i : ℕ) :
    match entries.find? fun e => decide (e.name = remaining) with
    | none => area.exactMatchLoop remaining i ws = pure none
    | some e => ∃ w, EntryAt contexts types area.data lo hi e w ∧
        area.exactMatchLoop remaining i ws = pure (some (PropertyEntry.read area.data w)) := by
  induction h generalizing i with
  | nil => rfl
  | @cons entry w entries ws he _ ih =>
    have hname := hn entry (by simp)
    have hrest := ih (fun e he' => hn e (by simp [he'])) (i + 1)
    rw [PropertyInfoArea.exactMatchLoop, entryAt_eq_ok hsize he hhi]
    dsimp only
    rw [entryName_eq_ok he hhi hname.toText, entryNameStr_eq hname, pure_bind]
    dsimp only
    by_cases hm : entry.name = remaining
    · rw [List.find?_cons_of_pos (by simpa using hm), if_pos hm]
      exact ⟨w, he, rfl⟩
    · rw [List.find?_cons_of_neg (by simpa using hm), if_neg hm]
      exact hrest

/-! ### Nodes -/

variable {levels : ℕ} {node : TrieBuilderNode}

theorem nodeData_eq_ok (hsize : area.size < 2 ^ 32) (hhi : hi ≤ area.size)
    (h : NodeAt contexts types levels area.data lo hi node off) :
    area.nodeData off = .ok (TrieNodeData.read area.data off) := by
  cases levels with
  | zero => exact h.elim
  | succ levels =>
    obtain ⟨_, hhigh, hal, _⟩ := h
    rw [PropertyInfoArea.nodeData, refFrom_eq_ok hsize (hhigh.trans hhi) hal]
    rfl

theorem nodeAt_entry (h : NodeAt contexts types levels area.data lo hi node off) :
    EntryAt contexts types area.data lo hi node.propertyEntry (readU32 area.data off) := by
  cases levels with
  | zero => exact h.elim
  | succ levels => exact h.2.2.2.1

theorem nodePropertyEntry_eq_ok (hsize : area.size < 2 ^ 32) (hhi : hi ≤ area.size)
    (h : NodeAt contexts types levels area.data lo hi node off) :
    area.nodePropertyEntry off =
      .ok (PropertyEntry.read area.data (readU32 area.data off)) := by
  rw [PropertyInfoArea.nodePropertyEntry, nodeData_eq_ok hsize hhi h]
  exact entryAt_eq_ok hsize (nodeAt_entry h) hhi

theorem nodeName_eq_ok (hsize : area.size < 2 ^ 32) (hhi : hi ≤ area.size)
    (h : NodeAt contexts types levels area.data lo hi node off) (ht : Text node.key) :
    area.nodeName off = .ok node.key := by
  rw [PropertyInfoArea.nodeName, nodePropertyEntry_eq_ok hsize hhi h]
  exact entryName_eq_ok (nodeAt_entry h) hhi ht

/-- The indexes of a node itself. -/
theorem contextAndTypeIndexes_eq (hsize : area.size < 2 ^ 32) (hhi : hi ≤ area.size)
    (h : NodeAt contexts types levels area.data lo hi node off) {found : Found} {ix : Indexes}
    (hd : Denotes contexts types found ix) :
    ∃ c t, area.contextAndTypeIndexes off = pure (c, t) ∧
      Denotes contexts types (found.take node.propertyEntry) (ix.override c t) := by
  refine ⟨_, _, ?_, hd.take (nodeAt_entry h)⟩
  rw [PropertyInfoArea.contextAndTypeIndexes, nodePropertyEntry_eq_ok hsize hhi h]

/-- An offset array is read back through the declared count. -/
theorem u32SliceFrom_array {α : Type} {Q : Mem → ℕ → ℕ → α → ℕ → Prop} (hsize : area.size < 2 ^ 32)
    (hhi : hi ≤ area.size) {items : List α} {slot : ℕ} (h : ArrayAt Q area.data lo hi items slot) :
    ∃ ws, area.u32SliceFrom (readU32 area.data (slot + 4)) (readU32 area.data slot) = .ok ws ∧
      List.Forall₂ (Q area.data lo hi) items ws := by
  obtain ⟨ws, hw, hitems⟩ := h.array
  refine ⟨ws, ?_, hitems⟩
  rw [h.count, hitems.length_eq]
  exact u32SliceFrom_eq_ok hsize hw hhi

/-- The prefix entries of a node. -/
theorem checkPrefixMatch_eq (hsize : area.size < 2 ^ 32) (hhi : hi ≤ area.size)
    (h : NodeAt contexts types levels area.data lo hi node off) (hok : NodeOk node)
    (remaining : Bytes) {found : Found} {ix : Indexes} (hd : Denotes contexts types found ix) :
    ∃ ix', area.checkPrefixMatch remaining off ix = pure ix' ∧
      Denotes contexts types (found.takeAny (firstPrefix node remaining)) ix' := by
  have hdata := nodeData_eq_ok hsize hhi h
  cases levels with
  | zero => exact h.elim
  | succ levels =>
    obtain ⟨ws, hws, hitems⟩ := u32SliceFrom_array hsize hhi h.2.2.2.2.1
    have hoff : area.prefixOffsets off = .ok ws := by
      rw [PropertyInfoArea.prefixOffsets, hdata]
      exact hws
    rw [PropertyInfoArea.checkPrefixMatch, hoff]
    exact checkPrefixLoop_eq hsize hhi remaining hitems
      (fun e he => hok.prefixes e (mem_sortedPrefixMatches.mp he)) hd 0

/-- The exact entries of a node. -/
theorem exactMatchOffsets_eq (hsize : area.size < 2 ^ 32) (hhi : hi ≤ area.size)
    (h : NodeAt contexts types levels area.data lo hi node off) :
    ∃ ws, area.exactMatchOffsets off = .ok ws ∧
      List.Forall₂ (EntryAt contexts types area.data lo hi) node.sortedExactMatches ws := by
  have hdata := nodeData_eq_ok hsize hhi h
  cases levels with
  | zero => exact h.elim
  | succ levels =>
    obtain ⟨ws, hws, hitems⟩ := u32SliceFrom_array hsize hhi h.2.2.2.2.2.1
    refine ⟨ws, ?_, hitems⟩
    rw [PropertyInfoArea.exactMatchOffsets, hdata]
    exact hws

/-- The probe of the search for a child is the comparison with the child's key. -/
theorem childProbe_eq (hsize : area.size < 2 ^ 32) (hhi : hi ≤ area.size)
    {children : List TrieBuilderNode} {ws : List ℕ}
    (h : List.Forall₂ (NodeAt contexts types levels area.data lo hi) children ws)
    (hn : ∀ c ∈ children, SegName c.key) (input : Bytes) {i : ℕ}
    (hi' : i < (children.map TrieBuilderNode.key).length) :
    area.childProbe ws input i =
      pure (compare (children.map TrieBuilderNode.key)[i] input) := by
  rw [List.length_map] at hi'
  have hiw : i < ws.length := h.length_eq ▸ hi'
  have hnode := (List.forall₂_iff_get.mp h).2 i hi' hiw
  have hname := hn children[i] (List.getElem_mem hi')
  have hget : ws.getD i 0 = ws.get ⟨i, hiw⟩ := by
    rw [List.getD_eq_getElem?_getD, List.getElem?_eq_getElem hiw]
    rfl
  rw [PropertyInfoArea.childProbe, hget, nodeName_eq_ok hsize hhi hnode hname.toText]
  simp only [List.get_eq_getElem, fromUtf8_of_valid hname.utf8, if_neg hname.ne_nil,
    List.getElem_map]

/-- The search finds the child of the given key. -/
theorem findChildForString_eq (hsize : area.size < 2 ^ 32) (hhi : hi ≤ area.size)
    (h : NodeAt contexts types (levels + 1) area.data lo hi node off) (hok : NodeOk node)
    (input : Bytes) :
    match child node input with
    | none => area.findChildForString off input = pure none
    | some c => ∃ o, area.findChildForString off input = pure (some o) ∧
        NodeAt contexts types levels area.data lo hi c o := by
  have hdata := nodeData_eq_ok hsize hhi h
  obtain ⟨ws, hws, hitems⟩ := u32SliceFrom_array hsize hhi h.2.2.2.2.2.2
  have hoff : area.childOffsets off = .ok ws := by
    rw [PropertyInfoArea.childOffsets, hdata]
    exact hws
  obtain ⟨r, hr, hsome, hnone⟩ := BinarySearch.find_sorted (m := StateT Bool Logged)
    (pairwise_sortedChildren hok.nodup) fun i hi' => childProbe_eq hsize hhi hitems
      (fun c hc => hok.children c (mem_sortedChildren.mp hc)) input hi'
  rw [List.length_map, hitems.length_eq] at hr
  have hrun : area.findChildForString off input = pure (r.map fun i => ws.getD i 0) := by
    rw [PropertyInfoArea.findChildForString, hoff]
    dsimp only
    rw [hr]
    rfl
  cases r with
  | none =>
    have hmiss : child node input = none := by
      refine List.find?_eq_none.mpr fun c hc hk => hnone rfl ?_
      have hk : c.key = input := by simpa using hk
      exact hk ▸ List.mem_map_of_mem (mem_sortedChildren.mpr hc)
    rw [hmiss]
    exact hrun
  | some i =>
    obtain ⟨c, hc, hkey⟩ := List.getElem?_map ▸ hsome i rfl |> Option.map_eq_some_iff.mp
    obtain ⟨hi', hget⟩ := List.getElem?_eq_some_iff.mp hc
    have hiw : i < ws.length := hitems.length_eq ▸ hi'
    have hnode := (List.forall₂_iff_get.mp hitems).2 i hi' hiw
    have hmem : c ∈ node.children := mem_sortedChildren.mp (hget ▸ List.getElem_mem hi')
    have hchild : child node input = some c := hkey ▸ child_of_mem hok.nodup hmem
    rw [hchild]
    refine ⟨ws[i], ?_, ?_⟩
    · rw [hrun]
      simp [List.getElem?_eq_getElem hiw]
    · rw [← hget]
      exact hnode

/-! ### The lookup -/

/-- The parser's walk is the walk on the trie. -/
theorem walk_eq (hsize : area.size < 2 ^ 32) (hhi : hi ≤ area.size) (segs : List Bytes)
    (h : NodeAt contexts types levels area.data lo hi node off) (hok : TreeOk node) {found : Found}
    {ix : Indexes} (hd : Denotes contexts types found ix) {last : TrieBuilderNode}
    {remaining : Bytes} {found' : Found} (hw : walk segs node found = (last, remaining, found')) :
    ∃ levels' off' ix', area.walk segs off ix = pure (off', remaining, ix') ∧
      NodeAt contexts types levels' area.data lo hi last off' ∧ TreeOk last ∧
      Denotes contexts types found' ix' := by
  induction segs generalizing levels node off found ix with
  | nil =>
    cases hw
    exact ⟨levels, off, ix, rfl, h, hok, hd⟩
  | cons seg segs ih =>
    obtain ⟨c, t, hct, hd1⟩ := contextAndTypeIndexes_eq hsize hhi h hd
    obtain ⟨ix2, hpre, hd2⟩ :=
      checkPrefixMatch_eq hsize hhi h hok.root (joinDot (seg :: segs)) hd1
    rw [walk] at hw
    rw [PropertyInfoArea.walk, hct, pure_bind]
    dsimp only at hw ⊢
    rw [hpre, pure_bind]
    by_cases hs : segs = []
    · rw [if_pos hs] at hw ⊢
      cases hw
      exact ⟨levels, off, ix2, rfl, h, hok, hd2⟩
    rw [if_neg hs] at hw ⊢
    cases levels with
    | zero => exact h.elim
    | succ levels =>
      have hchild := findChildForString_eq hsize hhi h hok.root seg
      cases hc : child node seg with
      | none =>
        rw [hc] at hw hchild
        rw [hchild, pure_bind]
        cases hw
        exact ⟨_, off, ix2, rfl, h, hok, hd2⟩
      | some c =>
        rw [hc] at hw hchild
        obtain ⟨o, ho, hnode⟩ := hchild
        rw [ho, pure_bind]
        exact ih hnode (hok.child hc) hd2 hw

/-- **The parser's lookup is the lookup on the trie**: it meets no corruption branch, and the indexes it
returns stand for the strings the trie gives. -/
theorem getPropertyInfoIndexes_eq (hsize : area.size < 2 ^ 32) (hhi : hi ≤ area.size)
    {root : TrieBuilderNode} (h : NodeAt contexts types levels area.data lo hi root area.rootOffset)
    (hok : TreeOk root) (name : Bytes) :
    ∃ ix, area.getPropertyInfoIndexes name = pure ix ∧
      Denotes contexts types (lookup root name) ix := by
  have hd0 : Denotes contexts types ⟨none, none⟩ ⟨noIndex, noIndex⟩ := ⟨rfl, rfl⟩
  obtain ⟨⟨last, remaining, found⟩, hw⟩ :
      ∃ r, walk (splitDot name) root ⟨none, none⟩ = r := ⟨_, rfl⟩
  obtain ⟨levels', off', ix, hwalk, hnode, hlast, hd⟩ :=
    walk_eq hsize hhi (splitDot name) h hok hd0 hw
  obtain ⟨ws, hoffs, hentries⟩ := exactMatchOffsets_eq hsize hhi hnode
  have hexact := exactMatchLoop_eq hsize hhi remaining hentries
    (fun e he => hlast.root.exactMatches e (mem_sortedExactMatches.mp he)) 0
  rw [lookup, hw, PropertyInfoArea.getPropertyInfoIndexes, hwalk, pure_bind]
  dsimp only
  rw [hoffs]
  dsimp only
  rw [pure_bind]
  unfold exactMatch
  cases hf : last.sortedExactMatches.find? fun e => decide (e.name = remaining) with
  | none =>
    rw [hf] at hexact
    rw [hexact, pure_bind]
    exact checkPrefixMatch_eq hsize hhi hnode hlast.root remaining hd
  | some e =>
    rw [hf] at hexact
    obtain ⟨w, hentry, hrun⟩ := hexact
    rw [hrun, pure_bind]
    exact ⟨_, rfl, hd.take hentry⟩

end Trie

end RsProperties.InfoTrie
