import RsProperties.InfoTrie.Read

/-!
# The serializer writes the trie

Every operation of the serializer only adds to the arena: it leaves the bytes below the old extent alone
(`Appended`). What an operation adds is confined to the new range, so it stays in place through everything
that is written later. From these two facts the layout of a whole node, with its arrays and all its
descendants, is put together step by step (`writeTrieNode_spec`).
-/

namespace RsProperties.InfoTrie

open ByteMem TrieNodeArena StateExcept

/-! ### Allocation and assignment -/

/-- The arena has only been added to. -/
structure Appended (arena arena' : TrieNodeArena) : Prop where
  le : arena.size ≤ arena'.size
  same : SameOn arena.data arena'.data 0 arena.size
  aligned : arena'.size % 4 = 0
  bound : arena'.size < 2 ^ 32

theorem Appended.trans {a b c : TrieNodeArena} (h : Appended a b) (h' : Appended b c) :
    Appended a c :=
  ⟨h.le.trans h'.le, h.same.trans (h'.same.mono le_rfl h.le), h'.aligned, h'.bound⟩

theorem allocateData_eq_ok {size off : ℕ} {a a' : TrieNodeArena}
    (h : allocateData size a = .ok off a') :
    off = a.size ∧ a' = { a with size := a.size + bionicAlign size 4 } ∧ a'.size < 2 ^ 32 := by
  unfold allocateData at h
  dsimp only at h
  split_ifs at h with hlt
  cases h
  exact ⟨rfl, rfl, hlt⟩

theorem allocateUint32Array_eq_ok {length off : ℕ} {a a' : TrieNodeArena}
    (h : allocateUint32Array length a = .ok off a') :
    off = a.size ∧ a' = { a with size := a.size + 4 * length } ∧ a'.size < 2 ^ 32 := by
  unfold allocateUint32Array at h
  split_ifs at h
  · cases h
  · have hal : bionicAlign (length * 4) 4 = 4 * length := by
      rw [bionicAlign_four]
      omega
    rw [← hal]
    exact allocateData_eq_ok h

theorem setField_eq_ok {size off field value : ℕ} {u : Unit} {a a' : TrieNodeArena}
    (h : setField size off field value a = .ok u a') :
    off + size ≤ a.size ∧ off % 4 = 0 ∧
      a' = { a with data := writeU32 a.data (off + field) value } := by
  unfold setField at h
  obtain ⟨_, t, hget, hset⟩ := bind_eq_ok.mp h
  unfold getObject at hget
  split_ifs at hget with h1 h2
  cases hget
  cases hset
  exact ⟨by omega, by omega, rfl⟩

theorem writeUint32Array_eq_ok {off : ℕ} {values : List ℕ} {u : Unit} {a a' : TrieNodeArena}
    (h : writeUint32Array off values a = .ok u a') :
    off + 4 * values.length ≤ a.size ∧ off % 4 = 0 ∧
      a' = { a with data := writeWords a.data off values } := by
  unfold writeUint32Array at h
  split_ifs at h with h1 h2 h3 h4
  cases h
  exact ⟨by omega, by omega, rfl⟩

/-- A string is appended with its terminator. -/
theorem allocateAndWriteString_eq_ok {s : Bytes} {off : ℕ} {a a' : TrieNodeArena}
    (ha : a.size % 4 = 0) (h : allocateAndWriteString s a = .ok off a') :
    Appended a a' ∧ StrAt a'.data a.size a'.size s off ∧ off < 2 ^ 32 := by
  unfold allocateAndWriteString at h
  obtain ⟨o, t, halloc, h⟩ := bind_eq_ok.mp h
  obtain ⟨rfl, rfl, hbound⟩ := allocateData_eq_ok halloc
  cases h
  have hle := le_bionicAlign_four (s.length + 1)
  have hmod := bionicAlign_four_mod (s.length + 1)
  dsimp only at hbound
  refine ⟨⟨by dsimp only; omega, ?_, by dsimp only; omega, hbound⟩, ⟨le_rfl, ?_, ?_⟩, by omega⟩
  · exact (sameOn_writeBytes (.inl le_rfl)).symm
  · dsimp only
    omega
  · exact holds_writeBytes _ _ _

/-! ### Writing a list of objects -/

section Lists

variable {α : Type} {Q : Mem → ℕ → ℕ → α → ℕ → Prop} {P : TrieNodeArena → Prop}
  {write : α → ArenaM ℕ}

/-- A writer appends an object that satisfies `Q` and returns its offset. -/
def Writes (P : TrieNodeArena → Prop) (Q : Mem → ℕ → ℕ → α → ℕ → Prop) (write : α → ArenaM ℕ) :
    Prop :=
  ∀ {x a a' off}, P a → write x a = .ok off a' →
    Appended a a' ∧ Q a'.data a.size a'.size x off ∧ off < 2 ^ 32

theorem writeAll_eq_ok (hQ : Stable Q) (hpre : ∀ {a a'}, P a → Appended a a' → P a')
    (hal : ∀ {a}, P a → a.size % 4 = 0 ∧ a.size < 2 ^ 32) (hw : Writes P Q write)
    {items : List α} {offs : List ℕ} {a a' : TrieNodeArena} (ha : P a)
    (h : TrieSerializer.writeAll write items a = .ok offs a') :
    Appended a a' ∧ List.Forall₂ (Q a'.data a.size a'.size) items offs ∧
      ∀ o ∈ offs, o < 2 ^ 32 := by
  induction items generalizing a offs with
  | nil =>
    cases h
    exact ⟨⟨le_rfl, SameOn.refl _ _ _, (hal ha).1, (hal ha).2⟩, .nil, by simp⟩
  | cons x items ih =>
    obtain ⟨off, t, hx, h⟩ := bind_eq_ok.mp h
    obtain ⟨offs', t', hrest, h⟩ := bind_eq_ok.mp h
    cases h
    obtain ⟨happ, hq, hoff⟩ := hw ha hx
    obtain ⟨happ', hqs, hoffs⟩ := ih (hpre ha happ) hrest
    refine ⟨happ.trans happ', .cons ?_ ?_, ?_⟩
    · exact hQ.mono hq (happ'.same.mono (by omega) le_rfl) le_rfl happ'.le
    · exact hQ.forall₂ hqs (SameOn.refl _ _ _) happ.le le_rfl
    · simpa using ⟨hoff, hoffs⟩

/-- The items of an allocated array are written behind it, then the array is stamped. -/
theorem stampArray_eq_ok (hQ : Stable Q) (hpre : ∀ {a a'}, P a → Appended a a' → P a')
    (hal : ∀ {a}, P a → a.size % 4 = 0 ∧ a.size < 2 ^ 32) (hw : Writes P Q write)
    {items : List α} {arr : ℕ} {u : Unit} {a a' : TrieNodeArena} (ha : P a)
    (harr : a.size = arr + 4 * items.length)
    (h : (do
      let offsets ← TrieSerializer.writeAll write items
      writeUint32Array arr offsets) a = .ok u a') :
    a.size ≤ a'.size ∧ SameOn a.data a'.data 0 arr ∧ a'.size % 4 = 0 ∧ a'.size < 2 ^ 32 ∧
      ∃ ws, WordsAt a'.data arr a'.size ws arr ∧
        List.Forall₂ (Q a'.data arr a'.size) items ws := by
  obtain ⟨offs, t, hall, hstamp⟩ := bind_eq_ok.mp h
  obtain ⟨happ, hqs, hoffs⟩ := writeAll_eq_ok hQ hpre hal hw ha hall
  obtain ⟨hin, hmod, rfl⟩ := writeUint32Array_eq_ok hstamp
  have hlen := hqs.length_eq
  have hle := happ.le
  -- the stamp stays inside the array
  have hbelow : SameOn t.data (writeWords t.data arr offs) 0 arr :=
    (sameOn_writeWords (.inl le_rfl)).symm
  have habove : SameOn t.data (writeWords t.data arr offs) a.size t.size :=
    (sameOn_writeWords (.inr (by omega))).symm
  refine ⟨hle, (happ.same.mono le_rfl (by omega)).trans hbelow, happ.aligned, happ.bound, offs,
    ⟨le_rfl, hin, hmod, fun i hi => readU32_writeWords hoffs hi⟩, ?_⟩
  exact hQ.forall₂ hqs habove (by omega) le_rfl

end Lists

/-! ### The string tables -/

theorem serializeStrings_eq_ok {strings : List Bytes} {u : Unit} {a a' : TrieNodeArena}
    (ha : a.size % 4 = 0) (h : TrieSerializer.serializeStrings strings a = .ok u a') :
    Appended a a' ∧ TableAt a'.data a.size a'.size strings a.size := by
  unfold TrieSerializer.serializeStrings allocateAndWriteUint32 at h
  obtain ⟨_, t1, hcount, h⟩ := bind_eq_ok.mp h
  obtain ⟨off, t0, halloc, hwrite⟩ := bind_eq_ok.mp hcount
  obtain ⟨rfl, rfl, -⟩ := allocateData_eq_ok halloc
  cases hwrite
  obtain ⟨arr, t2, harr, h⟩ := bind_eq_ok.mp h
  obtain ⟨rfl, rfl, hbound⟩ := allocateUint32Array_eq_ok harr
  have h4 : bionicAlign 4 4 = 4 := rfl
  rw [h4] at hbound h
  dsimp only at hbound h
  obtain ⟨hle, hsame, hmod, hlt, ws, hws, hstr⟩ := stampArray_eq_ok
    (P := fun a => a.size % 4 = 0 ∧ a.size < 2 ^ 32) strAt_stable (fun _ happ => ⟨happ.aligned, happ.bound⟩) (fun h => h)
    (fun ha h => allocateAndWriteString_eq_ok ha.1 h)
    (by dsimp only; omega) rfl h
  dsimp only at hle hsame
  refine ⟨⟨by omega, ?_, hmod, hlt⟩, ⟨le_rfl, ha, ?_, ws, ?_, ?_⟩⟩
  · exact ((sameOn_writeU32 (.inl le_rfl)).symm).trans (hsame.mono le_rfl (by omega))
  · rw [← readU32_congr (hsame.mono (by omega) le_rfl)]
    exact readU32_writeU32_of_lt (by omega)
  · exact wordsAt_stable.mono hws (SameOn.refl _ _ _) (by omega) le_rfl
  · exact strAt_stable.forall₂ hstr (SameOn.refl _ _ _) (by omega) le_rfl

/-! ### Entries -/

theorem resolveIndex_eq_ok {table : List Bytes} {name : Option Bytes} {lookup : Bytes → Option ℕ}
    {i : ℕ} (hl : ∀ s i, lookup s = some i → table[i]? = some s)
    (h : resolveIndex name lookup = .ok i) : IsIndex table name i ∧ i < 2 ^ 32 := by
  have hno : noIndex < 2 ^ 32 := by decide
  unfold resolveIndex at h
  cases name with
  | none =>
    cases h
    exact ⟨rfl, hno⟩
  | some s =>
    dsimp only at h
    split_ifs at h with hs
    · cases hf : lookup s with
      | none => simp [hf] at h
      | some j =>
        simp only [hf] at h
        split_ifs at h with hj
        cases h
        refine ⟨?_, hj.1⟩
        rw [IsIndex, if_neg (by simpa using hs)]
        exact ⟨hj.2, hl s i hf⟩
    · cases h
      refine ⟨?_, hno⟩
      rw [IsIndex, if_pos (by simpa using hs)]

section Entries

variable {contexts types : List Bytes} {top : ℕ}

/-- The arena holds the two string tables below `top`. -/
structure Ready (contexts types : List Bytes) (top : ℕ) (arena : TrieNodeArena) : Prop where
  aligned : arena.size % 4 = 0
  bound : arena.size < 2 ^ 32
  header : infoHeaderSize ≤ top
  le : top ≤ arena.size
  tables : TablesAt contexts types arena.data top
  contextsOk : TableOk contexts
  typesOk : TableOk types

/-- Only the bytes below `top` matter. -/
theorem Ready.congr {a a' : TrieNodeArena} (h : Ready contexts types top a)
    (hs : SameOn a.data a'.data 0 top) (hle : top ≤ a'.size) (hmod : a'.size % 4 = 0)
    (hlt : a'.size < 2 ^ 32) : Ready contexts types top a' := by
  have hh : 24 ≤ top := h.header
  exact ⟨hmod, hlt, h.header, hle,
    h.tables.stable (hs.mono (by omega) le_rfl) (hs.mono (by omega) (by omega)) le_rfl,
    h.contextsOk, h.typesOk⟩

theorem Ready.appended {a a' : TrieNodeArena} (h : Ready contexts types top a)
    (happ : Appended a a') : Ready contexts types top a' :=
  h.congr (happ.same.mono le_rfl h.le) (h.le.trans happ.le) happ.aligned happ.bound

/-- The view of the arena the index lookups work on. -/
theorem info_eq_ok {a a' : TrieNodeArena} {area : PropertyInfoArea} (h : info a = .ok area a') :
    a = a' ∧ area.data = a.data ∧ area.size = a.size := by
  unfold info at h
  split_ifs at h
  cases h
  exact ⟨rfl, rfl, rfl⟩

/-- The index lookups of the serializer find the table's own index, whenever there is one. -/
theorem Ready.findIndex {a : TrieNodeArena} (h : Ready contexts types top a)
    {area : PropertyInfoArea} (hd : area.data = a.data) (hsz : area.size = a.size) (s : Bytes) :
    ((∀ i, ((area.findContextIndex s).run []).1 = some i → contexts[i]? = some s) ∧
      (((area.findContextIndex s).run []).1 = none → s ∉ contexts)) ∧
    (∀ i, ((area.findTypeIndex s).run []).1 = some i → types[i]? = some s) ∧
      (((area.findTypeIndex s).run []).1 = none → s ∉ types) := by
  have hsize : area.size < 2 ^ 32 := hsz ▸ h.bound
  have hhi : top ≤ area.size := hsz ▸ h.le
  have ht := h.tables
  rw [← hd] at ht
  obtain ⟨r, hr, hfound⟩ := findStringIndex_eq hsize ht.contexts hhi h.contextsOk "context"
    "Context" "contexts_offset" s
  obtain ⟨r', hr', hfound'⟩ := findStringIndex_eq hsize ht.types hhi h.typesOk "type" "Type"
    "types_offset" s
  have hnc : area.numContexts = pure contexts.length := tableCount_eq hsize ht.contexts hhi
  have hnt : area.numTypes = pure types.length := tableCount_eq hsize ht.types hhi
  have hc : area.findContextIndex s = pure r := by
    rw [PropertyInfoArea.findContextIndex, hnc, pure_bind]
    exact hr
  have ht' : area.findTypeIndex s = pure r' := by
    rw [PropertyInfoArea.findTypeIndex, hnt, pure_bind]
    exact hr'
  rw [hc, ht']
  exact ⟨hfound, hfound'⟩

theorem ofExcept_eq_ok {β : Type} {x : Except Error β} {b : β} {a a' : TrieNodeArena}
    (h : (MonadExcept.ofExcept x : ArenaM β) a = .ok b a') : x = .ok b ∧ a = a' := by
  cases x with
  | error e => cases h
  | ok c =>
    cases h
    exact ⟨rfl, rfl⟩

/-- The four fields of an entry after their assignment. -/
theorem readU32_entryFields {m : Mem} {a n l c t : ℕ} (hn : n < 2 ^ 32) (hl : l < 2 ^ 32)
    (hc : c < 2 ^ 32) (ht : t < 2 ^ 32) {m' : Mem}
    (hm : m' = writeU32 (writeU32 (writeU32 (writeU32 m (a + 0) n) (a + 4) l) (a + 8) c) (a + 12) t) :
    readU32 m' a = n ∧ readU32 m' (a + 4) = l ∧ readU32 m' (a + 8) = c ∧
      readU32 m' (a + 12) = t := by
  subst hm
  refine ⟨?_, ?_, ?_, readU32_writeU32_of_lt ht⟩
  · rw [readU32_writeU32_of_disjoint (by omega), readU32_writeU32_of_disjoint (by omega),
      readU32_writeU32_of_disjoint (by omega)]
    exact readU32_writeU32_of_lt hn
  · rw [readU32_writeU32_of_disjoint (by omega), readU32_writeU32_of_disjoint (by omega)]
    exact readU32_writeU32_of_lt hl
  · rw [readU32_writeU32_of_disjoint (by omega)]
    exact readU32_writeU32_of_lt hc

theorem writePropertyEntry_spec :
    Writes (Ready contexts types top) (EntryAt contexts types)
      TrieSerializer.writePropertyEntry := by
  intro entry a a' off hr h
  unfold TrieSerializer.writePropertyEntry at h
  obtain ⟨area, t0, hinfo, h⟩ := bind_eq_ok.mp h
  obtain ⟨rfl, hdata, hsz⟩ := info_eq_ok hinfo
  obtain ⟨ci, t1, hci, h⟩ := bind_eq_ok.mp h
  obtain ⟨hcix, rfl⟩ := ofExcept_eq_ok hci
  obtain ⟨ti, t2, hti, h⟩ := bind_eq_ok.mp h
  obtain ⟨htix, rfl⟩ := ofExcept_eq_ok hti
  obtain ⟨hc, hclt⟩ := resolveIndex_eq_ok (fun s => (hr.findIndex hdata hsz s).1.1) hcix
  obtain ⟨ht, htlt⟩ := resolveIndex_eq_ok (fun s => (hr.findIndex hdata hsz s).2.1) htix
  obtain ⟨eo, t3, heo, h⟩ := bind_eq_ok.mp h
  obtain ⟨rfl, rfl, hb⟩ := allocateData_eq_ok heo
  obtain ⟨no, t4, hno, h⟩ := bind_eq_ok.mp h
  have h16 : bionicAlign propertyEntrySize 4 = 16 := rfl
  have hal := hr.aligned
  rw [h16] at hb hno
  obtain ⟨happ, hstr, hnlt⟩ := allocateAndWriteString_eq_ok (by dsimp only; omega) hno
  split_ifs at h with hlen
  · cases h
  obtain ⟨_, t5, h5, h⟩ := bind_eq_ok.mp h
  obtain ⟨-, -, rfl⟩ := setField_eq_ok h5
  obtain ⟨_, t6, h6, h⟩ := bind_eq_ok.mp h
  obtain ⟨-, -, rfl⟩ := setField_eq_ok h6
  obtain ⟨_, t7, h7, h⟩ := bind_eq_ok.mp h
  obtain ⟨-, -, rfl⟩ := setField_eq_ok h7
  obtain ⟨_, t8, h8, h⟩ := bind_eq_ok.mp h
  obtain ⟨-, -, rfl⟩ := setField_eq_ok h8
  cases h
  have hle := happ.le
  have hsame := happ.same
  dsimp only at hle hsame hstr
  obtain ⟨m', hm'⟩ : ∃ m', m' = writeU32 (writeU32 (writeU32 (writeU32 t4.data (a.size + 0) no)
      (a.size + 4) entry.name.length) (a.size + 8) ci) (a.size + 12) ti := ⟨_, rfl⟩
  obtain ⟨hrn, hrl, hrc, hrt⟩ := readU32_entryFields hnlt (by omega) hclt htlt hm'
  -- the four assignments stay inside the entry
  have hout : ∀ lo hi, hi ≤ a.size ∨ a.size + 16 ≤ lo → SameOn t4.data m' lo hi := by
    intro lo hi hd
    rw [hm']
    exact ((((sameOn_writeU32 (by omega)).trans (sameOn_writeU32 (by omega))).trans
      (sameOn_writeU32 (by omega))).trans (sameOn_writeU32 (by omega))).symm
  dsimp only
  rw [← hm']
  refine ⟨⟨by dsimp only; omega, ?_, happ.aligned, happ.bound⟩, ?_, ?_⟩
  · exact (hsame.mono le_rfl (by omega)).trans (hout _ _ (.inl le_rfl))
  · refine ⟨le_rfl, hle, hal, ?_, hrl, ?_, ?_⟩
    · rw [hrn]
      exact strAt_stable.mono hstr (hout _ _ (.inr le_rfl)) (by omega) le_rfl
    · rw [hrc]
      exact hc
    · rw [hrt]
      exact ht
  · exact hr.bound

end Entries

/-! ### Nodes -/

section Nodes

variable {contexts types : List Bytes} {top : ℕ}

/-- One of the arrays of a node: apart from what is appended, only its two fields change. -/
theorem writeOffsetArray_eq_ok {α : Type} {Q : Mem → ℕ → ℕ → α → ℕ → Prop} {write : α → ArenaM ℕ}
    (hQ : Stable Q) (hw : Writes (Ready contexts types top) Q write) {items : List α}
    {node field : ℕ} {u : Unit} {a a' : TrieNodeArena} (hr : Ready contexts types top a)
    (htop : top ≤ node) (hin : node + field + 8 ≤ a.size)
    (h : TrieSerializer.writeOffsetArray node field items write a = .ok u a') :
    Ready contexts types top a' ∧ a.size ≤ a'.size ∧ SameOn a.data a'.data 0 (node + field) ∧
      SameOn a.data a'.data (node + field + 8) a.size ∧
      ArrayAt Q a'.data a.size a'.size items (node + field) := by
  unfold TrieSerializer.writeOffsetArray at h
  obtain ⟨_, t1, h1, h⟩ := bind_eq_ok.mp h
  obtain ⟨-, -, rfl⟩ := setField_eq_ok h1
  obtain ⟨arr, t2, h2, h⟩ := bind_eq_ok.mp h
  obtain ⟨rfl, rfl, hbound⟩ := allocateUint32Array_eq_ok h2
  obtain ⟨_, t3, h3, h⟩ := bind_eq_ok.mp h
  obtain ⟨-, -, rfl⟩ := setField_eq_ok h3
  dsimp only at h hbound
  have hmod := hr.aligned
  have hle := hr.le
  -- the two assignments stay inside the slot
  have hout : ∀ lo hi, hi ≤ node + field ∨ node + field + 8 ≤ lo → SameOn a.data
      (writeU32 (writeU32 a.data (node + field) items.length) (node + (field + 4)) a.size) lo hi :=
    fun lo hi hd => ((sameOn_writeU32 (by omega)).trans (sameOn_writeU32 (by omega))).symm
  have hr3 : Ready contexts types top { a with
      data := writeU32 (writeU32 a.data (node + field) items.length) (node + (field + 4)) a.size
      size := a.size + 4 * items.length } :=
    hr.congr (hout _ _ (.inl (by omega))) (by dsimp only; omega) (by dsimp only; omega) hbound
  obtain ⟨hle', hsame, hmod', hlt', ws, hws, hitems⟩ :=
    stampArray_eq_ok hQ Ready.appended (fun h => ⟨h.aligned, h.bound⟩) hw hr3 rfl h
  dsimp only at hle' hsame
  have hcount : readU32 a'.data (node + field) = items.length := by
    rw [← readU32_congr (hsame.mono (by omega) (by omega)),
      readU32_writeU32_of_disjoint (by omega)]
    exact readU32_writeU32_of_lt (by omega)
  have harr : readU32 a'.data (node + field + 4) = a.size := by
    rw [← readU32_congr (hsame.mono (by omega) (by omega))]
    exact readU32_writeU32_of_lt hr.bound
  refine ⟨hr3.congr (hsame.mono le_rfl hle) (by omega) hmod' hlt', by omega, ?_, ?_, hcount, ws, ?_,
    hitems⟩
  · exact (hout _ _ (.inl le_rfl)).trans (hsame.mono le_rfl (by omega))
  · exact (hout _ _ (.inr le_rfl)).trans (hsame.mono (by omega) le_rfl)
  · rw [harr]
    exact hws

/-- **The serializer lays out a node with everything below it.** -/
theorem writeTrieNode_spec (levels : ℕ) :
    Writes (Ready contexts types top) (NodeAt contexts types levels)
      (TrieSerializer.writeTrieNode levels) := by
  induction levels with
  | zero =>
    intro node a a' off _ h
    cases h
  | succ levels ih =>
    intro node a a' off hr h
    unfold TrieSerializer.writeTrieNode at h
    obtain ⟨o, t0, h0, h⟩ := bind_eq_ok.mp h
    obtain ⟨rfl, rfl, hb0⟩ := allocateData_eq_ok h0
    have h28 : bionicAlign trieNodeDataSize 4 = 28 := rfl
    rw [h28] at hb0 h
    dsimp only at hb0
    have hmod := hr.aligned
    have htop := hr.le
    have hr0 : Ready contexts types top { a with size := a.size + 28 } :=
      hr.congr (SameOn.refl _ _ _) (by dsimp only; omega) (by dsimp only; omega) hb0
    obtain ⟨pe, t1, h1, h⟩ := bind_eq_ok.mp h
    obtain ⟨happ, hentry, hpe⟩ := writePropertyEntry_spec hr0 h1
    have hle1 := happ.le
    have hs1 := happ.same
    dsimp only at hle1 hs1 hentry
    obtain ⟨_, t2, h2, h⟩ := bind_eq_ok.mp h
    obtain ⟨-, -, rfl⟩ := setField_eq_ok h2
    have hout : ∀ lo hi, hi ≤ a.size ∨ a.size + 4 ≤ lo →
        SameOn t1.data (writeU32 t1.data (a.size + 0) pe) lo hi :=
      fun lo hi hd => (sameOn_writeU32 (by omega)).symm
    have hr2 : Ready contexts types top { t1 with data := writeU32 t1.data (a.size + 0) pe } :=
      (hr0.appended happ).congr (hout _ _ (.inl htop)) (by dsimp only; omega) happ.aligned
        happ.bound
    obtain ⟨_, t3, h3, h⟩ := bind_eq_ok.mp h
    obtain ⟨hr3, hle3, hlo3, hhi3, hpre⟩ := writeOffsetArray_eq_ok entryAt_stable
      writePropertyEntry_spec hr2 htop (by dsimp only; omega) h3
    obtain ⟨_, t4, h4, h⟩ := bind_eq_ok.mp h
    dsimp only at hle3 hlo3 hhi3 hpre
    obtain ⟨hr4, hle4, hlo4, hhi4, hex⟩ := writeOffsetArray_eq_ok entryAt_stable
      writePropertyEntry_spec hr3 htop (by omega) h4
    obtain ⟨_, t5, h5, h⟩ := bind_eq_ok.mp h
    obtain ⟨hr5, hle5, hlo5, hhi5, hch⟩ := writeOffsetArray_eq_ok (nodeAt_stable levels) ih hr4
      htop (by omega) h5
    cases h
    -- behind the node, each step only appends
    have hs2 : SameOn t1.data t3.data (a.size + 28) t1.size :=
      (hout _ _ (.inr (by omega))).trans (hhi3.mono (by omega) le_rfl)
    have hs3 : SameOn t3.data a'.data (a.size + 28) t3.size :=
      (hhi4.mono le_rfl le_rfl).trans (hhi5.mono (by omega) hle4)
    have hread : readU32 a'.data a.size = pe := by
      rw [← readU32_congr (hlo5.mono (by omega) (by omega)),
        ← readU32_congr (hlo4.mono (by omega) (by omega)),
        ← readU32_congr (hlo3.mono (by omega) (by omega))]
      exact readU32_writeU32_of_lt hpe
    refine ⟨⟨by omega, ?_, hr5.aligned, hr5.bound⟩, ⟨le_rfl, ?_, hmod, ?_, ?_, ?_, ?_⟩, hr.bound⟩
    · have hs : SameOn a.data t3.data 0 a.size :=
        (hs1.mono le_rfl (by omega)).trans ((hout _ _ (.inl le_rfl)).trans
          (hlo3.mono le_rfl (by omega)))
      exact hs.trans ((hlo4.mono le_rfl (by omega)).trans (hlo5.mono le_rfl (by omega)))
    · have : trieNodeDataSize = 28 := rfl
      omega
    · rw [hread]
      exact entryAt_stable.mono hentry (hs2.trans (hs3.mono le_rfl hle3)) (by omega) (by omega)
    · refine hpre.stable entryAt_stable (hs3.mono (by omega) le_rfl) ?_ (by omega) (by omega)
      exact (hlo4.mono (by omega) (by omega)).trans (hhi5.mono (by omega) (by omega))
    · exact hex.stable entryAt_stable (hhi5.mono (by omega) le_rfl)
        (hhi5.mono (by omega) (by omega)) (by omega) hle5
    · exact hch.stable (nodeAt_stable levels) (SameOn.refl _ _ _) (SameOn.refl _ _ _) (by omega)
        le_rfl

end Nodes

/-! ### The whole image -/

/-- An image of a built trie: its tables and its nodes stand where the header says. -/
structure ImageOf (builder : TrieBuilder) (m : Mem) (size : ℕ) : Prop where
  header : infoHeaderSize ≤ size
  bound : size < 2 ^ 32
  tables : TablesAt builder.contexts builder.types m size
  root : NodeAt builder.contexts builder.types (TrieSerializer.maxTrieDepth + 1) m 0 size
    builder.root (readU32 m 20)

/-- The header and the tables, up to the nodes. -/
def writeTables (builder : TrieBuilder) : ArenaM ℕ := do
  let header ← allocateObject infoHeaderSize
  setField infoHeaderSize header 0 1
  setField infoHeaderSize header 4 1
  setField infoHeaderSize header 12 (← get).size
  TrieSerializer.serializeStrings builder.contexts
  setField infoHeaderSize header 16 (← get).size
  TrieSerializer.serializeStrings builder.types
  setField infoHeaderSize header 8 (← get).size
  return header

theorem serialize_eq (builder : TrieBuilder) : TrieSerializer.serialize builder = (do
    let header ← writeTables builder
    let root ← TrieSerializer.writeTrieNode (TrieSerializer.maxTrieDepth + 1) builder.root
    setField infoHeaderSize header 20 root
    setField infoHeaderSize header 8 (← get).size) := by
  simp only [TrieSerializer.serialize, writeTables, bind_assoc, pure_bind]

/-- Behind the tables, entries can be written. -/
theorem writeTables_eq_ok {builder : TrieBuilder} {header : ℕ} {a' : TrieNodeArena}
    (hc : TableOk builder.contexts) (ht : TableOk builder.types)
    (h : writeTables builder TrieNodeArena.new = .ok header a') :
    header = 0 ∧ Ready builder.contexts builder.types a'.size a' := by
  unfold writeTables at h
  obtain ⟨o, t0, h0, h⟩ := bind_eq_ok.mp h
  obtain ⟨ho, ht0, -⟩ := allocateData_eq_ok h0
  obtain rfl : o = 0 := ho
  obtain rfl : t0 = ⟨fun _ => 0, 24⟩ := ht0
  obtain ⟨_, t1, h1, h⟩ := bind_eq_ok.mp h
  obtain ⟨-, -, rfl⟩ := setField_eq_ok h1
  obtain ⟨_, t2, h2, h⟩ := bind_eq_ok.mp h
  obtain ⟨-, -, rfl⟩ := setField_eq_ok h2
  obtain ⟨_, t3, h3, h⟩ := bind_eq_ok.mp h
  cases h3
  obtain ⟨_, t3, h3, h⟩ := bind_eq_ok.mp h
  obtain ⟨-, -, rfl⟩ := setField_eq_ok h3
  -- the contexts, right behind the header
  obtain ⟨_, t4, h4, h⟩ := bind_eq_ok.mp h
  obtain ⟨happ4, htab4⟩ := serializeStrings_eq_ok (by rfl) h4
  obtain ⟨_, _, h5, h⟩ := bind_eq_ok.mp h
  cases h5
  obtain ⟨_, t5, h5, h⟩ := bind_eq_ok.mp h
  obtain ⟨-, -, rfl⟩ := setField_eq_ok h5
  -- the types behind them
  obtain ⟨_, t6, h6, h⟩ := bind_eq_ok.mp h
  obtain ⟨happ6, htab6⟩ := serializeStrings_eq_ok (by exact happ4.aligned) h6
  obtain ⟨_, _, h7, h⟩ := bind_eq_ok.mp h
  cases h7
  obtain ⟨_, t7, h7, h⟩ := bind_eq_ok.mp h
  obtain ⟨-, -, rfl⟩ := setField_eq_ok h7
  cases h
  have hh : infoHeaderSize = 24 := rfl
  have hle4 : 24 ≤ t4.size := happ4.le
  have hs4 := happ4.same
  have hle6 := happ6.le
  have hs6 := happ6.same
  dsimp only at hs4 htab4 hle6 hs6 htab6
  have htables : TablesAt builder.contexts builder.types t6.data t6.size := by
    have h12 : readU32 t6.data 12 = 24 := by
      rw [← readU32_congr (hs6.mono (by omega) (by omega)),
        readU32_writeU32_of_disjoint (by omega), ← readU32_congr (hs4.mono (by omega) (by omega))]
      exact readU32_writeU32_of_lt (by omega)
    have h16 : readU32 t6.data 16 = t4.size := by
      rw [← readU32_congr (hs6.mono (by omega) (by omega))]
      exact readU32_writeU32_of_lt happ4.bound
    refine ⟨?_, ?_⟩
    · rw [h12]
      have hsame : SameOn t4.data t6.data 24 t4.size :=
        (sameOn_writeU32 (by omega)).symm.trans (hs6.mono (by omega) le_rfl)
      exact tableAt_stable.mono htab4 hsame (by omega) hle6
    · rw [h16]
      exact tableAt_stable.mono htab6 (SameOn.refl _ _ _) (by omega) le_rfl
  refine ⟨rfl, happ6.aligned, happ6.bound, by dsimp only; omega, le_rfl, ?_, hc, ht⟩
  exact htables.stable (sameOn_writeU32 (by omega)).symm (sameOn_writeU32 (by omega)).symm le_rfl

theorem serialize_eq_ok {builder : TrieBuilder} {u : Unit} {a' : TrieNodeArena}
    (hc : TableOk builder.contexts) (ht : TableOk builder.types)
    (h : TrieSerializer.serialize builder TrieNodeArena.new = .ok u a') :
    ImageOf builder a'.data a'.size := by
  rw [serialize_eq] at h
  obtain ⟨o, t7, h7, h⟩ := bind_eq_ok.mp h
  obtain ⟨rfl, hr⟩ := writeTables_eq_ok hc ht h7
  have hh : infoHeaderSize = 24 := rfl
  have hle7 := hr.header
  -- the nodes behind the tables, and the last two words of the header
  obtain ⟨root, t8, h8, h⟩ := bind_eq_ok.mp h
  obtain ⟨happ8, hnode, hroot⟩ := writeTrieNode_spec _ hr h8
  have hr8 := hr.appended happ8
  obtain ⟨_, t9, h9, h⟩ := bind_eq_ok.mp h
  obtain ⟨-, -, rfl⟩ := setField_eq_ok h9
  obtain ⟨_, _, h10, h⟩ := bind_eq_ok.mp h
  cases h10
  obtain ⟨-, -, rfl⟩ := setField_eq_ok h
  have hle8 := happ8.le
  have hsame : ∀ lo hi, 24 ≤ lo → SameOn t8.data
      (writeU32 (writeU32 t8.data (0 + 20) root) (0 + 8) t8.size) lo hi := fun lo hi hlo =>
    ((sameOn_writeU32 (by omega)).trans (sameOn_writeU32 (by omega))).symm
  refine ⟨by dsimp only; omega, hr8.bound, ?_, ?_⟩
  · refine hr8.tables.stable (hsame _ _ (by omega)) ?_ hr8.le
    exact ((sameOn_writeU32 (by omega)).trans (sameOn_writeU32 (by omega))).symm
  · have h20 : readU32 (writeU32 (writeU32 t8.data (0 + 20) root) (0 + 8) t8.size) 20 = root := by
      rw [readU32_writeU32_of_disjoint (by omega)]
      exact readU32_writeU32_of_lt hroot
    dsimp only
    rw [h20]
    exact (nodeAt_stable _).mono hnode (hsame _ _ (by omega)) (by omega) le_rfl

end RsProperties.InfoTrie
