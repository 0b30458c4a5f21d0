import RsProperties.InfoTrie.Accept

/-!
# The size of the image

Every object of the image is allocated once, in a fixed size, so the size of the image can be summed up over
the trie (`imageSize`). The serializer fails when this sum leaves the 32-bit offsets, and for no other reason:
the index lookups find every string, the trie is not too deep, and every access is inside the allocated extent.

`Takes a cost r` is the contract of an operation that adds `cost` bytes to the arena `a`; it composes along
sequences, so the contract of the whole serializer is put together from those of its allocations.
-/

namespace RsProperties.InfoTrie

open ByteMem TrieNodeArena StateExcept TrieSerializer

/-! ### Sizes -/

/-- A stored string with its terminator. -/
def stringSize (s : Bytes) : ℕ := bionicAlign (s.length + 1) 4

def entrySize (entry : PropertyEntryBuilder) : ℕ := 16 + stringSize entry.name

/-- An array of offsets and the objects it points to. -/
def arraySize {α : Type} (size : α → ℕ) (items : List α) : ℕ :=
  4 * items.length + (items.map size).sum

def tableSize (strings : List Bytes) : ℕ := 4 + arraySize stringSize strings

/-- A node with its entries and everything below it, down to the given number of levels. -/
def nodeSize : ℕ → TrieBuilderNode → ℕ
  | 0, _ => 0
  | levels + 1, node =>
    28 + entrySize node.propertyEntry + arraySize entrySize node.prefixes +
      arraySize entrySize node.exactMatches + arraySize (nodeSize levels) node.children

def imageSize (builder : TrieBuilder) : ℕ :=
  24 + tableSize builder.contexts + tableSize builder.types +
    nodeSize (maxTrieDepth + 1) builder.root

theorem arraySize_perm {α : Type} {size : α → ℕ} {l l' : List α} (h : l.Perm l') :
    arraySize size l = arraySize size l' := by
  rw [arraySize, arraySize, h.length_eq, (h.map size).sum_eq]

/-! ### Operations that take space -/

/-- The errors of an image that leaves the 32-bit offsets. -/
def IsSpace (e : Error) : Prop :=
  (∃ used size : ℕ, e = .fileValidation
    s!"Serialized property info exceeds the u32 offset space: {used} + {size} bytes") ∨
  ∃ length : ℕ, e = .fileValidation s!"Array len overflow: {length}"

/-- The outcome of an operation that adds `cost` bytes to the arena. -/
inductive Takes {α : Type} (a : TrieNodeArena) (cost : ℕ) :
    EStateM.Result Error TrieNodeArena α → Prop
  | ok {x : α} {a' : TrieNodeArena} (hfit : a.size + cost < 2 ^ 32)
      (hsize : a'.size = a.size + cost) : Takes a cost (.ok x a')
  | full {e : Error} {a' : TrieNodeArena} (hfull : 2 ^ 32 ≤ a.size + cost) (he : IsSpace e) :
      Takes a cost (.error e a')

section Takes

variable {α β : Type} {a : TrieNodeArena} {cost cost' : ℕ}

/-- One operation after the other. -/
theorem Takes.bind {op : ArenaM α} {f : α → ArenaM β} (h : Takes a cost (op a))
    (hf : ∀ x a', op a = .ok x a' → a'.size = a.size + cost → a'.size < 2 ^ 32 →
      Takes a' cost' (f x a')) : Takes a (cost + cost') ((op >>= f) a) := by
  cases hr : op a with
  | error e a' =>
    rw [hr] at h
    rw [bind_error hr]
    cases h with
    | full hfull he => exact .full (by omega) he
  | ok x a' =>
    rw [hr] at h
    rw [bind_ok hr]
    cases h with
    | ok hfit hsize =>
      have hf := hf x a' hr hsize (by omega)
      generalize f x a' = r at hf ⊢
      cases hf with
      | ok hfit' hsize' => exact .ok (by omega) (by omega)
      | full hfull he => exact .full (by omega) he

/-- What follows takes no space. -/
theorem Takes.bind_free {op : ArenaM α} {f : α → ArenaM β} (h : Takes a cost (op a))
    (hf : ∀ x a', op a = .ok x a' → a'.size = a.size + cost → a'.size < 2 ^ 32 →
      Takes a' 0 (f x a')) : Takes a cost ((op >>= f) a) := h.bind hf

theorem Takes.cast {r : EStateM.Result Error TrieNodeArena α} (h : Takes a cost r)
    (hc : cost = cost') : Takes a cost' r := hc ▸ h

theorem takes_pure (h : a.size < 2 ^ 32) (x : α) : Takes a 0 ((pure x : ArenaM α) a) := .ok h rfl

theorem allocateData_takes (a : TrieNodeArena) (size : ℕ) :
    Takes a (bionicAlign size 4) (allocateData size a) := by
  unfold allocateData
  dsimp only
  split_ifs with h
  · exact .ok h rfl
  · exact .full (by omega) (.inl ⟨_, _, rfl⟩)

theorem allocateUint32Array_takes (a : TrieNodeArena) (length : ℕ) :
    Takes a (4 * length) (allocateUint32Array length a) := by
  unfold allocateUint32Array
  split_ifs with h
  · rw [usizeMax] at h
    exact .full (by omega) (.inr ⟨_, rfl⟩)
  · refine (allocateData_takes a (length * 4)).cast ?_
    rw [bionicAlign_four]
    omega

/-- Only the size of the arena counts. -/
theorem Takes.congr {b : TrieNodeArena} {r : EStateM.Result Error TrieNodeArena α}
    (h : Takes b cost r) (hs : b.size = a.size) : Takes a cost r := by
  cases h with
  | ok hfit hsize => exact .ok (hs ▸ hfit) (hs ▸ hsize)
  | full hfull he => exact .full (hs ▸ hfull) he

/-- An assignment inside the allocated extent. -/
theorem setField_run {size off : ℕ} (hin : off + size ≤ a.size) (hal : off % 4 = 0)
    (field value : ℕ) : setField size off field value a =
      .ok () { a with data := writeU32 a.data (off + field) value } := by
  have hget : getObject size off a = .ok () a := by
    unfold getObject
    rw [if_neg (by omega), if_neg (by omega)]
  rw [setField, bind_ok hget]
  rfl

theorem writeUint32Array_takes {off : ℕ} {values : List ℕ} (hb : a.size < 2 ^ 32)
    (hin : off + 4 * values.length ≤ a.size) (hal : off % 4 = 0) :
    Takes a 0 (writeUint32Array off values a) := by
  have hu : usizeMax = 2 ^ 64 - 1 := rfl
  unfold writeUint32Array
  rw [if_neg (by omega), if_neg (by omega), if_neg (by omega), if_neg (by omega)]
  exact .ok hb rfl

theorem allocateAndWriteString_takes (a : TrieNodeArena) (s : Bytes) :
    Takes a (stringSize s) (allocateAndWriteString s a) := by
  unfold allocateAndWriteString
  exact (allocateData_takes a (s.length + 1)).bind_free fun _ _ _ _ hb => .ok hb rfl

/-- Objects written one after another. -/
theorem writeAll_takes {P : TrieNodeArena → Prop} {write : α → ArenaM ℕ} {size : α → ℕ}
    (hbound : ∀ {a}, P a → a.size < 2 ^ 32)
    (hpre : ∀ {x a off a'}, P a → write x a = .ok off a' → P a') {items : List α}
    (hw : ∀ x ∈ items, ∀ a, P a → Takes a (size x) (write x a)) (ha : P a) :
    Takes a (items.map size).sum (writeAll write items a) := by
  induction items generalizing a with
  | nil => exact takes_pure (hbound ha) []
  | cons x items ih =>
    rw [List.map_cons, List.sum_cons]
    refine (hw x (by simp) a ha).bind fun off a1 hr _ _ => ?_
    refine (ih (fun y hy => hw y (List.mem_cons_of_mem _ hy)) (hpre ha hr)).bind_free ?_
    exact fun offs a2 _ _ hb => takes_pure hb _

end Takes

/-! ### The string tables -/

theorem length_writeAll {α : Type} {write : α → ArenaM ℕ} {items : List α} {offs : List ℕ}
    {a a' : TrieNodeArena} (h : writeAll write items a = .ok offs a') :
    offs.length = items.length := by
  induction items generalizing a offs with
  | nil =>
    cases h
    rfl
  | cons x items ih =>
    obtain ⟨off, t, -, h⟩ := bind_eq_ok.mp h
    obtain ⟨offs', t', hrest, h⟩ := bind_eq_ok.mp h
    cases h
    rw [List.length_cons, List.length_cons, ih hrest]

/-- The items of an allocated array, then the stamp of the array. -/
theorem stampArray_takes {α : Type} {P : TrieNodeArena → Prop} {write : α → ArenaM ℕ}
    {size : α → ℕ} {a : TrieNodeArena} (hbound : ∀ {a}, P a → a.size < 2 ^ 32)
    (hpre : ∀ {x a off a'}, P a → write x a = .ok off a' → P a') {items : List α}
    (hw : ∀ x ∈ items, ∀ a, P a → Takes a (size x) (write x a)) (ha : P a) {arr : ℕ}
    (harr : a.size = arr + 4 * items.length) (hal : arr % 4 = 0) :
    Takes a (items.map size).sum ((do
      let offsets ← writeAll write items
      writeUint32Array arr offsets) a) := by
  refine (writeAll_takes hbound hpre hw ha).bind_free fun offs a' hr hsize hb => ?_
  have hlen := length_writeAll hr
  exact writeUint32Array_takes hb (by omega) hal

theorem serializeStrings_takes {a : TrieNodeArena} (hal : a.size % 4 = 0) (strings : List Bytes) :
    Takes a (tableSize strings) (serializeStrings strings a) := by
  unfold serializeStrings allocateAndWriteUint32
  rw [tableSize, arraySize]
  refine Takes.bind ?_ fun _ a1 hr1 hsize1 hb1 => ?_
  · exact (allocateData_takes a 4).bind_free fun _ _ _ _ hb => .ok hb rfl
  refine (allocateUint32Array_takes a1 strings.length).bind fun arr a2 hr2 hsize2 hb2 => ?_
  obtain ⟨rfl, -, -⟩ := allocateUint32Array_eq_ok hr2
  refine stampArray_takes (P := fun a => a.size % 4 = 0 ∧ a.size < 2 ^ 32) And.right ?_
    (fun s _ a _ => allocateAndWriteString_takes a s) ⟨by omega, hb2⟩ hsize2 (by omega)
  intro s a off a' ha h
  have happ := (allocateAndWriteString_eq_ok ha.1 h).1
  exact ⟨happ.aligned, happ.bound⟩

/-! ### Entries -/

/-- The strings of an entry are in the tables. -/
structure Interned (contexts types : List Bytes) (entry : PropertyEntryBuilder) : Prop where
  context : ∀ s, entry.context = some s → s ∈ contexts
  type : ∀ s, entry.rtype = some s → s ∈ types

section Entries

variable {contexts types : List Bytes} {top : ℕ} {a : TrieNodeArena}

/-- An interned string has an index. -/
theorem resolveIndex_isOk {table : List Bytes} {name : Option Bytes} {lookup : Bytes → Option ℕ}
    (hsome : ∀ s i, lookup s = some i → table[i]? = some s)
    (hnone : ∀ s, lookup s = none → s ∉ table) (hlen : table.length < 2 ^ 32 - 1)
    (hname : ∀ s, name = some s → s ∈ table) : ∃ i, resolveIndex name lookup = .ok i := by
  unfold resolveIndex
  cases name with
  | none => exact ⟨_, rfl⟩
  | some s =>
    dsimp only
    split_ifs with hs
    · cases hl : lookup s with
      | none => exact absurd (hname s rfl) (hnone s hl)
      | some i =>
        have hi : i < table.length := (List.getElem?_eq_some_iff.mp (hsome s i hl)).1
        have hno : noIndex = 2 ^ 32 - 1 := rfl
        dsimp only
        rw [if_pos ⟨by omega, by omega⟩]
        exact ⟨i, rfl⟩
    · exact ⟨_, rfl⟩

/-- A table inside the arena has fewer strings than there are indexes. -/
theorem length_lt_of_tableAt {m : Mem} {lo hi off : ℕ} {strings : List Bytes}
    (h : TableAt m lo hi strings off) (hhi : hi < 2 ^ 32) : strings.length < 2 ^ 32 - 1 := by
  obtain ⟨ws, hws, hstr⟩ := h.array
  have hle := hws.high
  have hlen := hstr.length_eq
  omega

/-- **An entry** whose strings are in the tables fails only for space. -/
theorem writePropertyEntry_takes (hr : Ready contexts types top a) {entry : PropertyEntryBuilder}
    (he : Interned contexts types entry) : Takes a (entrySize entry) (writePropertyEntry entry a) := by
  have hal := hr.aligned
  have hheader : infoHeaderSize ≤ a.size := hr.header.trans hr.le
  obtain ⟨area, hinfo⟩ : ∃ area, info a = .ok area a := ⟨_, dif_pos hheader⟩
  obtain ⟨-, hdata, hsize⟩ := info_eq_ok hinfo
  have htop := hr.le.trans_lt hr.bound
  have hfind := hr.findIndex hdata hsize
  obtain ⟨ci, hci⟩ := resolveIndex_isOk (fun s => (hfind s).1.1) (fun s => (hfind s).1.2)
    (length_lt_of_tableAt hr.tables.contexts htop) he.context
  obtain ⟨ti, hti⟩ := resolveIndex_isOk (fun s => (hfind s).2.1) (fun s => (hfind s).2.2)
    (length_lt_of_tableAt hr.tables.types htop) he.type
  have hof : ∀ i : ℕ, (MonadExcept.ofExcept (Except.ok i : Except Error ℕ) : ArenaM ℕ) a =
      .ok i a := fun _ => rfl
  rw [writePropertyEntry, bind_ok hinfo, hci, hti, bind_ok (hof ci), bind_ok (hof ti), entrySize]
  refine Takes.bind (allocateData_takes a propertyEntrySize) fun eo a1 hr1 hsize1 hb1 => ?_
  obtain ⟨rfl, -, -⟩ := allocateData_eq_ok hr1
  have h16 : bionicAlign propertyEntrySize 4 = 16 := rfl
  have hpe : propertyEntrySize = 16 := rfl
  refine (allocateAndWriteString_takes a1 entry.name).bind_free fun no a2 _ hsize2 hb2 => ?_
  have hge : entry.name.length + 1 ≤ stringSize entry.name := le_bionicAlign_four _
  have hin : a.size + propertyEntrySize ≤ a2.size := by omega
  have hset : ∀ m field value, setField propertyEntrySize a.size field value ⟨m, a2.size⟩ =
      .ok () ⟨writeU32 m (a.size + field) value, a2.size⟩ := fun _ => setField_run hin hal
  rw [if_neg (by omega)]
  beta_reduce
  rw [bind_ok (setField_run hin hal _ _), bind_ok (hset _ _ _), bind_ok (hset _ _ _),
    bind_ok (hset _ _ _)]
  exact .ok hb2 rfl

end Entries

/-! ### Nodes -/

section Nodes

variable {contexts types : List Bytes} {top : ℕ} {a : TrieNodeArena}

/-- One of the arrays of a node. -/
theorem writeOffsetArray_takes {α : Type} {Q : Mem → ℕ → ℕ → α → ℕ → Prop} {write : α → ArenaM ℕ}
    {size : α → ℕ} (hr : Ready contexts types top a) (hQ : Writes (Ready contexts types top) Q write)
    {items : List α}
    (hw : ∀ x ∈ items, ∀ a, Ready contexts types top a → Takes a (size x) (write x a))
    {node field : ℕ} (htop : top ≤ node) (hfield : field + 8 ≤ 28) (hin : node + 28 ≤ a.size)
    (hal : node % 4 = 0) :
    Takes a (arraySize size items) (writeOffsetArray node field items write a) := by
  have h28 : trieNodeDataSize = 28 := rfl
  have hmod := hr.aligned
  have hle := hr.le
  rw [writeOffsetArray, bind_ok (setField_run (by omega) hal _ _), arraySize]
  refine Takes.congr ((allocateUint32Array_takes _ items.length).bind
    fun arr a2 h2 hs2 hb2 => ?_) rfl
  obtain ⟨rfl, rfl, -⟩ := allocateUint32Array_eq_ok h2
  dsimp only at hs2 hb2
  rw [bind_ok (setField_run (by dsimp only; omega) hal _ _)]
  have hready : Ready contexts types top { a with
      data := writeU32 (writeU32 a.data (node + field) items.length) (node + (field + 4)) a.size
      size := a.size + 4 * items.length } := by
    refine hr.congr (SameOn.symm ?_) (by dsimp only; omega) (by dsimp only; omega) hb2
    exact (sameOn_writeU32 (.inl (by omega))).trans (sameOn_writeU32 (.inl (by omega)))
  exact Takes.congr (stampArray_takes Ready.bound (fun ha h => ha.appended (hQ ha h).1) hw hready
    rfl hmod) rfl

/-- A node all of whose strings are in the tables, with fewer levels below it than the given
number. -/
def Storable (contexts types : List Bytes) : ℕ → TrieBuilderNode → Prop
  | 0, _ => False
  | levels + 1, node =>
    Interned contexts types node.propertyEntry ∧ (∀ e ∈ node.prefixes, Interned contexts types e) ∧
      (∀ e ∈ node.exactMatches, Interned contexts types e) ∧
      ∀ c ∈ node.children, Storable contexts types levels c

/-- **A node with everything below it** fails only for space. -/
theorem writeTrieNode_takes {levels : ℕ} {node : TrieBuilderNode}
    (hs : Storable contexts types levels node) (hr : Ready contexts types top a) :
    Takes a (nodeSize levels node) (writeTrieNode levels node a) := by
  induction levels generalizing node a with
  | zero => exact hs.elim
  | succ levels ih =>
    obtain ⟨hentry, hpre, hexact, hch⟩ := hs
    have h28 : trieNodeDataSize = 28 := rfl
    have hb28 : bionicAlign trieNodeDataSize 4 = 28 := rfl
    have hmod := hr.aligned
    have hle := hr.le
    rw [writeTrieNode, nodeSize, Nat.add_assoc, Nat.add_assoc, Nat.add_assoc]
    refine Takes.bind (allocateData_takes a trieNodeDataSize) fun o a1 h1 hs1 hb1 => ?_
    obtain ⟨rfl, rfl, -⟩ := allocateData_eq_ok h1
    dsimp only at hs1 hb1
    have hr1 : Ready contexts types top { a with size := a.size + bionicAlign trieNodeDataSize 4 } :=
      hr.congr (SameOn.refl _ _ _) (by dsimp only; omega) (by dsimp only; omega) hb1
    refine (writePropertyEntry_takes hr1 hentry).bind fun pe a2 h2 hs2 hb2 => ?_
    have happ := (writePropertyEntry_spec hr1 h2).1
    have hr2 := hr1.appended happ
    dsimp only at hs2
    rw [bind_ok (setField_run (by omega) hmod _ _)]
    have hr3 : Ready contexts types top { a2 with data := writeU32 a2.data (a.size + 0) pe } :=
      hr2.congr (sameOn_writeU32 (.inl (by omega))).symm hr2.le hr2.aligned hr2.bound
    -- the three arrays, each over what the one before has left
    have hp := (List.perm_insertionSort prefixOrder node.prefixes)
    have hx := (List.perm_insertionSort entryOrder node.exactMatches)
    have hc := (List.perm_insertionSort childOrder node.children)
    refine Takes.congr (Takes.bind ((writeOffsetArray_takes hr3 writePropertyEntry_spec
      (fun e he a ha => writePropertyEntry_takes ha (hpre e (hp.mem_iff.mp he))) hle (by omega)
      (by dsimp only; omega) hmod).cast (arraySize_perm hp)) fun _ a4 h4 hs4 hb4 => ?_) rfl
    obtain ⟨hr4, -⟩ := writeOffsetArray_eq_ok entryAt_stable writePropertyEntry_spec hr3 hle
      (by dsimp only; omega) h4
    dsimp only at hs4
    refine Takes.bind ((writeOffsetArray_takes hr4 writePropertyEntry_spec
      (fun e he a ha => writePropertyEntry_takes ha (hexact e (hx.mem_iff.mp he))) hle (by omega)
      (by omega) hmod).cast (arraySize_perm hx)) fun _ a5 h5 hs5 hb5 => ?_
    obtain ⟨hr5, -⟩ := writeOffsetArray_eq_ok entryAt_stable writePropertyEntry_spec hr4 hle
      (by omega) h5
    refine Takes.bind_free ((writeOffsetArray_takes hr5 (writeTrieNode_spec levels)
      (fun c hcm a ha => ih (hch c (hc.mem_iff.mp hcm)) ha) hle (by omega)
      (by omega) hmod).cast (arraySize_perm hc)) fun _ a6 _ _ hb6 => ?_
    exact takes_pure hb6 _

end Nodes

/-! ### The whole image -/

theorem writeTables_takes (builder : TrieBuilder) : Takes TrieNodeArena.new
    (24 + (tableSize builder.contexts + tableSize builder.types))
    (writeTables builder TrieNodeArena.new) := by
  have h24 : infoHeaderSize = 24 := rfl
  unfold writeTables
  refine Takes.bind (allocateData_takes _ infoHeaderSize) fun header a1 h1 hs1 hb1 => ?_
  obtain ⟨rfl, rfl, -⟩ := allocateData_eq_ok h1
  have hset : ∀ m (size : ℕ), 24 ≤ size → ∀ field value,
      setField infoHeaderSize TrieNodeArena.new.size field value ⟨m, size⟩ =
        .ok () ⟨writeU32 m (TrieNodeArena.new.size + field) value, size⟩ :=
    fun m size hsize => setField_run (by rw [h24]; exact (Nat.zero_add 24).trans_le hsize) rfl
  rw [bind_ok (hset _ _ (by decide) _ _), bind_ok (hset _ _ (by decide) _ _), bind_ok (get_run _),
    bind_ok (hset _ _ (by decide) _ _)]
  -- the contexts, right behind the header
  refine Takes.congr (Takes.bind (serializeStrings_takes (by rfl) builder.contexts)
    fun _ a2 h2 hs2 hb2 => ?_) rfl
  have happ2 := (serializeStrings_eq_ok (by rfl) h2).1
  rw [bind_ok (get_run _), bind_ok (hset _ _ happ2.le _ _)]
  -- the types behind them
  refine Takes.congr (Takes.bind_free (serializeStrings_takes (by exact happ2.aligned) builder.types)
    fun _ a3 h3 hs3 hb3 => ?_) rfl
  have happ3 := (serializeStrings_eq_ok (by exact happ2.aligned) h3).1
  rw [bind_ok (get_run _), bind_ok (hset _ _ (happ2.le.trans happ3.le) _ _)]
  exact .ok hb3 rfl

/-- **The serializer** fails only for space. -/
theorem serialize_takes {builder : TrieBuilder} (hc : TableOk builder.contexts)
    (ht : TableOk builder.types)
    (hs : Storable builder.contexts builder.types (maxTrieDepth + 1) builder.root) :
    Takes TrieNodeArena.new (imageSize builder) (serialize builder TrieNodeArena.new) := by
  rw [serialize_eq, imageSize, Nat.add_assoc 24]
  refine (writeTables_takes builder).bind fun header a1 h1 hs1 hb1 => ?_
  obtain ⟨rfl, hr⟩ := writeTables_eq_ok hc ht h1
  refine (writeTrieNode_takes hs hr).bind_free fun root a2 h2 hs2 hb2 => ?_
  have hle : 0 + infoHeaderSize ≤ a2.size := by
    have := hr.header
    omega
  have hset : ∀ m field value, setField infoHeaderSize 0 field value ⟨m, a2.size⟩ =
      .ok () ⟨writeU32 m (0 + field) value, a2.size⟩ := fun _ => setField_run hle rfl
  rw [bind_ok (setField_run hle rfl _ _), bind_ok (get_run _), hset]
  exact .ok hb2 rfl

/-! ### Built tries are storable -/

section Built

variable {rules : List PropertyInfoEntry} {defaultContext defaultType : Bytes}
  {builder : TrieBuilder}

theorem get?_snoc (path : List Bytes) (seg : Bytes) (root : TrieBuilderNode) :
    get? (path ++ [seg]) root = (get? path root).bind fun node => child node seg := by
  induction path generalizing root with
  | nil =>
    have hnil : ∀ o : Option TrieBuilderNode, o.bind (get? []) = o := fun o => by cases o <;> rfl
    exact hnil _
  | cons p path ih =>
    rw [List.cons_append, get?, get?, Option.bind_assoc]
    congr 1
    funext c
    exact ih c

/-- Only paths of accepted rules are nodes, so the trie is not deep. -/
theorem Built.length_le (hb : Built rules defaultContext defaultType builder)
    (hchk : ∀ r ∈ rules, RuleChecked r) {path : List Bytes} {node : TrieBuilderNode}
    (hn : get? path builder.root = some node) : path.length ≤ 256 := by
  rcases (hb.node hn).1 with rfl | ⟨r, hr, hpre⟩
  · simp
  · have hlen : r.parts.length ≤ 256 := (hchk r hr).length
    have hle := hpre.length_le
    rw [PropertyInfoEntry.levelPath] at hle
    split_ifs at hle
    · omega
    · rw [List.length_dropLast] at hle
      omega

/-- The entries of a node are in the tables. -/
theorem interned_levelOf (hadd : addRules rules (TrieBuilder.new defaultContext defaultType) =
      .ok builder) (path : List Bytes) :
    Interned builder.contexts builder.types (levelOf rules defaultContext defaultType path).entry ∧
    (∀ e ∈ (levelOf rules defaultContext defaultType path).prefixes,
      Interned builder.contexts builder.types e) ∧
    ∀ e ∈ (levelOf rules defaultContext defaultType path).exactMatches,
      Interned builder.contexts builder.types e := by
  obtain ⟨hc, ht⟩ := mem_tables_addRules hadd
  have hrule : ∀ r ∈ rules, r.context.bytes ∈ builder.contexts ∧ r.typeStr.bytes ∈ builder.types :=
    fun r hr => ⟨(hc _).mpr (.inr ⟨r, hr, rfl⟩), (ht _).mpr (.inr ⟨r, hr, rfl⟩)⟩
  have hentries : ∀ kind, ∀ e ∈ (rulesAt rules kind path).map PropertyInfoEntry.entry,
      Interned builder.contexts builder.types e := by
    intro kind e he
    obtain ⟨r, hr, rfl⟩ := List.mem_map.mp he
    have hmem := hrule r (mem_rulesAt.mp hr).1
    exact ⟨fun s hs => Option.some.inj hs ▸ hmem.1, fun s hs => Option.some.inj hs ▸ hmem.2⟩
  refine ⟨⟨fun s hs => ?_, fun s hs => ?_⟩, hentries .plain, hentries .exactMatch⟩
  · simp only [levelOf, levelEntry] at hs
    split_ifs at hs with hp
    · exact (hc s).mpr (.inl (by simpa [TrieBuilder.new] using hs.symm))
    · obtain ⟨r, hr, rfl⟩ := Option.map_eq_some_iff.mp hs
      exact (hrule r (dotRule_eq_some hr).1).1
  · simp only [levelOf, levelEntry] at hs
    split_ifs at hs with hp
    · exact (ht s).mpr (.inl (by simpa [TrieBuilder.new] using hs.symm))
    · obtain ⟨r, hr, rfl⟩ := Option.map_eq_some_iff.mp hs
      exact (hrule r (dotRule_eq_some hr).1).2

/-- **A built trie** can be written. -/
theorem storable_of_built (hb : Built rules defaultContext defaultType builder)
    (hchk : ∀ r ∈ rules, RuleChecked r)
    (hadd : addRules rules (TrieBuilder.new defaultContext defaultType) = .ok builder) :
    Storable builder.contexts builder.types (maxTrieDepth + 1) builder.root := by
  have hnode : ∀ levels path node, get? path builder.root = some node →
      257 ≤ levels + path.length → Storable builder.contexts builder.types levels node := by
    intro levels
    induction levels with
    | zero =>
      intro path node hn hlen
      have := hb.length_le hchk hn
      omega
    | succ levels ih =>
      intro path node hn hlen
      obtain ⟨he, hp, hx⟩ := interned_levelOf hadd path
      rw [← (hb.node hn).2] at he hp hx
      refine ⟨he, hp, hx, fun c hc => ih (path ++ [c.key]) c ?_ ?_⟩
      · rw [get?_snoc, hn, Option.bind_some]
        exact child_of_mem (hb.keys path node hn).2 hc
      · rw [List.length_append, List.length_singleton]
        omega
  exact hnode _ [] _ rfl (by decide)

end Built

/-! ### Which rule lists are built -/

/-- The errors that would mean a broken invariant of the serializer: a string missing from its own tables
or without a usable index, a trie that is too deep, an access outside the allocated extent or off the
alignment. -/
def IsInternal (e : Error) : Prop :=
  (∃ s : String, e = .fileValidation
    s!"'{s}' missing from the serialized string table (serializer invariant violation)") ∨
  (∃ i : ℕ, e = .fileValidation
    s!"String table index {i} does not fit below the u32::MAX sentinel") ∨
  e = .fileValidation s!"Trie deeper than {maxTrieDepth} levels — refusing to serialize" ∨
  (∃ offset size used : ℕ, e = .fileValidation
    s!"Object access out of bounds: offset={offset}, size={size}, allocated={used}") ∨
  (∃ offset : ℕ, e = .fileValidation s!"Object at offset {offset} is not properly aligned") ∨
  (∃ offset length stop used : ℕ, e = .fileValidation
    s!"Array access out of bounds: offset={offset}, len={length}, byte_end={stop}, allocated={used}") ∨
  (∃ offset length : ℕ, e = .fileValidation
    s!"Array end overflow: offset={offset}, len={length}") ∨
  ∃ offset : ℕ, e = .fileValidation s!"Array at offset {offset} is not properly aligned for u32"

section Messages

/-- The error is a validation error whose text starts so. -/
def Starts (e : Error) (start : List Char) : Prop :=
  ∃ msg : String, e = .fileValidation msg ∧ start <+: msg.toList

theorem prefix_append {start : List Char} {s : String} (h : start <+: s.toList) (t : String) :
    start <+: (s ++ t).toList := by
  rw [String.toList_append]
  exact h.trans (List.prefix_append _ _)

/-- How the errors about the input start. -/
def inputStarts : List (List Char) :=
  ["Exact".toList, "Prefix".toList, "Duplicate".toList, "Serialized".toList, "Array len".toList]

/-- How the internal errors start. -/
def internalStarts : List (List Char) :=
  ["'".toList, "String".toList, "Trie".toList, "Object".toList, "Array access".toList,
    "Array end".toList, "Array at".toList]

theorem starts_of_input {e : Error} (h : IsDuplicate e ∨ IsSpace e) :
    ∃ start ∈ inputStarts, Starts e start := by
  rcases h with ⟨name, rfl | rfl | rfl⟩ | ⟨used, size, rfl⟩ | ⟨length, rfl⟩
  · exact ⟨"Exact".toList, by decide, _, rfl,
      prefix_append (prefix_append (by decide) _) _⟩
  · exact ⟨"Prefix".toList, by decide, _, rfl,
      prefix_append (prefix_append (by decide) _) _⟩
  · exact ⟨"Duplicate".toList, by decide, _, rfl,
      prefix_append (prefix_append (by decide) _) _⟩
  · exact ⟨"Serialized".toList, by decide, _, rfl,
      prefix_append (prefix_append (prefix_append (prefix_append (by decide) _) _) _) _⟩
  · exact ⟨"Array len".toList, by decide, _, rfl, prefix_append (by decide) _⟩

theorem starts_of_internal {e : Error} (h : IsInternal e) :
    ∃ start ∈ internalStarts, Starts e start := by
  rcases h with ⟨s, rfl⟩ | ⟨i, rfl⟩ | rfl | ⟨o, z, u, rfl⟩ | ⟨o, rfl⟩ | ⟨o, l, t, u, rfl⟩ |
    ⟨o, l, rfl⟩ | ⟨o, rfl⟩
  · exact ⟨"'".toList, by decide, _, rfl, prefix_append (prefix_append (by decide) _) _⟩
  · exact ⟨"String".toList, by decide, _, rfl, prefix_append (prefix_append (by decide) _) _⟩
  · exact ⟨"Trie".toList, by decide, _, rfl, prefix_append (prefix_append (by decide) _) _⟩
  · exact ⟨"Object".toList, by decide, _, rfl, prefix_append (prefix_append (prefix_append
      (prefix_append (prefix_append (by decide) _) _) _) _) _⟩
  · exact ⟨"Object".toList, by decide, _, rfl, prefix_append (prefix_append (by decide) _) _⟩
  · exact ⟨"Array access".toList, by decide, _, rfl, prefix_append (prefix_append (prefix_append
      (prefix_append (prefix_append (prefix_append (prefix_append (by decide) _) _) _) _) _) _) _⟩
  · exact ⟨"Array end".toList, by decide, _, rfl,
      prefix_append (prefix_append (prefix_append (by decide) _) _) _⟩
  · exact ⟨"Array at".toList, by decide, _, rfl, prefix_append (prefix_append (by decide) _) _⟩

/-- The errors about the input are none of the internal ones. -/
theorem not_isInternal {e : Error}
    (h : Error.isRuleCheck e = true ∨ IsDuplicate e ∨ IsSpace e) : ¬ IsInternal e := by
  intro hi
  obtain ⟨start', hmem', msg', rfl, hpre'⟩ := starts_of_internal hi
  rcases h with h | h
  · cases h
  obtain ⟨start, hmem, msg, hmsg, hpre⟩ := starts_of_input h
  obtain rfl : msg' = msg := Error.fileValidation.inj hmsg
  have hapart : ∀ s ∈ inputStarts, ∀ t ∈ internalStarts, ¬ s <+: t ∧ ¬ t <+: s := by decide
  obtain ⟨h1, h2⟩ := hapart start hmem start' hmem'
  exact (List.prefix_or_prefix_of_prefix hpre hpre').elim h1 h2

end Messages

/-- The outcomes of `build_trie`. -/
theorem buildTrie_cases (rules : List PropertyInfoEntry) (defaultContext defaultType : Str) :
    (0 ∉ defaultContext.bytes ∧ 0 ∉ defaultType.bytes ∧ RulesOk rules ∧ ∃ builder bytes,
      addRules rules (TrieBuilder.new defaultContext.bytes defaultType.bytes) = .ok builder ∧
      imageSize builder < 2 ^ 32 ∧ bytes.length = imageSize builder ∧
      buildTrie rules defaultContext defaultType = .ok bytes) ∨
    (∃ e, (Error.isRuleCheck e = true ∨ IsDuplicate e ∨ IsSpace e) ∧
      buildTrie rules defaultContext defaultType = .error e ∧
      ¬ (0 ∉ defaultContext.bytes ∧ 0 ∉ defaultType.bytes ∧ RulesOk rules ∧ ∀ builder,
        addRules rules (TrieBuilder.new defaultContext.bytes defaultType.bytes) = .ok builder →
        imageSize builder < 2 ^ 32)) := by
  have hnul : ∀ kind s, 0 ∈ s → ∃ e : Error, Error.isRuleCheck e = true ∧
      validateNoInteriorNul kind s = .error e := fun kind s hs =>
    ⟨_, rfl, if_pos (List.contains_iff_mem.mpr hs)⟩
  unfold buildTrie
  by_cases hc : 0 ∈ defaultContext.bytes
  · obtain ⟨e, he, hr⟩ := hnul "default context" _ hc
    exact .inr ⟨e, .inl he, except_bind_error hr, fun h => h.1 hc⟩
  rw [except_bind_ok (validateNoInteriorNul_eq_ok.mpr hc)]
  by_cases ht : 0 ∈ defaultType.bytes
  · obtain ⟨e, he, hr⟩ := hnul "default type" _ ht
    exact .inr ⟨e, .inl he, except_bind_error hr, fun h => h.2.1 ht⟩
  rw [except_bind_ok (validateNoInteriorNul_eq_ok.mpr ht)]
  have hnew := built_new ⟨hc, defaultContext.valid⟩ ⟨ht, defaultType.valid⟩
  rcases addRules_cases hnew rules with ⟨hchk, hnd, builder, hadd⟩ | ⟨hbad, e, he, hadd⟩
  · have hok : RulesOk rules := rulesOk_iff.mpr ⟨hchk, hnd⟩
    have hb := built_addRules hnew hadd
    have htakes := serialize_takes hb.contexts hb.types (storable_of_built hb hchk hadd)
    rw [except_bind_ok hadd]
    cases hser : serialize builder TrieNodeArena.new with
    | ok u arena =>
      rw [hser] at htakes
      cases htakes with
      | ok hfit hsize =>
        have h0 : TrieNodeArena.new.size = 0 := rfl
        refine .inl ⟨hc, ht, hok, builder, _, hadd, by omega, ?_, rfl⟩
        rw [TrieNodeArena.intoData, length_slice, hsize, h0, Nat.zero_add]
    | error e arena =>
      rw [hser] at htakes
      cases htakes with
      | full hfull he =>
        have h0 : TrieNodeArena.new.size = 0 := rfl
        refine .inr ⟨e, .inr (.inr he), rfl, fun h => ?_⟩
        have := h.2.2.2 builder hadd
        omega
  · rw [except_bind_error hadd]
    refine .inr ⟨e, he.imp id .inl, rfl, fun h => hbad ?_⟩
    exact rulesOk_iff.mp h.2.2.1

/-- **`build_trie` rejects exactly the bad rule lists.** It succeeds when the defaults are free of
NULs, the rules are without a fault and the image is at most `2 ^ 32 - 1` bytes; the image it returns has the
size summed up over the trie; and no error it returns is an internal one. -/
theorem buildTrie_isOk_iff (rules : List PropertyInfoEntry) (defaultContext defaultType : Str) :
    ((∃ bytes, buildTrie rules defaultContext defaultType = .ok bytes) ↔
      0 ∉ defaultContext.bytes ∧ 0 ∉ defaultType.bytes ∧ RulesOk rules ∧ ∀ builder,
        addRules rules (TrieBuilder.new defaultContext.bytes defaultType.bytes) = .ok builder →
        imageSize builder ≤ 2 ^ 32 - 1) ∧
    (∀ bytes, buildTrie rules defaultContext defaultType = .ok bytes → ∃ builder,
      addRules rules (TrieBuilder.new defaultContext.bytes defaultType.bytes) = .ok builder ∧
      bytes.length = imageSize builder) ∧
    ∀ e, buildTrie rules defaultContext defaultType = .error e → ¬ IsInternal e := by
  have hle : ∀ n : ℕ, n ≤ 2 ^ 32 - 1 ↔ n < 2 ^ 32 := fun n => by omega
  simp only [hle]
  rcases buildTrie_cases rules defaultContext defaultType with
    ⟨hc, ht, hok, builder, bytes, hadd, hsize, hlen, hr⟩ | ⟨e, he, hr, hbad⟩
  · rw [hr]
    refine ⟨⟨fun _ => ⟨hc, ht, hok, fun b hb => ?_⟩, fun _ => ⟨bytes, rfl⟩⟩, fun b hb => ?_,
      fun e he => by cases he⟩
    · rw [hadd] at hb
      cases hb
      exact hsize
    · cases hb
      exact ⟨builder, hadd, hlen⟩
  · rw [hr]
    refine ⟨⟨fun ⟨bytes, hb⟩ => (by cases hb), fun h => absurd h hbad⟩, fun b hb => (by cases hb),
      fun e' he' => ?_⟩
    cases he'
    exact not_isInternal he

end RsProperties.InfoTrie
