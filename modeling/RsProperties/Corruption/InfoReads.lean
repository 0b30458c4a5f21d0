import RsProperties.Library.Guarded
import RsProperties.InfoTrie.Parser

/-!
# Reading a damaged property-info image

The lookups of the property-info parser once more, with every load, index and sum that could stop the process.
All offsets, counts and lengths come from the image and may be anything. The functions here follow the source
statement by statement; each is shown to run like its counterpart in `PropertyInfoArea`, where only values
and warnings are left, so no image makes a lookup crash.

The walk of `get_property_info_indexes` counts the nodes it visits: one for each segment of the name, however
the child offsets are linked.
-/

namespace RsProperties.InfoReads

open ByteMem Guarded

/-- Programs over an image: they log warnings, and visit nodes by their offsets. -/
abbrev Info := Prog Warning ℕ

abbrev InfoE := ExceptT Error Info

def warn (msg : String) (cause : Option Error) : Info Unit := write ⟨msg, cause⟩

section Functions

variable (area : PropertyInfoArea)

/-! ### Checked access -/

def cstr (offset : ℕ) : InfoE Bytes :=
  if area.size < offset then
    throw (.fileValidation s!"string offset {offset} out of bounds ({area.size} bytes)")
  else do
    match ← (scanNul area.data area.size offset (area.size - offset) : Info (Option Bytes)) with
    | none => throw (.fileValidation s!"no NUL terminator after offset {offset}")
    | some s => return s

def u32SliceFrom (offset len : ℕ) : InfoE (List ℕ) :=
  if usizeMax < len * 4 then
    throw (.fileValidation s!"u32 array length overflow: {len} at offset {offset}")
  else if usizeMax < offset + len * 4 then
    throw (.fileValidation s!"u32 array end overflow: {offset} + {len * 4}")
  else if area.size < offset + len * 4 then
    throw (.fileValidation
      s!"u32 array out of bounds: {offset}..{offset + len * 4} > {area.size}")
  else if offset % 4 ≠ 0 then
    throw (.fileValidation s!"u32 array at offset {offset} is not 4-byte aligned")
  else (loadWords area.data area.size offset len : Info (List ℕ))

/-- `header`, with its `expect`. -/
def header : Info ℕ := expect (area.refFrom infoHeaderSize 0)

def contextsOffset : Info ℕ := do
  let a ← header area
  load32 area.data area.size (a + 12)

def rootOffset : Info ℕ := do
  let a ← header area
  load32 area.data area.size (a + 20)

def tableCount (tableOffset : ℕ) : Info ℕ := do
  match ← (u32SliceFrom area tableOffset 1).run with
  | .ok s => return s.head?.getD 0
  | .error e => do
    warn s!"table count read failed at offset {tableOffset}" (some e)
    return 0

def numContexts : Info ℕ := do
  let tableOffset ← contextsOffset area
  tableCount area tableOffset

/-- The body `context_offset` shares with `type_offset`. -/
def stringOffset (kind field : String) (tableOffset count : Info ℕ) (index : ℕ) : InfoE ℕ := do
  let tableOffset ← (tableOffset : Info ℕ)
  let arrayOffset ← if usizeMax < tableOffset + 4 then
      throw (.fileValidation s!"{field} overflow: {tableOffset}")
    else pure (tableOffset + 4)
  let n ← (count : Info ℕ)
  let slice ← u32SliceFrom area arrayOffset n
  match slice[index]? with
  | none => throw (.fileValidation
      s!"{kind} index {index} out of bounds: array length {slice.length} at offset {arrayOffset}")
  | some value => return value

def contextOffset (index : ℕ) : InfoE ℕ :=
  stringOffset area "Context" "contexts_offset" (contextsOffset area) (numContexts area) index

/-! ### Trie nodes -/

/-- The fields of a node behind its checked reference. -/
def loadNode (a : ℕ) : Info TrieNodeData := do
  let propertyEntry ← load32 area.data area.size a
  let numChildNodes ← load32 area.data area.size (a + 4)
  let childNodes ← load32 area.data area.size (a + 8)
  let numPrefixes ← load32 area.data area.size (a + 12)
  let prefixEntries ← load32 area.data area.size (a + 16)
  let numExactMatches ← load32 area.data area.size (a + 20)
  let exactMatchEntries ← load32 area.data area.size (a + 24)
  return ⟨propertyEntry, numChildNodes, childNodes, numPrefixes, prefixEntries, numExactMatches,
    exactMatchEntries⟩

/-- The fields of an entry behind its checked reference. -/
def loadEntry (a : ℕ) : Info PropertyEntry := do
  let nameOffset ← load32 area.data area.size a
  let namelen ← load32 area.data area.size (a + 4)
  let contextIndex ← load32 area.data area.size (a + 8)
  let typeIndex ← load32 area.data area.size (a + 12)
  return ⟨nameOffset, namelen, contextIndex, typeIndex⟩

def nodeData (node : ℕ) : InfoE TrieNodeData := do
  let a ← check (area.refFrom trieNodeDataSize node)
  (loadNode area a : Info TrieNodeData)

def entryAt (offset : ℕ) : InfoE PropertyEntry := do
  let a ← check (area.refFrom propertyEntrySize offset)
  (loadEntry area a : Info PropertyEntry)

def nodePropertyEntry (node : ℕ) : InfoE PropertyEntry := do
  let data ← nodeData area node
  entryAt area data.propertyEntry

def nodeName (node : ℕ) : InfoE Bytes := do
  let entry ← nodePropertyEntry area node
  cstr area entry.nameOffset

def contextAndTypeIndexes (node : ℕ) : Info (ℕ × ℕ) := do
  match ← (nodePropertyEntry area node).run with
  | .ok pe => return (pe.contextIndex, pe.typeIndex)
  | .error e => do
    warn "Failed to read PropertyEntry" (some e)
    return (noIndex, noIndex)

def childOffsets (node : ℕ) : InfoE (List ℕ) := do
  let data ← nodeData area node
  u32SliceFrom area data.childNodes data.numChildNodes

def prefixOffsets (node : ℕ) : InfoE (List ℕ) := do
  let data ← nodeData area node
  u32SliceFrom area data.prefixEntries data.numPrefixes

def exactMatchOffsets (node : ℕ) : InfoE (List ℕ) := do
  let data ← nodeData area node
  u32SliceFrom area data.exactMatchEntries data.numExactMatches

/-- The loop of `find`, with its sums. -/
def findLoop (f : ℕ → StateT Bool Info Ordering) : ℕ → ℕ → ℕ → StateT Bool Info (Option ℕ)
  | 0, lo, hi => if lo < hi then (crash .diverged : Info _) else return none
  | fuel + 1, lo, hi =>
    if lo < hi then do
      let d ← (subWord hi lo : Info ℕ)
      let mid ← (addWord usizeMax lo (d / 2) : Info ℕ)
      match ← f mid with
      | .eq => return some mid
      | .lt => do
        let lo ← (addWord usizeMax mid 1 : Info ℕ)
        findLoop f fuel lo hi
      | .gt => findLoop f fuel lo mid
    else return none

def flagCorrupted (msg : String) (cause : Option Error) : StateT Bool Info Ordering := do
  (warn msg cause : Info Unit)
  set true
  return .eq

def childProbe (offsets : List ℕ) (input : Bytes) (i : ℕ) : StateT Bool Info Ordering := do
  let offset ← (index offsets i : Info ℕ)
  match ← ((nodeName area offset).run : Info (Except Error Bytes)) with
  | .error e => flagCorrupted s!"child node {i} name read failed" (some e)
  | .ok name =>
    match fromUtf8 name with
    | none => flagCorrupted s!"child node {i} has non-UTF-8 name" (some .utf8)
    | some s =>
      if s.bytes = [] then
        flagCorrupted s!"child node {i} has empty (corruption-fallback) name" none
      else return compare s.bytes input

def findChildForString (node : ℕ) (input : Bytes) : Info (Option ℕ) := do
  match ← (childOffsets area node).run with
  | .error e => do
    warn "Failed to read child node offsets" (some e)
    return none
  | .ok offsets => do
    let (nodeIndex, corrupted) ←
      (findLoop (childProbe area offsets input) offsets.length 0 offsets.length).run false
    if corrupted then return none
    else
      match nodeIndex with
      | none => return none
      | some i => do
        let offset ← index offsets i
        return some offset

/-! ### The lookup -/

def entryNameStr (name : Except Error Bytes) (kind : String) (idx : ℕ) : Info (Option Bytes) :=
  match name with
  | .error e => do
    warn s!"{kind} entry {idx} name read failed" (some e)
    return none
  | .ok name =>
    match fromUtf8 name with
    | some s =>
      if s.bytes ≠ [] then return some s.bytes
      else do
        warn s!"{kind} entry {idx} has an empty name" none
        return none
    | none => do
      warn s!"{kind} entry {idx} has non-UTF-8 name" (some .utf8)
      return none

def checkPrefixLoop (remainingName : Bytes) : ℕ → List ℕ → Indexes → Info Indexes
  | _, [], ix => return ix
  | i, offset :: offsets, ix => do
    match ← (entryAt area offset).run with
    | .error e => do
      warn s!"Failed to read prefix entry {i}" (some e)
      checkPrefixLoop remainingName (i + 1) offsets ix
    | .ok entry =>
      if remainingName.length < entry.namelen then
        checkPrefixLoop remainingName (i + 1) offsets ix
      else do
        let name ← (cstr area entry.nameOffset).run
        match ← entryNameStr name "Prefix" i with
        | none => checkPrefixLoop remainingName (i + 1) offsets ix
        | some name =>
          if name.isPrefixOf remainingName then
            return ix.override entry.contextIndex entry.typeIndex
          else checkPrefixLoop remainingName (i + 1) offsets ix

def checkPrefixMatch (remainingName : Bytes) (node : ℕ) (ix : Indexes) : Info Indexes := do
  match ← (prefixOffsets area node).run with
  | .error e => do
    warn "Failed to read prefix entries" (some e)
    return ix
  | .ok offsets => checkPrefixLoop area remainingName 0 offsets ix

def exactMatchLoop (remainingName : Bytes) : ℕ → List ℕ → Info (Option PropertyEntry)
  | _, [] => return none
  | i, offset :: offsets => do
    match ← (entryAt area offset).run with
    | .error e => do
      warn s!"Failed to read exact_match entry {i}" (some e)
      exactMatchLoop remainingName (i + 1) offsets
    | .ok entry => do
      let name ← (cstr area entry.nameOffset).run
      match ← entryNameStr name "Exact match" i with
      | none => exactMatchLoop remainingName (i + 1) offsets
      | some name =>
        if name = remainingName then return some entry
        else exactMatchLoop remainingName (i + 1) offsets

/-- The loop of `get_property_info_indexes`, with the number of iterations left. -/
def walk : ℕ → Bytes → ℕ → Indexes → Info (ℕ × Bytes × Indexes)
  | 0, _, _, _ => crash .diverged
  | fuel + 1, remainingName, node, ix => do
    visit node
    let (contextIndex, typeIndex) ← contextAndTypeIndexes area node
    let ix := ix.override contextIndex typeIndex
    let ix ← checkPrefixMatch area remainingName node ix
    match remainingName.findIdx? (· = dot) with
    | some i => do
      let segment ← strSliceTo remainingName i
      match ← findChildForString area node segment with
      | some child => do
        let j ← addWord usizeMax i 1
        let rest ← strSliceFrom remainingName j
        walk fuel rest child ix
      | none => return (node, remainingName, ix)
    | none => return (node, remainingName, ix)

/-- Every iteration but the last takes a dot, so the name's length bounds their number. -/
def getPropertyInfoIndexes (name : Bytes) : Info Indexes := do
  let root ← rootOffset area
  let (node, remainingName, ix) ← walk area (name.length + 1) name root ⟨noIndex, noIndex⟩
  let exactOffsets ← do
    match ← (exactMatchOffsets area node).run with
    | .ok offsets => pure offsets
    | .error e => do
      warn "Failed to read exact_match entries" (some e)
      pure []
  match ← exactMatchLoop area remainingName 0 exactOffsets with
  | some exactMatch => return ix.override exactMatch.contextIndex exactMatch.typeIndex
  | none => checkPrefixMatch area remainingName node ix

end Functions

/-! ### No image stops a lookup -/

section Runs

variable {area : PropertyInfoArea}

theorem runs_warn (msg : String) (cause : Option Error) :
    Runs (warn msg cause) (RsProperties.warn msg cause) 0 := runs_write _

/-- A warning in front of what both sides do. -/
theorem runs_warn_seq {α : Type} {msg : String} {cause : Option Error} {f : Info α} {g : Logged α}
    {n : ℕ} (h : Runs f g n) :
    Runs (warn msg cause >>= fun _ => f) (RsProperties.warn msg cause >>= fun _ => g) n :=
  (runs_warn msg cause).step fun _ => h

theorem yields_cstr (offset : ℕ) : Yields (cstr area offset) (area.cstr offset) 0 := by
  rw [cstr, PropertyInfoArea.cstr]
  split_ifs with h
  · exact yields_throw _
  · refine (runs_scanNul (by omega)).yields_seq ?_
    cases ByteMem.cstr area.data offset (area.size - offset) with
    | none => exact yields_throw _
    | some s => exact yields_pure s

theorem yields_u32SliceFrom (offset len : ℕ) :
    Yields (u32SliceFrom area offset len) (area.u32SliceFrom offset len) 0 := by
  rw [u32SliceFrom, PropertyInfoArea.u32SliceFrom]
  split_ifs
  · exact yields_throw _
  · exact yields_throw _
  · exact yields_throw _
  · exact yields_throw _
  · exact (runs_loadWords (by omega)).yields

/-- The object behind a checked reference lies in the image. -/
theorem refFrom_le {size offset a : ℕ} (h : area.refFrom size offset = .ok a) : a + size ≤ area.size := by
  rw [PropertyInfoArea.refFrom] at h
  split_ifs at h with _ hsize
  rw [← Except.ok.inj h]
  omega

/-- The header is in every image, at its aligned base. -/
theorem runs_header : Runs (header area) (pure 0) 0 := by
  have hle := area.header_le
  refine runs_expect ?_
  rw [PropertyInfoArea.refFrom, if_neg (by rw [usizeMax, infoHeaderSize]; omega), if_neg (by omega)]
  rfl

theorem runs_contextsOffset : Runs (contextsOffset area) (pure area.contextsOffset) 0 := by
  have hle := area.header_le
  rw [infoHeaderSize] at hle
  exact runs_header.seq (runs_load32 (by omega))

theorem runs_rootOffset : Runs (rootOffset area) (pure area.rootOffset) 0 := by
  have hle := area.header_le
  rw [infoHeaderSize] at hle
  exact runs_header.seq (runs_load32 (by omega))

theorem runs_tableCount (tableOffset : ℕ) :
    Runs (tableCount area tableOffset) (area.tableCount tableOffset) 0 := by
  refine (yields_u32SliceFrom tableOffset 1).handle ?_
  rw [PropertyInfoArea.tableCount]
  cases area.u32SliceFrom tableOffset 1 with
  | ok s => exact runs_pure _
  | error e => exact runs_warn_seq (runs_pure 0)

theorem runs_numContexts : Runs (numContexts area) area.numContexts 0 :=
  runs_contextsOffset.seq (runs_tableCount _)

/-- **`context_offset`** runs on every image. -/
theorem runs_contextOffset (index : ℕ) :
    Runs (contextOffset area index).run (area.contextOffset index).run 0 := by
  have hword := readU32_lt area.data 12
  have hno : ¬ usizeMax < area.contextsOffset + 4 := by
    rw [usizeMax, PropertyInfoArea.contextsOffset]
    omega
  rw [contextOffset, stringOffset, PropertyInfoArea.contextOffset, PropertyInfoArea.stringOffset]
  refine runs_contextsOffset.lift_seq ?_
  simp only [if_neg hno, pure_bind]
  refine Runs.bind_except (m := 0) (n := 0) (runs_numContexts.step fun n => runs_pure _)
    fun n => (yields_u32SliceFrom _ n).handle ?_
  cases area.u32SliceFrom (area.contextsOffset + 4) n with
  | error e => exact runs_pure _
  | ok slice =>
    simp only [ExceptT.bindCont]
    cases slice[index]? with
    | none => exact runs_pure _
    | some value => exact runs_pure _

/-! Trie nodes. -/

theorem runs_loadNode {a : ℕ} (h : a + trieNodeDataSize ≤ area.size) :
    Runs (loadNode area a) (pure (TrieNodeData.read area.data a)) 0 := by
  rw [trieNodeDataSize] at h
  exact (runs_load32 (by omega)).seq ((runs_load32 (by omega)).seq ((runs_load32 (by omega)).seq
    ((runs_load32 (by omega)).seq ((runs_load32 (by omega)).seq ((runs_load32 (by omega)).seq
      ((runs_load32 (by omega)).seq (runs_pure _)))))))

theorem runs_loadEntry {a : ℕ} (h : a + propertyEntrySize ≤ area.size) :
    Runs (loadEntry area a) (pure (PropertyEntry.read area.data a)) 0 := by
  rw [propertyEntrySize] at h
  exact (runs_load32 (by omega)).seq ((runs_load32 (by omega)).seq ((runs_load32 (by omega)).seq
    ((runs_load32 (by omega)).seq (runs_pure _))))

theorem yields_nodeData (node : ℕ) : Yields (nodeData area node) (area.nodeData node) 0 :=
  (yields_check _).seq fun _ ha => (runs_loadNode (refFrom_le ha)).yields

theorem yields_entryAt (offset : ℕ) : Yields (entryAt area offset) (area.entryAt offset) 0 :=
  (yields_check _).seq fun _ ha => (runs_loadEntry (refFrom_le ha)).yields

theorem yields_nodePropertyEntry (node : ℕ) :
    Yields (nodePropertyEntry area node) (area.nodePropertyEntry node) 0 :=
  (yields_nodeData node).seq fun _ _ => yields_entryAt _

theorem yields_nodeName (node : ℕ) : Yields (nodeName area node) (area.nodeName node) 0 :=
  (yields_nodePropertyEntry node).seq fun _ _ => yields_cstr _

theorem runs_contextAndTypeIndexes (node : ℕ) :
    Runs (contextAndTypeIndexes area node) (area.contextAndTypeIndexes node) 0 := by
  refine (yields_nodePropertyEntry node).handle ?_
  rw [PropertyInfoArea.contextAndTypeIndexes]
  cases area.nodePropertyEntry node with
  | ok pe => exact runs_pure _
  | error e => exact runs_warn_seq (runs_pure _)

theorem yields_childOffsets (node : ℕ) :
    Yields (childOffsets area node) (area.childOffsets node) 0 :=
  (yields_nodeData node).seq fun _ _ => yields_u32SliceFrom _ _

theorem yields_prefixOffsets (node : ℕ) :
    Yields (prefixOffsets area node) (area.prefixOffsets node) 0 :=
  (yields_nodeData node).seq fun _ _ => yields_u32SliceFrom _ _

theorem yields_exactMatchOffsets (node : ℕ) :
    Yields (exactMatchOffsets area node) (area.exactMatchOffsets node) 0 :=
  (yields_nodeData node).seq fun _ _ => yields_u32SliceFrom _ _

/-- A child array is as long as a count field of the image says. -/
theorem childOffsets_length {node : ℕ} {offsets : List ℕ} (h : area.childOffsets node = .ok offsets) :
    offsets.length < 2 ^ 32 := by
  obtain ⟨data, hdata, hslice⟩ := StateExcept.except_bind_eq_ok.mp h
  obtain ⟨a, -, hread⟩ := StateExcept.except_bind_eq_ok.mp hdata
  have hnum : data.numChildNodes < 2 ^ 32 := by
    rw [← Except.ok.inj hread]
    exact readU32_lt _ _
  rw [PropertyInfoArea.u32SliceFrom] at hslice
  split_ifs at hslice
  rw [← Except.ok.inj hslice, List.length_map, List.length_range]
  exact hnum

/-! The binary search, for a probe that runs inside the window. -/

theorem runs_findLoop {f : ℕ → StateT Bool Info Ordering} {g : ℕ → StateT Bool Logged Ordering} {len : ℕ}
    (hlen : len ≤ usizeMax) (hf : ∀ i, i < len → ∀ b, Runs ((f i).run b) ((g i).run b) 0) {fuel lo hi : ℕ}
    (hhi : hi ≤ len) (hfuel : hi ≤ lo + fuel) (b : Bool) :
    Runs ((findLoop f fuel lo hi).run b) ((BinarySearch.findLoop g fuel lo hi).run b) 0 := by
  induction fuel generalizing lo hi b with
  | zero =>
    rw [findLoop, BinarySearch.findLoop, if_neg (by omega)]
    exact runs_pure _
  | succ fuel ih =>
    rw [findLoop, BinarySearch.findLoop]
    split_ifs with hlt
    · refine (runs_subWord hlt.le).state_seq ((runs_addWord (by omega)).state_seq ?_)
      refine Runs.state_bind (m := 0) (n := 0) (hf (lo + (hi - lo) / 2) (by omega) b) fun o b' => ?_
      cases o with
      | eq => exact runs_pure _
      | lt => exact (runs_addWord (by omega)).state_seq (ih hhi (by omega) b')
      | gt => exact ih (by omega) (by omega) b'
    · exact runs_pure _

theorem runs_flagCorrupted (msg : String) (cause : Option Error) (b : Bool) :
    Runs ((flagCorrupted msg cause).run b) ((PropertyInfoArea.flagCorrupted msg cause).run b) 0 :=
  (runs_warn msg cause).step fun _ => runs_pure _

theorem runs_childProbe {offsets : List ℕ} {i : ℕ} (hi : i < offsets.length) (input : Bytes) (b : Bool) :
    Runs ((childProbe area offsets input i).run b) ((area.childProbe offsets input i).run b) 0 := by
  have hget : offsets[i]? = some (offsets.getD i 0) := by simp [hi]
  refine (runs_index hget).state_seq (Runs.state_seq (yields_nodeName _) ?_)
  rw [PropertyInfoArea.childProbe]
  cases area.nodeName (offsets.getD i 0) with
  | error e => exact runs_flagCorrupted _ _ _
  | ok name =>
    simp only
    cases fromUtf8 name with
    | none => exact runs_flagCorrupted _ _ _
    | some s =>
      simp only
      split_ifs
      · exact runs_flagCorrupted _ _ _
      · exact runs_pure _

/-- What a search finds lies in the window. -/
theorem findLoop_lt {f : ℕ → StateT Bool Logged Ordering} {fuel lo hi i : ℕ} {b : Bool} {log : List Warning}
    (h : (((BinarySearch.findLoop f fuel lo hi).run b).run log).1.1 = some i) : i < hi := by
  induction fuel generalizing lo hi b log with
  | zero => cases h
  | succ fuel ih =>
    rw [BinarySearch.findLoop] at h
    split_ifs at h with hlt
    · simp only [StateT.run_bind] at h
      generalize StateT.run ((f (lo + (hi - lo) / 2)).run b) log = p at h
      obtain ⟨⟨o, b'⟩, log'⟩ := p
      cases o with
      | eq =>
        have hmid : lo + (hi - lo) / 2 = i := Option.some.inj h
        omega
      | lt => exact ih h
      | gt =>
        have hi' : i < lo + (hi - lo) / 2 := ih h
        omega
    · cases h

theorem runs_findChildForString (node : ℕ) (input : Bytes) :
    Runs (findChildForString area node input) (area.findChildForString node input) 0 := by
  refine (yields_childOffsets node).handle ?_
  rw [PropertyInfoArea.findChildForString]
  cases hoff : area.childOffsets node with
  | error e => exact runs_warn_seq (runs_pure _)
  | ok offsets =>
    have hlen := childOffsets_length hoff
    have hsearch : Runs ((findLoop (childProbe area offsets input) offsets.length 0 offsets.length).run false)
        ((BinarySearch.find offsets.length (area.childProbe offsets input)).run false) 0 :=
      runs_findLoop (by rw [usizeMax]; omega) (fun i hi b => runs_childProbe hi input b) le_rfl (by omega) _
    refine hsearch.bind_of (n := 0) fun log => ?_
    have hlt := @findLoop_lt (area.childProbe offsets input) offsets.length 0 offsets.length
    rw [BinarySearch.find]
    generalize hp : (StateT.run ((BinarySearch.findLoop (area.childProbe offsets input) offsets.length 0
      offsets.length).run false) log).1 = p
    obtain ⟨nodeIndex, corrupted⟩ := p
    simp only
    split_ifs
    · exact runs_pure _
    · cases nodeIndex with
      | none => exact runs_pure _
      | some i =>
        have hi : i < offsets.length := hlt (congrArg Prod.fst hp)
        refine (runs_index (show offsets[i]? = some (offsets.getD i 0) by simp [hi])).seq (runs_pure _)

/-! The loops over entries. -/

theorem runs_entryNameStr (name : Except Error Bytes) (kind : String) (idx : ℕ) :
    Runs (entryNameStr name kind idx) (RsProperties.entryNameStr name kind idx) 0 := by
  rw [entryNameStr.eq_def, RsProperties.entryNameStr.eq_def]
  cases name with
  | error e => exact runs_warn_seq (runs_pure _)
  | ok name =>
    simp only
    cases fromUtf8 name with
    | none => exact runs_warn_seq (runs_pure _)
    | some s =>
      simp only
      split_ifs
      · exact runs_pure _
      · exact runs_warn_seq (runs_pure _)

theorem runs_checkPrefixLoop (remainingName : Bytes) (i : ℕ) (offsets : List ℕ) (ix : Indexes) :
    Runs (checkPrefixLoop area remainingName i offsets ix)
      (area.checkPrefixLoop remainingName i offsets ix) 0 := by
  induction offsets generalizing i with
  | nil => exact runs_pure _
  | cons offset offsets ih =>
    rw [checkPrefixLoop, PropertyInfoArea.checkPrefixLoop]
    refine (yields_entryAt offset).handle ?_
    cases area.entryAt offset with
    | error e => exact runs_warn_seq (ih (i + 1))
    | ok entry =>
      simp only
      split_ifs with hlen
      · exact ih (i + 1)
      · refine (yields_cstr entry.nameOffset).handle ((runs_entryNameStr _ _ _).step fun name => ?_)
        cases name with
        | none => exact ih (i + 1)
        | some name =>
          simp only
          split_ifs
          · exact runs_pure _
          · exact ih (i + 1)

theorem runs_checkPrefixMatch (remainingName : Bytes) (node : ℕ) (ix : Indexes) :
    Runs (checkPrefixMatch area remainingName node ix) (area.checkPrefixMatch remainingName node ix) 0 := by
  refine (yields_prefixOffsets node).handle ?_
  rw [PropertyInfoArea.checkPrefixMatch]
  cases area.prefixOffsets node with
  | error e => exact runs_warn_seq (runs_pure _)
  | ok offsets => exact runs_checkPrefixLoop _ _ _ _

theorem runs_exactMatchLoop (remainingName : Bytes) (i : ℕ) (offsets : List ℕ) :
    Runs (exactMatchLoop area remainingName i offsets) (area.exactMatchLoop remainingName i offsets) 0 := by
  induction offsets generalizing i with
  | nil => exact runs_pure _
  | cons offset offsets ih =>
    rw [exactMatchLoop, PropertyInfoArea.exactMatchLoop]
    refine (yields_entryAt offset).handle ?_
    cases area.entryAt offset with
    | error e => exact runs_warn_seq (ih (i + 1))
    | ok entry =>
      refine (yields_cstr entry.nameOffset).handle ((runs_entryNameStr _ _ _).step fun name => ?_)
      cases name with
      | none => exact ih (i + 1)
      | some name =>
        simp only
        split_ifs
        · exact runs_pure _
        · exact ih (i + 1)

/-- One iteration of the walk, with the name cut as the source cuts it. -/
theorem walk_eq (remainingName : Bytes) (node : ℕ) (ix : Indexes) :
    area.walk (splitDot remainingName) node ix = (do
      let (contextIndex, typeIndex) ← area.contextAndTypeIndexes node
      let ix ← area.checkPrefixMatch remainingName node (ix.override contextIndex typeIndex)
      match remainingName.findIdx? (· = dot) with
      | some i =>
        match ← area.findChildForString node (remainingName.take i) with
        | some child => area.walk (splitDot (remainingName.drop (i + 1))) child ix
        | none => return (node, remainingName, ix)
      | none => return (node, remainingName, ix)) := by
  rcases findIdx?_dot remainingName with ⟨hnone, hno⟩ | ⟨seg, rest, rfl, hseg, hidx⟩
  · rw [splitDot_of_dot_notMem hno, PropertyInfoArea.walk, hnone]
    rfl
  · have hjoin : joinDot (seg :: splitDot rest) = seg ++ dot :: rest := by
      rw [← splitDot_append_dot hseg, joinDot_splitDot]
    have hdrop : (seg ++ dot :: rest).drop (seg.length + 1) = rest := by
      simp
    rw [splitDot_append_dot hseg, PropertyInfoArea.walk, hidx, hjoin]
    refine bind_congr fun ⟨contextIndex, typeIndex⟩ => bind_congr fun ix => ?_
    dsimp only
    rw [if_neg (splitDot_ne_nil rest), List.take_left]
    refine bind_congr fun child => ?_
    cases child with
    | none => rfl
    | some child => exact congrArg (fun rest => area.walk (splitDot rest) child ix) hdrop.symm

/-- **The walk** visits a node for every segment: each step but the last takes a dot off the name. -/
theorem runs_walk {fuel : ℕ} {remainingName : Bytes} (hv : Utf8.valid remainingName = true)
    (hlen : remainingName.length ≤ usizeMax) (hfuel : remainingName.count dot < fuel) (node : ℕ)
    (ix : Indexes) :
    Runs (walk area fuel remainingName node ix) (area.walk (splitDot remainingName) node ix)
      (remainingName.count dot + 1) := by
  induction fuel generalizing remainingName node ix with
  | zero => omega
  | succ fuel ih =>
    rw [walk, walk_eq]
    refine Runs.mono ((runs_visit node).bind_pure (n := remainingName.count dot) ?_) (by omega)
    refine (runs_contextAndTypeIndexes node).step fun p => ?_
    obtain ⟨contextIndex, typeIndex⟩ := p
    refine (runs_checkPrefixMatch remainingName node _).step fun ix => ?_
    rcases findIdx?_dot remainingName with ⟨hnone, hno⟩ | ⟨seg, rest, rfl, hseg, hidx⟩
    · rw [hnone]
      exact (runs_pure _).mono (Nat.zero_le _)
    · have hascii : dot.toNat < 0x80 := by decide
      obtain ⟨-, hrest⟩ := (Utf8.valid_append_cons hascii).mp hv
      have hcount : (seg ++ dot :: rest).count dot = rest.count dot + 1 := by
        simp [List.count_eq_zero_of_not_mem hseg]
      have hsum : (seg ++ dot :: rest).length = seg.length + 1 + rest.length := by
        simp only [List.length_append, List.length_cons]
        omega
      have hdrop : (seg ++ dot :: rest).drop (seg.length + 1) = rest := by simp
      simp only [hidx, List.take_left, hdrop]
      refine (runs_strSliceTo hascii).seq ((runs_findChildForString node seg).step fun child => ?_)
      cases child with
      | none => exact (runs_pure _).mono (Nat.zero_le _)
      | some child =>
        refine (runs_addWord (by omega)).seq ((runs_strSliceFrom hrest).seq ?_)
        rw [hcount]
        exact ih hrest (by omega) (by omega) child ix

/-- **No image stops a lookup**: it visits at most one node for every segment of the name. -/
theorem runs_getPropertyInfoIndexes (name : Str) (hlen : name.bytes.length ≤ usizeMax) :
    Runs (getPropertyInfoIndexes area name.bytes) (area.getPropertyInfoIndexes name.bytes)
      (name.bytes.count dot + 1) := by
  have hfuel : name.bytes.count dot < name.bytes.length + 1 := Nat.lt_succ_of_le List.count_le_length
  refine runs_rootOffset.seq ((runs_walk name.valid hlen hfuel _ _).bind (n := 0) fun r => ?_)
  obtain ⟨node, remainingName, ix⟩ := r
  have hscan : ∀ exactOffsets, Runs (do
      match ← exactMatchLoop area remainingName 0 exactOffsets with
      | some exactMatch => return ix.override exactMatch.contextIndex exactMatch.typeIndex
      | none => checkPrefixMatch area remainingName node ix : Info Indexes) (do
      match ← area.exactMatchLoop remainingName 0 exactOffsets with
      | some exactMatch => return ix.override exactMatch.contextIndex exactMatch.typeIndex
      | none => area.checkPrefixMatch remainingName node ix) 0 := by
    intro exactOffsets
    refine (runs_exactMatchLoop _ _ _).step fun found => ?_
    cases found with
    | none => exact runs_checkPrefixMatch _ _ _
    | some exactMatch => exact runs_pure _
  simp only
  refine (yields_exactMatchOffsets node).handle ?_
  cases area.exactMatchOffsets node with
  | ok offsets => exact hscan offsets
  | error e => exact runs_warn_seq (hscan [])

end Runs

end RsProperties.InfoReads
