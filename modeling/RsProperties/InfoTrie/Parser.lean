import RsProperties.Names
import RsProperties.PropertyArea.MemoryMap
import RsProperties.Library.BinarySearch

/-!
# The property-info parser

`property_info` is a read-only image that maps a property name to the index of its context and of its
type: a header, two string tables, and a trie whose nodes carry offset arrays of prefix entries, exact
entries and children. The image is untrusted. Every access is bounds- and alignment-checked, and every
branch that meets a damaged image logs a warning and degrades; the lookups run in `Logged`, so the
warnings are part of their result.
-/

namespace RsProperties

open ByteMem

/-- The "no context / no type" sentinel. -/
def noIndex : ℕ := 2 ^ 32 - 1

/-- A line a corruption branch writes to the log. -/
structure Warning where
  msg : String
  cause : Option Error
  deriving DecidableEq, Repr

/-- Computations that log. -/
abbrev Logged := StateM (List Warning)

def warn (msg : String) (cause : Option Error) : Logged Unit := modify (· ++ [⟨msg, cause⟩])

/-- An entry of the image. -/
structure PropertyEntry where
  nameOffset : ℕ
  namelen : ℕ
  contextIndex : ℕ
  typeIndex : ℕ
  deriving DecidableEq, Repr

/-- `size_of::<PropertyEntry>()`. -/
def propertyEntrySize : ℕ := 16

def PropertyEntry.read (m : Mem) (a : ℕ) : PropertyEntry where
  nameOffset := readU32 m a
  namelen := readU32 m (a + 4)
  contextIndex := readU32 m (a + 8)
  typeIndex := readU32 m (a + 12)

/-- A trie node of the image. -/
structure TrieNodeData where
  propertyEntry : ℕ
  numChildNodes : ℕ
  childNodes : ℕ
  numPrefixes : ℕ
  prefixEntries : ℕ
  numExactMatches : ℕ
  exactMatchEntries : ℕ
  deriving DecidableEq, Repr

/-- `size_of::<TrieNodeData>()`. -/
def trieNodeDataSize : ℕ := 28

def TrieNodeData.read (m : Mem) (a : ℕ) : TrieNodeData where
  propertyEntry := readU32 m a
  numChildNodes := readU32 m (a + 4)
  childNodes := readU32 m (a + 8)
  numPrefixes := readU32 m (a + 12)
  prefixEntries := readU32 m (a + 16)
  numExactMatches := readU32 m (a + 20)
  exactMatchEntries := readU32 m (a + 24)

/-- `size_of::<PropertyInfoAreaHeader>()`. -/
def infoHeaderSize : ℕ := 24

/-- A parser view of an image. Both ways to one (a loaded file, the builder's arena) guarantee the
header, so `header()` never fails; the base is 4-aligned. -/
structure PropertyInfoArea where
  data : Mem
  size : ℕ
  header_le : infoHeaderSize ≤ size

/-- The two indexes a lookup returns. -/
structure Indexes where
  context : ℕ
  type : ℕ
  deriving DecidableEq, Repr

/-- Take over the indexes that are set. -/
def Indexes.override (ix : Indexes) (contextIndex typeIndex : ℕ) : Indexes where
  context := if contextIndex ≠ noIndex then contextIndex else ix.context
  type := if typeIndex ≠ noIndex then typeIndex else ix.type

/-- `entry_name_str`: a non-empty UTF-8 entry name, or a warning. -/
def entryNameStr (name : Except Error Bytes) (kind : String) (idx : ℕ) : Logged (Option Bytes) :=
  match name with
  | .error e => do
    warn s!"{kind} entry {idx} name read failed" (some e)
    return none
  | .ok name =>
    match fromUtf8 name with
    | some s =>
      if s.bytes ≠ [] then return some s.bytes
      else do
        warn s!"{kind} entry {idx} has an empty name" none
        return none
    | none => do
      warn s!"{kind} entry {idx} has non-UTF-8 name" (some .utf8)
      return none

namespace PropertyInfoArea

/-- `PropertyInfoArea::new` over a byte buffer; `none` is the failed assertion. -/
def new (bytes : Bytes) : Option PropertyInfoArea :=
  if h : infoHeaderSize ≤ bytes.length then
    some { data := fun i => bytes.getD i 0, size := bytes.length, header_le := h }
  else none

variable (area : PropertyInfoArea)

/-! ### Checked access -/

def cstr (offset : ℕ) : Except Error Bytes :=
  if area.size < offset then
    .error (.fileValidation s!"string offset {offset} out of bounds ({area.size} bytes)")
  else
    match ByteMem.cstr area.data offset (area.size - offset) with
    | none => .error (.fileValidation s!"no NUL terminator after offset {offset}")
    | some s => .ok s

/-- `ref_from::<T>` for a 4-aligned `T` of the given size: the address of the object. -/
def refFrom (size offset : ℕ) : Except Error ℕ :=
  if usizeMax < offset + size then
    .error (.fileValidation s!"Offset overflow: {offset} + {size}")
  else if area.size < offset + size then
    .error (.fileValidation s!"Offset out of bounds: {offset + size} > {area.size}")
  else if offset % 4 ≠ 0 then
    .error (.fileValidation s!"Reference creation failed at offset {offset}")
  else .ok offset

def u32SliceFrom (offset len : ℕ) : Except Error (List ℕ) :=
  if usizeMax < len * 4 then
    .error (.fileValidation s!"u32 array length overflow: {len} at offset {offset}")
  else if usizeMax < offset + len * 4 then
    .error (.fileValidation s!"u32 array end overflow: {offset} + {len * 4}")
  else if area.size < offset + len * 4 then
    .error (.fileValidation
      s!"u32 array out of bounds: {offset}..{offset + len * 4} > {area.size}")
  else if offset % 4 ≠ 0 then
    .error (.fileValidation s!"u32 array at offset {offset} is not 4-byte aligned")
  else .ok ((List.range len).map fun i => readU32 area.data (offset + 4 * i))

/-! ### The header and the string tables -/

def minimumSupportedVersion : ℕ := readU32 area.data 4

def headerSize : ℕ := readU32 area.data 8

def contextsOffset : ℕ := readU32 area.data 12

def typesOffset : ℕ := readU32 area.data 16

def rootOffset : ℕ := readU32 area.data 20

def tableCount (tableOffset : ℕ) : Logged ℕ :=
  match area.u32SliceFrom tableOffset 1 with
  | .ok s => return s.head?.getD 0
  | .error e => do
    warn s!"table count read failed at offset {tableOffset}" (some e)
    return 0

def numContexts : Logged ℕ := area.tableCount area.contextsOffset

def numTypes : Logged ℕ := area.tableCount area.typesOffset

/-- The body `context_offset` and `type_offset` share: the offset of a table's string. -/
def stringOffset (kind field : String) (tableOffset : ℕ) (count : Logged ℕ) (index : ℕ) :
    ExceptT Error Logged ℕ := do
  let arrayOffset ← if usizeMax < tableOffset + 4 then
      throw (.fileValidation s!"{field} overflow: {tableOffset}")
    else pure (tableOffset + 4)
  let n ← count
  match area.u32SliceFrom arrayOffset n with
  | .error e => throw e
  | .ok slice =>
    match slice[index]? with
    | none => throw (.fileValidation
        s!"{kind} index {index} out of bounds: array length {slice.length} at offset {arrayOffset}")
    | some value => return value

def contextOffset (index : ℕ) : ExceptT Error Logged ℕ :=
  area.stringOffset "Context" "contexts_offset" area.contextsOffset area.numContexts index

def typeOffset (index : ℕ) : ExceptT Error Logged ℕ :=
  area.stringOffset "Type" "types_offset" area.typesOffset area.numTypes index

/-- A probe of a binary search that met damage: it is logged, the search is flagged as corrupted
and stopped. -/
def flagCorrupted (msg : String) (cause : Option Error) : StateT Bool Logged Ordering := do
  warn msg cause
  set true
  return .eq

/-- The probe of `find_string_index`. -/
def stringProbe (needle : Bytes) (kind : String) (offsetAt : ℕ → ExceptT Error Logged ℕ) (i : ℕ) :
    StateT Bool Logged Ordering := do
  match ← (offsetAt i).run with
  | .error e => flagCorrupted s!"{kind} entry {i} read failed" (some e)
  | .ok off =>
    match area.cstr off with
    | .error e => flagCorrupted s!"{kind} entry {i} read failed" (some e)
    | .ok name =>
      match fromUtf8 name with
      | none =>
        flagCorrupted s!"{kind} entry {i} read failed"
          (some (.fileValidation s!"{kind} entry {i} not UTF-8"))
      | some s => return compare s.bytes needle

/-- Binary search of a string table. -/
def findStringIndex (n : ℕ) (needle : Bytes) (kind : String)
    (offsetAt : ℕ → ExceptT Error Logged ℕ) : Logged (Option ℕ) := do
  let (idx, corrupted) ← (BinarySearch.find n (area.stringProbe needle kind offsetAt)).run false
  return if corrupted then none else idx

def findContextIndex (context : Bytes) : Logged (Option ℕ) := do
  area.findStringIndex (← area.numContexts) context "context" area.contextOffset

def findTypeIndex (rtype : Bytes) : Logged (Option ℕ) := do
  area.findStringIndex (← area.numTypes) rtype "type" area.typeOffset

/-! ### Trie nodes

A `TrieNode` is the area and the node's offset; the area is the section's. -/

def nodeData (node : ℕ) : Except Error TrieNodeData := do
  let a ← area.refFrom trieNodeDataSize node
  return TrieNodeData.read area.data a

def entryAt (offset : ℕ) : Except Error PropertyEntry := do
  let a ← area.refFrom propertyEntrySize offset
  return PropertyEntry.read area.data a

def nodePropertyEntry (node : ℕ) : Except Error PropertyEntry := do
  let data ← area.nodeData node
  area.entryAt data.propertyEntry

def entryName (entry : PropertyEntry) : Except Error Bytes := area.cstr entry.nameOffset

def nodeName (node : ℕ) : Except Error Bytes := do
  let entry ← area.nodePropertyEntry node
  area.cstr entry.nameOffset

def contextAndTypeIndexes (node : ℕ) : Logged (ℕ × ℕ) :=
  match area.nodePropertyEntry node with
  | .ok pe => return (pe.contextIndex, pe.typeIndex)
  | .error e => do
    warn "Failed to read PropertyEntry" (some e)
    return (noIndex, noIndex)

def childOffsets (node : ℕ) : Except Error (List ℕ) := do
  let data ← area.nodeData node
  area.u32SliceFrom data.childNodes data.numChildNodes

def prefixOffsets (node : ℕ) : Except Error (List ℕ) := do
  let data ← area.nodeData node
  area.u32SliceFrom data.prefixEntries data.numPrefixes

def exactMatchOffsets (node : ℕ) : Except Error (List ℕ) := do
  let data ← area.nodeData node
  area.u32SliceFrom data.exactMatchEntries data.numExactMatches

/-- The probe of `find_child_for_string`. An empty name counts as damage: it would steer the search
over a broken order. -/
def childProbe (offsets : List ℕ) (input : Bytes) (i : ℕ) : StateT Bool Logged Ordering :=
  match area.nodeName (offsets.getD i 0) with
  | .error e => flagCorrupted s!"child node {i} name read failed" (some e)
  | .ok name =>
    match fromUtf8 name with
    | none => flagCorrupted s!"child node {i} has non-UTF-8 name" (some .utf8)
    | some s =>
      if s.bytes = [] then
        flagCorrupted s!"child node {i} has empty (corruption-fallback) name" none
      else return compare s.bytes input

/-- The child of a node with the given name, by binary search. -/
def findChildForString (node : ℕ) (input : Bytes) : Logged (Option ℕ) :=
  match area.childOffsets node with
  | .error e => do
    warn "Failed to read child node offsets" (some e)
    return none
  | .ok offsets => do
    let (nodeIndex, corrupted) ←
      (BinarySearch.find offsets.length (area.childProbe offsets input)).run false
    return if corrupted then none else nodeIndex.map fun i => offsets.getD i 0

/-! ### The lookup -/

/-- The loop of `check_prefix_match`, over the offsets from index `i` on. -/
def checkPrefixLoop (remainingName : Bytes) : ℕ → List ℕ → Indexes → Logged Indexes
  | _, [], ix => return ix
  | i, offset :: offsets, ix =>
    match area.entryAt offset with
    | .error e => do
      warn s!"Failed to read prefix entry {i}" (some e)
      checkPrefixLoop remainingName (i + 1) offsets ix
    | .ok entry =>
      -- the length gate trusts `namelen`, the match itself uses the whole name
      if remainingName.length < entry.namelen then
        checkPrefixLoop remainingName (i + 1) offsets ix
      else do
        match ← entryNameStr (area.entryName entry) "Prefix" i with
        | none => checkPrefixLoop remainingName (i + 1) offsets ix
        | some name =>
          if name.isPrefixOf remainingName then
            return ix.override entry.contextIndex entry.typeIndex
          else checkPrefixLoop remainingName (i + 1) offsets ix

/-- Apply the first prefix entry of a node that matches the remaining name. -/
def checkPrefixMatch (remainingName : Bytes) (node : ℕ) (ix : Indexes) : Logged Indexes :=
  match area.prefixOffsets node with
  | .error e => do
    warn "Failed to read prefix entries" (some e)
    return ix
  | .ok offsets => area.checkPrefixLoop remainingName 0 offsets ix

/-- The scan of a node's exact entries, over the offsets from index `i` on. -/
def exactMatchLoop (remainingName : Bytes) : ℕ → List ℕ → Logged (Option PropertyEntry)
  | _, [] => return none
  | i, offset :: offsets =>
    match area.entryAt offset with
    | .error e => do
      warn s!"Failed to read exact_match entry {i}" (some e)
      exactMatchLoop remainingName (i + 1) offsets
    | .ok entry => do
      match ← entryNameStr (area.entryName entry) "Exact match" i with
      | none => exactMatchLoop remainingName (i + 1) offsets
      | some name =>
        if name = remainingName then return some entry
        else exactMatchLoop remainingName (i + 1) offsets

/-- The walk of `get_property_info_indexes`. Its loop cuts the remaining name at its first dot,
so it runs over the segments of the name; it ends at the last segment or at a missing child, with the
node reached and the name remaining there. -/
def walk : List Bytes → ℕ → Indexes → Logged (ℕ × Bytes × Indexes)
  | [], node, ix => return (node, [], ix)
  | segment :: segments, node, ix => do
    let remainingName := joinDot (segment :: segments)
    let (contextIndex, typeIndex) ← area.contextAndTypeIndexes node
    let ix := ix.override contextIndex typeIndex
    let ix ← area.checkPrefixMatch remainingName node ix
    if segments = [] then return (node, remainingName, ix)
    else
      match ← area.findChildForString node segment with
      | some child => walk segments child ix
      | none => return (node, remainingName, ix)

def getPropertyInfoIndexes (name : Bytes) : Logged Indexes := do
  let (node, remainingName, ix) ← area.walk (splitDot name) area.rootOffset ⟨noIndex, noIndex⟩
  let exactOffsets ← match area.exactMatchOffsets node with
    | .ok offsets => pure offsets
    | .error e => do
      warn "Failed to read exact_match entries" (some e)
      pure []
  match ← area.exactMatchLoop remainingName 0 exactOffsets with
  | some exactMatch => return ix.override exactMatch.contextIndex exactMatch.typeIndex
  | none => area.checkPrefixMatch remainingName node ix

end PropertyInfoArea

end RsProperties
