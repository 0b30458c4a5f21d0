import RsProperties.InfoTrie.Builder
import RsProperties.Library.StateExcept

/-!
# The trie serializer

`TrieSerializer` lays a built trie out in an arena: the header, the table of contexts, the table of types,
then the nodes in depth-first order, each followed by its entry, its prefix entries, its exact entries and its
children. The arena grows by 4-aligned allocations whose offsets fit 32 bits; its buffer is zero-filled.

The format is host-endian; the model fixes little-endian.
-/

namespace RsProperties

open ByteMem

/-- The arena: the bytes, and the end of the allocated extent. -/
structure TrieNodeArena where
  data : Mem
  size : ℕ

abbrev ArenaM := EStateM Error TrieNodeArena

namespace TrieNodeArena

def new : TrieNodeArena where
  data := fun _ => 0
  size := 0

def allocateData (size : ℕ) : ArenaM ℕ := fun arena =>
  let alignedSize := bionicAlign size 4
  if arena.size + alignedSize < 2 ^ 32 then
    .ok arena.size { arena with size := arena.size + alignedSize }
  else
    .error (.fileValidation
      s!"Serialized property info exceeds the u32 offset space: {arena.size} + {alignedSize} bytes")
      arena

/-- `allocate_object::<T>` for a `T` of the given size. -/
def allocateObject (size : ℕ) : ArenaM ℕ := allocateData size

def allocateUint32Array (length : ℕ) : ArenaM ℕ :=
  if usizeMax < length * 4 then throw (.fileValidation s!"Array len overflow: {length}")
  else allocateData (length * 4)

/-- The checks of `get_object::<T>` for a `T` of the given size: inside the allocated extent, and
4-aligned. -/
def getObject (size offset : ℕ) : ArenaM Unit := fun arena =>
  if arena.size < offset + size then
    .error (.fileValidation
      s!"Object access out of bounds: offset={offset}, size={size}, allocated={arena.size}") arena
  else if offset % 4 ≠ 0 then
    .error (.fileValidation s!"Object at offset {offset} is not properly aligned") arena
  else .ok () arena

/-- Assign a 32-bit field of an object. -/
def setField (size offset field value : ℕ) : ArenaM Unit := do
  getObject size offset
  modify fun arena => { arena with data := writeU32 arena.data (offset + field) value }

/-- `uint32_array` followed by `copy_from_slice`. -/
def writeUint32Array (offset : ℕ) (values : List ℕ) : ArenaM Unit := fun arena =>
  if usizeMax < values.length * 4 then
    .error (.fileValidation s!"Array len overflow: {values.length}") arena
  else if usizeMax < offset + values.length * 4 then
    .error (.fileValidation s!"Array end overflow: offset={offset}, len={values.length}") arena
  else if arena.size < offset + values.length * 4 then
    .error (.fileValidation s!"Array access out of bounds: offset={offset}, len={values.length}, byte_end={offset + values.length * 4}, allocated={arena.size}") arena
  else if offset % 4 ≠ 0 then
    .error (.fileValidation s!"Array at offset {offset} is not properly aligned for u32") arena
  else .ok () { arena with data := writeWords arena.data offset values }

def allocateAndWriteString (string : Bytes) : ArenaM ℕ := do
  let offset ← allocateData (string.length + 1)
  modify fun arena => { arena with data := writeBytes arena.data offset (string ++ [0]) }
  return offset

def allocateAndWriteUint32 (value : ℕ) : ArenaM Unit := do
  let offset ← allocateData 4
  modify fun arena => { arena with data := writeU32 arena.data offset value }

/-- The parser view of the arena; the failed assertion on a buffer without header is an error. -/
def info : ArenaM PropertyInfoArea := fun arena =>
  if h : infoHeaderSize ≤ arena.size then
    .ok { data := arena.data, size := arena.size, header_le := h } arena
  else .error (.fileValidation "property_info area smaller than its header") arena

def intoData (arena : TrieNodeArena) : Bytes := slice arena.data 0 arena.size

end TrieNodeArena

open TrieNodeArena

/-- `resolve_index`: absent and empty names have no index, a missing name is an error. -/
def resolveIndex (name : Option Bytes) (lookup : Bytes → Option ℕ) : Except Error ℕ :=
  match name with
  | none => .ok noIndex
  | some s =>
    if s ≠ [] then
      match lookup s with
      | some i =>
        -- an index equal to the sentinel would read back as "no index"
        if i < 2 ^ 32 ∧ i ≠ noIndex then .ok i
        else .error (.fileValidation
          s!"String table index {i} does not fit below the u32::MAX sentinel")
      | none => .error (.fileValidation
          s!"'{display s}' missing from the serialized string table (serializer invariant violation)")
    else .ok noIndex

/-- The order of the prefix entries: longest first, then by name. -/
def prefixOrder (a b : PropertyEntryBuilder) : Prop :=
  ((compare b.name.length a.name.length).then (compare a.name b.name)).isLE = true

/-- The order of the exact entries. -/
def entryOrder (a b : PropertyEntryBuilder) : Prop := (compare a.name b.name).isLE = true

/-- The order of the children. -/
def childOrder (a b : TrieBuilderNode) : Prop := (compare a.key b.key).isLE = true

instance : DecidableRel prefixOrder := fun _ _ => inferInstanceAs (Decidable (_ = true))

instance : DecidableRel entryOrder := fun _ _ => inferInstanceAs (Decidable (_ = true))

instance : DecidableRel childOrder := fun _ _ => inferInstanceAs (Decidable (_ = true))

def TrieBuilderNode.sortedPrefixMatches (node : TrieBuilderNode) : List PropertyEntryBuilder :=
  node.prefixes.insertionSort prefixOrder

def TrieBuilderNode.sortedExactMatches (node : TrieBuilderNode) : List PropertyEntryBuilder :=
  node.exactMatches.insertionSort entryOrder

def TrieBuilderNode.sortedChildren (node : TrieBuilderNode) : List TrieBuilderNode :=
  node.children.insertionSort childOrder

namespace TrieSerializer

def writePropertyEntry (entry : PropertyEntryBuilder) : ArenaM ℕ := do
  let area ← info
  let contextIndex ← ofExcept
    (resolveIndex entry.context fun s => ((area.findContextIndex s).run []).1)
  let typeIndex ← ofExcept (resolveIndex entry.rtype fun s => ((area.findTypeIndex s).run []).1)
  let entryOffset ← allocateObject propertyEntrySize
  let nameOffset ← allocateAndWriteString entry.name
  if 2 ^ 32 ≤ entry.name.length then
    throw (.fileValidation s!"Property name too long: {entry.name.length} bytes")
  setField propertyEntrySize entryOffset 0 nameOffset
  setField propertyEntrySize entryOffset 4 entry.name.length
  setField propertyEntrySize entryOffset 8 contextIndex
  setField propertyEntrySize entryOffset 12 typeIndex
  return entryOffset

/-- Write the items one after another and collect their offsets. -/
def writeAll {α : Type} (write : α → ArenaM ℕ) : List α → ArenaM (List ℕ)
  | [] => return []
  | item :: items => do
    let offset ← write item
    let offsets ← writeAll write items
    return offset :: offsets

/-- What `write_trie_node` does for each of its three arrays: the count and the array go into two
adjacent fields of the node, the items are written, and the array is stamped with their offsets. -/
def writeOffsetArray {α : Type} (trieOffset field : ℕ) (items : List α) (write : α → ArenaM ℕ) :
    ArenaM Unit := do
  setField trieNodeDataSize trieOffset field items.length
  let arrayOffset ← allocateUint32Array items.length
  setField trieNodeDataSize trieOffset (field + 4) arrayOffset
  let offsets ← writeAll write items
  writeUint32Array arrayOffset offsets

def maxTrieDepth : ℕ := 512

/-- `write_trie_node` with the levels that are still allowed, `maxTrieDepth + 1 - depth`. -/
def writeTrieNode : ℕ → TrieBuilderNode → ArenaM ℕ
  | 0, _ => throw (.fileValidation
      s!"Trie deeper than {maxTrieDepth} levels — refusing to serialize")
  | levels + 1, node => do
    let trieOffset ← allocateObject trieNodeDataSize
    let propertyEntry ← writePropertyEntry node.propertyEntry
    setField trieNodeDataSize trieOffset 0 propertyEntry
    writeOffsetArray trieOffset 12 node.sortedPrefixMatches writePropertyEntry
    writeOffsetArray trieOffset 20 node.sortedExactMatches writePropertyEntry
    writeOffsetArray trieOffset 4 node.sortedChildren (writeTrieNode levels)
    return trieOffset

def serializeStrings (strings : List Bytes) : ArenaM Unit := do
  allocateAndWriteUint32 strings.length
  let arrayOffset ← allocateUint32Array strings.length
  let offsets ← writeAll allocateAndWriteString strings
  writeUint32Array arrayOffset offsets

/-- `TrieSerializer::new`, on the arena it starts with. -/
def serialize (builder : TrieBuilder) : ArenaM Unit := do
  let header ← allocateObject infoHeaderSize
  setField infoHeaderSize header 0 1
  setField infoHeaderSize header 4 1
  setField infoHeaderSize header 12 (← get).size
  serializeStrings builder.contexts
  setField infoHeaderSize header 16 (← get).size
  serializeStrings builder.types
  setField infoHeaderSize header 8 (← get).size
  let rootTrieOffset ← writeTrieNode (maxTrieDepth + 1) builder.root
  setField infoHeaderSize header 20 rootTrieOffset
  setField infoHeaderSize header 8 (← get).size

end TrieSerializer

/-- A rule of a property-contexts file. -/
structure PropertyInfoEntry where
  name : Str
  context : Str
  typeStr : Str
  exactMatch : Bool
  deriving DecidableEq

/-- The loop of `build_trie` over the rules. -/
def addRules : List PropertyInfoEntry → TrieBuilder → Except Error TrieBuilder
  | [], builder => .ok builder
  | entry :: entries, builder => do
    let builder ← builder.addToTrie entry.name.bytes entry.context.bytes entry.typeStr.bytes
      entry.exactMatch
    addRules entries builder

/-- Build and serialize a trie from a list of rules. -/
def buildTrie (propertyInfo : List PropertyInfoEntry) (defaultContext defaultType : Str) :
    Except Error Bytes := do
  validateNoInteriorNul "default context" defaultContext.bytes
  validateNoInteriorNul "default type" defaultType.bytes
  let trie ← addRules propertyInfo (TrieBuilder.new defaultContext.bytes defaultType.bytes)
  match TrieSerializer.serialize trie TrieNodeArena.new with
  | .ok _ arena => return arena.intoData
  | .error e _ => throw e

end RsProperties
