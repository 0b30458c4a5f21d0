import RsProperties.Names
import RsProperties.PropertyArea.PropertyInfo
import RsProperties.Library.StateExcept

/-!
# The property area

A property area is a mapped file of 128 KiB: a 128-byte header, then the data region. The data
region starts with the root trie node and the shared backup slot; behind them `allocate_obj` hands
out 4-aligned objects in order. Names are split at the dots; every level of the trie is a binary
search tree of nodes (`left`, `right`) hanging off its parent's `children` link, ordered by length
and then bytes, and a node's `prop` link leads to the entry of the name that ends there.

Writers run in `AreaM`, which keeps the memory on failure: a failed `add` leaves what it already
allocated behind.
-/

namespace RsProperties

open ByteMem

def paSize : ℕ := 128 * 1024

def propAreaMagic : ℕ := 0x504f5250

def propAreaVersion : ℕ := 0xfc6ed0ab

/-- `size_of::<PropertyTrieNode>()`. -/
def trieNodeSize : ℕ := 20

/-- `size_of::<PropertyArea>()`. -/
def propertyAreaSize : ℕ := 128

/-- The size reserved for the dirty backup slot. -/
def backupSize : ℕ := bionicAlign propValueMax 4

/-- The order of the sibling trees: by length, then bytes. -/
def cmpPropName (a b : Bytes) : Ordering := (compare a.length b.length).then (compare a b)

/-- A trie node's header. -/
structure PropertyTrieNode where
  namelen : ℕ
  prop : ℕ
  left : ℕ
  right : ℕ
  children : ℕ
  deriving DecidableEq, Repr

/-- The link fields of a trie node, by their offset in the header. -/
inductive LinkField
  | prop
  | left
  | right
  | children
  deriving DecidableEq, Repr

def LinkField.offset : LinkField → ℕ
  | .prop => 4
  | .left => 8
  | .right => 12
  | .children => 16

def PropertyTrieNode.read (m : Mem) (a : ℕ) : PropertyTrieNode where
  namelen := readU32 m a
  prop := readU32 m (a + 4)
  left := readU32 m (a + 8)
  right := readU32 m (a + 12)
  children := readU32 m (a + 16)

/-- `init_header`: the four links cleared, then the name length. -/
def PropertyTrieNode.initHeader (m : Mem) (a namelen : ℕ) : Mem :=
  let m := writeU32 m (a + 4) 0
  let m := writeU32 m (a + 8) 0
  let m := writeU32 m (a + 12) 0
  let m := writeU32 m (a + 16) 0
  writeU32 m a namelen

/-- A mapped property area. -/
structure PropertyAreaMap where
  mmap : MemoryMap
  dataOffset : ℕ
  paDataSize : ℕ

/-- Operations that change an area: the memory survives a failure. -/
abbrev AreaM := EStateM Error PropertyAreaMap

/-- Run a read-only operation. -/
def look {α : Type} (f : PropertyAreaMap → Except Error α) : AreaM α := fun pa =>
  match f pa with
  | .ok a => .ok a pa
  | .error e => .error e pa

/-- Store through the mapping. -/
def modifyData (f : Mem → Mem) : AreaM Unit :=
  modify fun pa => { pa with mmap := { pa.mmap with data := f pa.mmap.data } }

namespace PropertyAreaMap

/-- `PropertyArea::init` over the zero-filled file `new_rw` has just created. -/
def initHeader (m : Mem) : Mem :=
  let m := writeU32 m 4 0
  let m := writeU32 m 8 propAreaMagic
  let m := writeU32 m 12 propAreaVersion
  let m := writeBytes m 16 (List.replicate 112 0)
  writeU32 m 0 (trieNodeSize + backupSize)

/-- `new_rw` once the file is created and sized: a fresh writable area. -/
def newRw : PropertyAreaMap where
  mmap := { data := initHeader fun _ => 0, size := paSize, writable := true }
  dataOffset := propertyAreaSize
  paDataSize := paSize - propertyAreaSize

section Read

variable (pa : PropertyAreaMap)

def bytesUsed : ℕ := readU32 pa.mmap.data 0

/-- The header's serial word (the global serial, in the serial area). -/
def areaSerial : ℕ := readU32 pa.mmap.data 4

/-- `to_object::<PropertyTrieNode>` at a data offset, with its fields loaded. -/
def trieNode (offset : ℕ) : Except Error PropertyTrieNode := do
  let a ← pa.mmap.toObject trieNodeSize 4 offset pa.dataOffset
  return PropertyTrieNode.read pa.mmap.data a

/-- `property_info`: the address of the entry at a data offset. -/
def propertyInfo (offset : ℕ) : Except Error ℕ :=
  pa.mmap.toObject propertyInfoSize 4 offset pa.dataOffset

def trieNodeName (nodeOffset namelen : ℕ) : Except Error Bytes :=
  if usizeMax < nodeOffset + trieNodeSize then
    .error (.fileValidation s!"Trie node name offset overflow: {nodeOffset}")
  else if usizeMax < namelen + 1 then
    .error (.fileValidation s!"Trie node namelen overflow: {namelen}")
  else do
    let a ← pa.mmap.dataAt (nodeOffset + trieNodeSize) pa.dataOffset (namelen + 1)
    match cstr pa.mmap.data a (namelen + 1) with
    | some name => .ok name
    | none => .error (.fileValidation
        s!"Trie node name at offset {nodeOffset + trieNodeSize} missing NUL terminator")

/-- The walk of `find_prop_trie_node`, with the number of iterations left. -/
def findPropTrieNodeLoop (name : Bytes) : ℕ → ℕ → Except Error ℕ
  | 0, _ => .error (.fileValidation "Trie node cycle detected (corrupt property area)")
  | steps + 1, offset => do
    let node ← pa.trieNode offset
    let nodeName ← pa.trieNodeName offset node.namelen
    match cmpPropName name nodeName with
    | .eq => .ok offset
    | .lt =>
      if node.left = 0 then .error (.notFound (display name))
      else findPropTrieNodeLoop name steps node.left
    | .gt =>
      if node.right = 0 then .error (.notFound (display name))
      else findPropTrieNodeLoop name steps node.right

/-- `max_steps + 1`, the number of iterations of `for _ in 0..=max_steps`. -/
def maxIterations : ℕ := pa.paDataSize / trieNodeSize + 1

def findPropTrieNode (trieOffset : ℕ) (name : Bytes) : Except Error ℕ :=
  pa.findPropTrieNodeLoop name pa.maxIterations trieOffset

/-- The segment loop of `find`: the offset of the last segment's node. -/
def findLoop (name : Bytes) : List Bytes → ℕ → Except Error ℕ
  | [], current => .ok current
  | seg :: rest, current => do
    if seg.length = 0 then .error (.parse s!"Invalid property name: {display name}")
    else
      let node ← pa.trieNode current
      if node.children = 0 then .error (.notFound (display name))
      else
        let current ← pa.findPropTrieNode node.children seg
        findLoop name rest current

/-- `find`: the offset of the entry of a name. -/
def find (name : Bytes) : Except Error ℕ := do
  let current ← pa.findLoop name (splitDot name) 0
  let node ← pa.trieNode current
  if node.prop ≠ 0 then
    let _ ← pa.propertyInfo node.prop
    .ok node.prop
  else .error (.notFound (display name))

def propertyInfoName (offset : ℕ) : Except Error Bytes := do
  let _ ← pa.propertyInfo offset
  if usizeMax < offset + propertyInfoSize then
    .error (.fileValidation s!"PropertyInfo name offset overflow: {offset}")
  else pa.mmap.cstrAt (offset + propertyInfoSize) pa.dataOffset

def longPropertyValue (piOffset : ℕ) : Except Error Bytes := do
  let a ← pa.propertyInfo piOffset
  let rel ← PropertyInfo.longOffset pa.mmap.data a
  let name ← pa.propertyInfoName piOffset
  let minRel := bionicAlign (propertyInfoSize + name.length + 1) 4
  if rel < minRel then
    .error (.fileValidation s!"Long property offset {rel} points inside the entry (min {minRel})")
  else if usizeMax < piOffset + rel then
    .error (.fileValidation s!"Long value offset overflow: {piOffset} + {rel}")
  else pa.mmap.cstrAt (piOffset + rel) pa.dataOffset

/-- `read_dirty_backup` into a buffer of `len` bytes. -/
def readDirtyBackup (len : ℕ) : Except Error Bytes :=
  if len ≥ backupSize then
    .error (.invalidArgument s!"Backup read too long: {len} (max: {backupSize - 1})")
  else do
    let a ← pa.mmap.atomicData trieNodeSize pa.dataOffset len
    return slice pa.mmap.data a len

def propertyValueBytes (piOffset : ℕ) : Except Error Bytes := do
  let a ← pa.propertyInfo piOffset
  if PropertyInfo.isLong pa.mmap.data a then pa.longPropertyValue piOffset
  else .ok (PropertyInfo.shortValueBytes pa.mmap.data a)

/-- `read_with_callback` on memory that does not change during the read: the serial re-check at the
end of the first iteration sees the serial loaded at its start, so the loop ends there. Returns the
string handed to the callback. -/
def readWithCallback (piOffset : ℕ) : Except Error Str := do
  let a ← pa.propertyInfo piOffset
  let longBytes ←
    if PropertyInfo.isLong pa.mmap.data a then some <$> pa.longPropertyValue piOffset else .ok none
  let serial := PropertyInfo.serial pa.mmap.data a
  let bytes ←
    if serialDirty serial then pa.readDirtyBackup (min (serial >>> 24) (propValueMax - 1))
    else
      match longBytes with
      | some bytes => .ok bytes
      | none => .ok (PropertyInfo.shortValueBytes pa.mmap.data a)
  match fromUtf8 bytes with
  | some s => .ok s
  | none => .error .utf8

end Read

/-! ### Writers -/

def allocateObj (size : ℕ) : AreaM ℕ := do
  let pa ← get
  let aligned := bionicAlign size 4
  let offset := pa.bytesUsed
  if 2 ^ 32 ≤ aligned then
    throw (.fileSize s!"Aligned size too large to fit in u32: {aligned}")
  else if 2 ^ 32 ≤ offset + aligned then
    throw (.fileSize s!"Offset overflow: {offset} + {aligned} would exceed u32::MAX")
  else if pa.paDataSize < offset + aligned then
    throw (.areaFull
      s!"property area full: {offset} + {aligned} = {offset + aligned} > {pa.paDataSize}")
  else do
    let a ← look fun pa => pa.mmap.toObjectMut propertyAreaSize 4 0 0
    modifyData fun m => writeU32 m a (offset + aligned)
    return offset

def writeTrailingName (objOffset headerSize : ℕ) (name : Bytes) : AreaM Unit :=
  if usizeMax < objOffset + headerSize then
    throw (.fileValidation s!"Trailing name offset overflow: {objOffset}")
  else do
    let a ← look fun pa => pa.mmap.dataMut (objOffset + headerSize) pa.dataOffset (name.length + 1)
    modifyData fun m => writeBytes m a (name ++ [0])

/-- An unlinked trie node. -/
def newPropTrieNode (name : Bytes) : AreaM ℕ := do
  let newOffset ← allocateObj (trieNodeSize + name.length + 1)
  let a ← look fun pa => pa.mmap.toObjectMut trieNodeSize 4 newOffset pa.dataOffset
  modifyData fun m => PropertyTrieNode.initHeader m a name.length
  writeTrailingName newOffset trieNodeSize name
  return newOffset

/-- Store a link of the trie node at a data offset. -/
def storeLink (nodeOffset : ℕ) (field : LinkField) (target : ℕ) : AreaM Unit := do
  let a ← look fun pa => pa.mmap.toObject trieNodeSize 4 nodeOffset pa.dataOffset
  modifyData fun m => writeU32 m (a + field.offset) target

/-- The out-of-line branch of `new_prop_info`: the value behind the entry, then the long header. -/
def writeLongValue (newOffset : ℕ) (value : Bytes) : AreaM Unit := do
  let longOffset ← allocateObj (value.length + 1)
  let target ← look fun pa => pa.mmap.dataMut longOffset pa.dataOffset (value.length + 1)
  modifyData fun m => writeBytes m target (value ++ [0])
  if longOffset < newOffset then
    throw (.fileValidation s!"Long allocation not after its entry: {longOffset} < {newOffset}")
  else do
    let a ← look fun pa => pa.mmap.toObjectMut propertyInfoSize 4 newOffset pa.dataOffset
    modifyData fun m => PropertyInfo.initWithLongOffset m a (longOffset - newOffset)

/-- The in-line branch of `new_prop_info`. -/
def writeShortValue (newOffset : ℕ) (value : Bytes) : AreaM Unit := do
  let a ← look fun pa => pa.mmap.toObjectMut propertyInfoSize 4 newOffset pa.dataOffset
  modifyData fun m => PropertyInfo.initWithValue m a value

/-- An unlinked entry: a value of `propValueMax` bytes or more goes out of line. -/
def newPropInfo (name value : Bytes) : AreaM ℕ := do
  let newOffset ← allocateObj (propertyInfoSize + name.length + 1)
  if value.length ≥ propValueMax then writeLongValue newOffset value
  else writeShortValue newOffset value
  writeTrailingName newOffset propertyInfoSize name
  return newOffset

/-- The walk of `add_prop_trie_node`: the node of `name`, created at the end of the walk when it is
not there. -/
def addPropTrieNodeLoop (name : Bytes) : ℕ → ℕ → AreaM ℕ
  | 0, _ => throw (.fileValidation "Trie node cycle detected while adding (corrupt property area)")
  | steps + 1, offset => do
    let node ← look fun pa => pa.trieNode offset
    let nodeName ← look fun pa => pa.trieNodeName offset node.namelen
    match cmpPropName name nodeName with
    | .eq => return offset
    | .lt =>
      if node.left ≠ 0 then addPropTrieNodeLoop name steps node.left
      else do
        let new ← newPropTrieNode name
        storeLink offset .left new
        return new
    | .gt =>
      if node.right ≠ 0 then addPropTrieNodeLoop name steps node.right
      else do
        let new ← newPropTrieNode name
        storeLink offset .right new
        return new

def addPropTrieNode (trieOffset : ℕ) (name : Bytes) : AreaM ℕ := do
  let pa ← get
  addPropTrieNodeLoop name pa.maxIterations trieOffset

/-- The root of the sibling tree below a node, created for `seg` when there is none. -/
def childrenRoot (current : ℕ) (seg : Bytes) : AreaM ℕ := do
  let node ← look fun pa => pa.trieNode current
  if node.children ≠ 0 then return node.children
  else do
    let offset ← newPropTrieNode seg
    storeLink current .children offset
    return offset

/-- The segment loop of `add`: the offset of the last segment's node. -/
def addLoop : List Bytes → ℕ → AreaM ℕ
  | [], current => return current
  | seg :: rest, current => do
    let root ← childrenRoot current seg
    let current ← addPropTrieNode root seg
    addLoop rest current

/-- `add`: create the nodes of the name, then its entry; a name that has an entry keeps it. -/
def add (name value : Bytes) : AreaM Unit := do
  look fun _ => validateNoInteriorNul "property name" name
  if name.isEmpty || (splitDot name).any List.isEmpty then
    throw (.parse s!"Invalid property name: {display name}")
  else do
    let current ← addLoop (splitDot name) 0
    let node ← look fun pa => pa.trieNode current
    if node.prop = 0 then do
      let offset ← newPropInfo name value
      storeLink current .prop offset
    else return ()

/-- `set_dirty_backup_area`. -/
def setDirtyBackupArea (value : Bytes) : AreaM Unit := do
  look fun pa => pa.mmap.requireWritable
  if usizeMax < value.length + 1 then
    throw (.invalidArgument s!"Backup value too long: {value.length}")
  else if backupSize < value.length + 1 then
    throw (.invalidArgument s!"Backup value too long: {value.length} (max: {backupSize - 1})")
  else do
    let a ← look fun pa => pa.mmap.atomicData trieNodeSize pa.dataOffset (value.length + 1)
    modifyData fun m => writeBytes m a (value ++ [0])

/-- `property_info_mut(offset)?.writer().apply_write(value)`. -/
def applyWriteAt (piOffset : ℕ) (value : Bytes) : AreaM Unit := do
  let a ← look fun pa => pa.mmap.toObjectMut propertyInfoSize 4 piOffset pa.dataOffset
  let (_, m) ← look fun pa => PropertyInfo.applyWrite pa.mmap.data a value
  modifyData fun _ => m

/-- `backup_and_apply_write`: the backup slot first, then the entry's seqlock write. -/
def backupAndApplyWrite (piOffset : ℕ) (backup value : Bytes) : AreaM Unit := do
  setDirtyBackupArea backup
  applyWriteAt piOffset value

end PropertyAreaMap

end RsProperties
