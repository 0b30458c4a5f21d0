import RsProperties.PropertyArea.Add
import RsProperties.Library.Interference

/-!
# `find` and `add`, one access at a time

The lookups of other processes take no lock: while one writer runs `add`, they walk the same mapped
file. Here `find` and `add` are written as processes over that file, with every load and every store
of a header field, of a link and of a name or value byte an operation of its own. The checked accessors
compute on the dimensions of the mapping alone and are no operations.

The functions follow the source word by word, like their undisturbed versions in `PropertyArea.Basic`.
Where the source keeps a reference to a node and loads one of its fields, only that field is loaded;
a name is a slice of the mapping, so the scan for its terminator loads its bytes and the comparison
loads them again.
-/

namespace RsProperties

open ByteMem PropertyAreaMap

namespace Publish

/-- One access to the mapped file. -/
inductive Access
  | load32 (a : ℕ)
  | load8 (a : ℕ)
  | store32 (a v : ℕ)
  | store8 (a : ℕ) (b : UInt8)
  deriving DecidableEq

/-- What an access answers. -/
def Access.Ans : Access → Type
  | .load32 _ => ℕ
  | .load8 _ => UInt8
  | .store32 _ _ => Unit
  | .store8 _ _ => Unit

/-- What an access does to the memory. -/
def Access.act : (o : Access) → Mem → o.Ans × Mem
  | .load32 a, m => (readU32 m a, m)
  | .load8 a, m => (m a, m)
  | .store32 a v, m => ((), writeU32 m a v)
  | .store8 a b, m => ((), writeBytes m a [b])

/-- Code between accesses, which may fail. -/
abbrev Prog := ExceptT Error (Process Access Access.Ans)

def load32 (a : ℕ) : Prog ℕ := ExceptT.lift (Process.op (Access.load32 a))

def load8 (a : ℕ) : Prog UInt8 := ExceptT.lift (Process.op (Access.load8 a))

def store32 (a v : ℕ) : Prog Unit := ExceptT.lift (Process.op (Access.store32 a v))

def store8 (a : ℕ) (b : UInt8) : Prog Unit := ExceptT.lift (Process.op (Access.store8 a b))

/-- A computation without accesses. -/
def check {α : Type} (x : Except Error α) : Prog α := ExceptT.mk (pure x)

/-- `CStr::from_bytes_until_nul` on `n` bytes: the length of the string, when it is terminated. -/
def scanNul (a : ℕ) : ℕ → Prog (Option ℕ)
  | 0 => return none
  | n + 1 => do
    let b ← load8 a
    if b = 0 then return some 0
    else do
      let len ← scanNul (a + 1) n
      return len.map (· + 1)

/-- The bytes of a slice. -/
def loadBytes (a : ℕ) : ℕ → Prog Bytes
  | 0 => return []
  | n + 1 => do
    let b ← load8 a
    let bs ← loadBytes (a + 1) n
    return b :: bs

/-- `copy_from_slice` into the mapping. -/
def storeBytes (a : ℕ) : Bytes → Prog Unit
  | [] => return ()
  | b :: bs => do
    store8 a b
    storeBytes (a + 1) bs

/-- `cmp_prop_name` with a slice of the mapping: the lengths first, then the bytes. -/
def cmpSlice (name : Bytes) (a len : ℕ) : Prog Ordering :=
  match compare name.length len with
  | .eq => do
    let bytes ← loadBytes a len
    return compare name bytes
  | o => return o

variable (pa : PropertyAreaMap)

/-! ### Lookups -/

/-- The address of a node, `to_object::<PropertyTrieNode>`. -/
def nodeObject (offset : ℕ) : Prog ℕ :=
  check (pa.mmap.toObject trieNodeSize 4 offset pa.dataOffset)

/-- The slice of a node's name: its address and its length. -/
def trieNodeName (nodeOffset namelen : ℕ) : Prog (ℕ × ℕ) :=
  if usizeMax < nodeOffset + trieNodeSize then
    throw (.fileValidation s!"Trie node name offset overflow: {nodeOffset}")
  else if usizeMax < namelen + 1 then
    throw (.fileValidation s!"Trie node namelen overflow: {namelen}")
  else do
    let a ← check (pa.mmap.dataAt (nodeOffset + trieNodeSize) pa.dataOffset (namelen + 1))
    let len ← scanNul a (namelen + 1)
    match len with
    | some len => return (a, len)
    | none => throw (.fileValidation
        s!"Trie node name at offset {nodeOffset + trieNodeSize} missing NUL terminator")

/-- The comparison of a name with a node's, as both sibling walks make it. -/
def cmpNodeName (name : Bytes) (nodeOffset namelen : ℕ) : Prog Ordering := do
  let (a, len) ← trieNodeName pa nodeOffset namelen
  cmpSlice name a len

/-- The walk of `find_prop_trie_node`, with the number of iterations left. -/
def findPropTrieNodeLoop (name : Bytes) : ℕ → ℕ → Prog ℕ
  | 0, _ => throw (.fileValidation "Trie node cycle detected (corrupt property area)")
  | steps + 1, offset => do
    let a ← nodeObject pa offset
    let namelen ← load32 a
    let ordering ← cmpNodeName pa name offset namelen
    match ordering with
    | .eq => return offset
    | .lt => do
      let next ← load32 (a + LinkField.left.offset)
      if next = 0 then throw (.notFound (display name))
      else findPropTrieNodeLoop name steps next
    | .gt => do
      let next ← load32 (a + LinkField.right.offset)
      if next = 0 then throw (.notFound (display name))
      else findPropTrieNodeLoop name steps next

def findPropTrieNode (trieOffset : ℕ) (name : Bytes) : Prog ℕ :=
  findPropTrieNodeLoop pa name pa.maxIterations trieOffset

/-- The segment loop of `find`. -/
def findLoop (name : Bytes) : List Bytes → ℕ → Prog ℕ
  | [], current => return current
  | seg :: rest, current =>
    if seg.length = 0 then throw (.parse s!"Invalid property name: {display name}")
    else do
      let a ← nodeObject pa current
      let children ← load32 (a + LinkField.children.offset)
      if children = 0 then throw (.notFound (display name))
      else do
        let current ← findPropTrieNode pa children seg
        findLoop name rest current

/-- `find`: the offset of the entry of a name. -/
def find (name : Bytes) : Prog ℕ := do
  let current ← findLoop pa name (splitDot name) 0
  let a ← nodeObject pa current
  let prop ← load32 (a + LinkField.prop.offset)
  if prop ≠ 0 then do
    let _ ← check (pa.propertyInfo prop)
    return prop
  else throw (.notFound (display name))

/-! ### The writer -/

def allocateObj (size : ℕ) : Prog ℕ := do
  let aligned := bionicAlign size 4
  let offset ← load32 0
  if 2 ^ 32 ≤ aligned then
    throw (.fileSize s!"Aligned size too large to fit in u32: {aligned}")
  else if 2 ^ 32 ≤ offset + aligned then
    throw (.fileSize s!"Offset overflow: {offset} + {aligned} would exceed u32::MAX")
  else if pa.paDataSize < offset + aligned then
    throw (.areaFull
      s!"property area full: {offset} + {aligned} = {offset + aligned} > {pa.paDataSize}")
  else do
    let a ← check (pa.mmap.toObjectMut propertyAreaSize 4 0 0)
    store32 a (offset + aligned)
    return offset

def writeTrailingName (objOffset headerSize : ℕ) (name : Bytes) : Prog Unit :=
  if usizeMax < objOffset + headerSize then
    throw (.fileValidation s!"Trailing name offset overflow: {objOffset}")
  else do
    let a ← check (pa.mmap.dataMut (objOffset + headerSize) pa.dataOffset (name.length + 1))
    storeBytes a (name ++ [0])

/-- `init_header`: the four links cleared, then the name length. -/
def initHeader (a namelen : ℕ) : Prog Unit := do
  store32 (a + 4) 0
  store32 (a + 8) 0
  store32 (a + 12) 0
  store32 (a + 16) 0
  store32 a namelen

/-- An unlinked trie node. -/
def newPropTrieNode (name : Bytes) : Prog ℕ := do
  let newOffset ← allocateObj pa (trieNodeSize + name.length + 1)
  let a ← check (pa.mmap.toObjectMut trieNodeSize 4 newOffset pa.dataOffset)
  initHeader a name.length
  writeTrailingName pa newOffset trieNodeSize name
  return newOffset

/-- Store a link of the trie node at a data offset. -/
def storeLink (nodeOffset : ℕ) (field : LinkField) (target : ℕ) : Prog Unit := do
  let a ← nodeObject pa nodeOffset
  store32 (a + field.offset) target

/-- `init_with_long_offset`: the serial, the padded error text, the relative offset. -/
def initWithLongOffset (a offset : ℕ) : Prog Unit := do
  store32 a (longLegacyError.length <<< 24 ||| longFlag)
  storeBytes (a + 4) (PropertyInfo.errorBytesPadded longLegacyErrorBufferSize longLegacyError)
  store32 (a + 4 + longLegacyErrorBufferSize) offset

/-- `init_with_value`: the serial of the stored length, then the value. -/
def initWithValue (a : ℕ) (value : Bytes) : Prog Unit := do
  store32 a ((min value.length (propValueMax - 1)) <<< 24)
  storeBytes (a + 4) (value.take (min value.length (propValueMax - 1)) ++ [0])

/-- The out-of-line branch of `new_prop_info`. -/
def writeLongValue (newOffset : ℕ) (value : Bytes) : Prog Unit := do
  let longOffset ← allocateObj pa (value.length + 1)
  let target ← check (pa.mmap.dataMut longOffset pa.dataOffset (value.length + 1))
  storeBytes target (value ++ [0])
  if longOffset < newOffset then
    throw (.fileValidation s!"Long allocation not after its entry: {longOffset} < {newOffset}")
  else do
    let a ← check (pa.mmap.toObjectMut propertyInfoSize 4 newOffset pa.dataOffset)
    initWithLongOffset a (longOffset - newOffset)

/-- The in-line branch of `new_prop_info`. -/
def writeShortValue (newOffset : ℕ) (value : Bytes) : Prog Unit := do
  let a ← check (pa.mmap.toObjectMut propertyInfoSize 4 newOffset pa.dataOffset)
  initWithValue a value

/-- An unlinked entry. -/
def newPropInfo (name value : Bytes) : Prog ℕ := do
  let newOffset ← allocateObj pa (propertyInfoSize + name.length + 1)
  if value.length ≥ propValueMax then writeLongValue pa newOffset value
  else writeShortValue pa newOffset value
  writeTrailingName pa newOffset propertyInfoSize name
  return newOffset

/-- A new node with the link that publishes it. -/
def attach (nodeOffset : ℕ) (field : LinkField) (name : Bytes) : Prog ℕ := do
  let new ← newPropTrieNode pa name
  storeLink pa nodeOffset field new
  return new

/-- The walk of `add_prop_trie_node`. -/
def addPropTrieNodeLoop (name : Bytes) : ℕ → ℕ → Prog ℕ
  | 0, _ => throw (.fileValidation "Trie node cycle detected while adding (corrupt property area)")
  | steps + 1, offset => do
    let a ← nodeObject pa offset
    let namelen ← load32 a
    let ordering ← cmpNodeName pa name offset namelen
    match ordering with
    | .eq => return offset
    | .lt => do
      let child ← load32 (a + LinkField.left.offset)
      if child ≠ 0 then addPropTrieNodeLoop name steps child
      else attach pa offset .left name
    | .gt => do
      let child ← load32 (a + LinkField.right.offset)
      if child ≠ 0 then addPropTrieNodeLoop name steps child
      else attach pa offset .right name

def addPropTrieNode (trieOffset : ℕ) (name : Bytes) : Prog ℕ :=
  addPropTrieNodeLoop pa name pa.maxIterations trieOffset

/-- The root of the sibling tree below a node, created for `seg` when there is none. -/
def childrenRoot (current : ℕ) (seg : Bytes) : Prog ℕ := do
  let a ← nodeObject pa current
  let children ← load32 (a + LinkField.children.offset)
  if children ≠ 0 then return children
  else attach pa current .children seg

/-- The segment loop of `add`. -/
def addLoop : List Bytes → ℕ → Prog ℕ
  | [], current => return current
  | seg :: rest, current => do
    let root ← childrenRoot pa current seg
    let current ← addPropTrieNode pa root seg
    addLoop rest current

/-- What `add` does at the node of the name. -/
def bindEntry (current : ℕ) (name value : Bytes) : Prog Unit := do
  let a ← nodeObject pa current
  let prop ← load32 (a + LinkField.prop.offset)
  if prop = 0 then do
    let offset ← newPropInfo pa name value
    storeLink pa current .prop offset
  else return ()

/-- `add`: create the nodes of the name, then its entry; a name that has an entry keeps it. -/
def add (name value : Bytes) : Prog Unit := do
  check (validateNoInteriorNul "property name" name)
  if name.isEmpty || (splitDot name).any List.isEmpty then
    throw (.parse s!"Invalid property name: {display name}")
  else do
    let current ← addLoop pa (splitDot name) 0
    bindEntry pa current name value

end Publish

end RsProperties
