import RsProperties.Library.Guarded
import RsProperties.PropertyArea.Basic

/-!
# Reading a damaged property area

The readers of a mapped area once more, with every load, index and sum that could stop the process. Links,
name lengths, serials and value offsets come from the file and may be anything: links may lead into a cycle,
objects may overlap. Each function follows the source statement by statement and is shown to run like its
counterpart in `PropertyAreaMap`.

`find` goes to at most `maxIterations` nodes for every segment of the name, whatever the links say, and
`read_with_callback` ends in its first iteration when the file does not change under it.
-/

namespace RsProperties.AreaReads

open ByteMem Guarded PropertyAreaMap

/-- The largest `isize`: no mapping and no string is longer. -/
def isizeMax : ℕ := 2 ^ 63 - 1

/-- What the readers go through: the nodes of a sibling walk, the iterations of a read. -/
inductive AreaVisit
  | node (offset : ℕ)
  | iteration
  deriving DecidableEq, Repr

abbrev Area := Prog Empty AreaVisit

abbrev AreaE := ExceptT Error Area

/-- `CStr::from_bytes_until_nul`. -/
def fromBytesUntilNul : Bytes → Option Bytes
  | [] => none
  | b :: bs => if b = 0 then some [] else (fromBytesUntilNul bs).map (b :: ·)

/-- `CStr::from_bytes_with_nul`: the only NUL is the last byte. -/
def fromBytesWithNul (bs : Bytes) : Option Bytes :=
  match fromBytesUntilNul bs with
  | some s => if s.length + 1 = bs.length then some s else none
  | none => none

section Functions

variable (pa : PropertyAreaMap)

def load (a : ℕ) : Area ℕ := load32 pa.mmap.data pa.mmap.size a

/-! ### Checked access -/

/-- `data`: all bytes of the slice are read. -/
def dataAt (offset base size : ℕ) : AreaE Bytes := do
  let a ← check (pa.mmap.dataAt offset base size)
  (loadBytes pa.mmap.data pa.mmap.size a size : Area Bytes)

def cstrAt (offset base : ℕ) : AreaE Bytes := do
  let offset ← check (MemoryMap.checkedOffset offset base)
  if pa.mmap.size < offset then
    throw (.fileValidation s!"Offset past mmap: {offset} > {pa.mmap.size}")
  else do
    let start ← check (pa.mmap.atomicData offset 0 (pa.mmap.size - offset))
    let scanned ← (scanNul pa.mmap.data pa.mmap.size start (pa.mmap.size - offset) : Area (Option Bytes))
    match scanned with
    | none => throw (.fileValidation s!"No NUL terminator at offset {offset}")
    | some s => do
      let n ← (addWord usizeMax s.length 1 : Area ℕ)
      let bytes ← dataAt pa offset 0 n
      match fromBytesWithNul bytes with
      | some s => return s
      | none => throw (.fileValidation s!"Invalid C string at offset {offset}")

/-- A link of the trie node at a data offset. -/
def loadLink (field : LinkField) (offset : ℕ) : AreaE ℕ := do
  let a ← check (pa.mmap.toObject trieNodeSize 4 offset pa.dataOffset)
  (load pa (a + field.offset) : Area ℕ)

def trieNodeName (nodeOffset namelen : ℕ) : AreaE Bytes :=
  if usizeMax < nodeOffset + trieNodeSize then
    throw (.fileValidation s!"Trie node name offset overflow: {nodeOffset}")
  else if usizeMax < namelen + 1 then
    throw (.fileValidation s!"Trie node namelen overflow: {namelen}")
  else do
    let bytes ← dataAt pa (nodeOffset + trieNodeSize) pa.dataOffset (namelen + 1)
    match fromBytesUntilNul bytes with
    | some name => return name
    | none => throw (.fileValidation
        s!"Trie node name at offset {nodeOffset + trieNodeSize} missing NUL terminator")

/-! ### The lookup -/

def findPropTrieNodeLoop (name : Bytes) : ℕ → ℕ → AreaE ℕ
  | 0, _ => throw (.fileValidation "Trie node cycle detected (corrupt property area)")
  | steps + 1, offset => do
    (visit (.node offset) : Area Unit)
    let a ← check (pa.mmap.toObject trieNodeSize 4 offset pa.dataOffset)
    let namelen ← (load pa a : Area ℕ)
    let nodeName ← trieNodeName pa offset namelen
    match cmpPropName name nodeName with
    | .eq => return offset
    | .lt => do
      let left ← (load pa (a + LinkField.left.offset) : Area ℕ)
      if left = 0 then throw (.notFound (display name))
      else findPropTrieNodeLoop name steps left
    | .gt => do
      let right ← (load pa (a + LinkField.right.offset) : Area ℕ)
      if right = 0 then throw (.notFound (display name))
      else findPropTrieNodeLoop name steps right

def findPropTrieNode (trieOffset : ℕ) (name : Bytes) : AreaE ℕ :=
  findPropTrieNodeLoop pa name pa.maxIterations trieOffset

/-- The segment loop of `find`, with the number of iterations left. -/
def findLoop (name : Bytes) : ℕ → Bytes → ℕ → AreaE ℕ
  | 0, _, _ => (crash .diverged : Area ℕ)
  | fuel + 1, remainingName, current => do
    let sep := remainingName.findIdx? (· = dot)
    let substrSize := sep.getD remainingName.length
    if substrSize = 0 then throw (.parse s!"Invalid property name: {display name}")
    else do
      let subname ← (strSliceTo remainingName substrSize : Area Bytes)
      let children ← loadLink pa .children current
      if children = 0 then throw (.notFound (display name))
      else do
        let current ← findPropTrieNode pa children subname
        if sep.isNone then return current
        else do
          let j ← (addWord usizeMax substrSize 1 : Area ℕ)
          let rest ← (strSliceFrom remainingName j : Area Bytes)
          findLoop name fuel rest current

def find (name : Bytes) : AreaE ℕ := do
  let current ← findLoop pa name (name.length + 1) name 0
  let prop ← loadLink pa .prop current
  if prop ≠ 0 then do
    let _ ← check (pa.propertyInfo prop)
    return prop
  else throw (.notFound (display name))

/-! ### Entries and their values -/

def propertyInfoName (offset : ℕ) : AreaE Bytes := do
  let _ ← check (pa.propertyInfo offset)
  if usizeMax < offset + propertyInfoSize then
    throw (.fileValidation s!"PropertyInfo name offset overflow: {offset}")
  else cstrAt pa (offset + propertyInfoSize) pa.dataOffset

def isLong (a : ℕ) : Area Bool := do
  let serial ← load pa a
  return serial &&& longFlag != 0

def longOffset (a : ℕ) : AreaE ℕ := do
  let long ← (isLong pa a : Area Bool)
  if !long then throw (.invalidArgument "long_offset called on a short property entry")
  else (load pa (a + 4 + longLegacyErrorBufferSize) : Area ℕ)

/-- `bionic_align`, with its `expect`. -/
def alignUp (value alignment : ℕ) : Area ℕ := do
  let d ← subWord alignment 1
  let sum ← addWord usizeMax value d
  return sum / alignment * alignment

def longPropertyValue (piOffset : ℕ) : AreaE Bytes := do
  let a ← check (pa.propertyInfo piOffset)
  let rel ← longOffset pa a
  let name ← propertyInfoName pa piOffset
  let n ← (addWord usizeMax propertyInfoSize name.length : Area ℕ)
  let n ← (addWord usizeMax n 1 : Area ℕ)
  let minRel ← (alignUp n 4 : Area ℕ)
  if rel < minRel then
    throw (.fileValidation s!"Long property offset {rel} points inside the entry (min {minRel})")
  else if usizeMax < piOffset + rel then
    throw (.fileValidation s!"Long value offset overflow: {piOffset} + {rel}")
  else cstrAt pa (piOffset + rel) pa.dataOffset

def readDirtyBackup (len : ℕ) : AreaE Bytes := do
  let reserved ← (alignUp propValueMax 4 : Area ℕ)
  if len ≥ reserved then
    throw (.invalidArgument s!"Backup read too long: {len} (max: {reserved - 1})")
  else do
    let a ← check (pa.mmap.atomicData trieNodeSize pa.dataOffset len)
    (loadBytes pa.mmap.data pa.mmap.size a len : Area Bytes)

/-- The loop of `read_value_atomic` over the last `n` cells of the slot. -/
def readValueLoop (slot : ℕ) : ℕ → ℕ → Bytes → ℕ → Area (Bytes × ℕ)
  | 0, _, buf, len => return (buf, len)
  | n + 1, i, buf, len => do
    let b ← load8 pa.mmap.data pa.mmap.size (slot + i)
    if b = 0 then return (buf, len)
    else do
      let _ ← index buf i
      let len ← addWord usizeMax i 1
      readValueLoop slot n (i + 1) (buf.set i b) len

/-- `short_value_bytes`: the value and the buffer it was read into. -/
def shortValueBytes (a : ℕ) (buf : Bytes) : Area (Bytes × Bytes) := do
  let long ← isLong pa a
  if long then crash .expect
  else do
    let (buf, len) ← readValueLoop pa (a + 4) propValueMax 0 buf 0
    let bytes ← sliceTo buf len
    return (bytes, buf)

/-- The bytes an iteration of `read_with_callback` takes, and the buffer behind it: the backup of a dirty
entry, else the long value resolved before the loop, else the value slot. -/
def snapshot (a : ℕ) (longBytes : Option Bytes) (serial : ℕ) (buf : Bytes) : AreaE (Bytes × Bytes) :=
  if serialDirty serial then do
    let dst ← (sliceTo buf (min (serial >>> 24) (propValueMax - 1)) : Area Bytes)
    let backup ← readDirtyBackup pa dst.length
    let buf := backup ++ buf.drop dst.length
    let bytes ← (sliceTo buf (min (serial >>> 24) (propValueMax - 1)) : Area Bytes)
    return (bytes, buf)
  else
    match longBytes with
    | some bytes => return (bytes, buf)
    | none => (shortValueBytes pa a buf : Area (Bytes × Bytes))

variable {R : Type}

/-- The retry loop of `read_with_callback`, with the number of iterations left. The callback stays in place
until the serial has been checked. -/
def readLoop (a : ℕ) (longBytes : Option Bytes) (f : Option (Str → R)) : ℕ → Bytes → AreaE R
  | 0, _ => (crash .diverged : Area R)
  | fuel + 1, buf => do
    (visit .iteration : Area Unit)
    let serial ← (load pa a : Area ℕ)
    let (bytes, buf) ← snapshot pa a longBytes serial buf
    let finalSerial ← (load pa a : Area ℕ)
    if finalSerial = serial then
      match fromUtf8 bytes with
      | none => throw .utf8
      | some s =>
        match f with
        | none => (crash .expect : Area R)
        | some f => return f s
    else readLoop a longBytes f fuel buf

def readWithCallback (fuel piOffset : ℕ) (f : Str → R) : AreaE R := do
  let a ← check (pa.propertyInfo piOffset)
  let long ← (isLong pa a : Area Bool)
  let longBytes ← if long then some <$> longPropertyValue pa piOffset else pure none
  readLoop pa a longBytes (some f) fuel (List.replicate propValueMax 0)

end Functions

/-! ### What the checks promise -/

section Checks

open StateExcept

variable {mm : MemoryMap} {offset base size align a : ℕ}

theorem checkSize_le {u : Unit} (h : mm.checkSize offset size = .ok u) : offset + size ≤ mm.size := by
  rw [MemoryMap.checkSize] at h
  split_ifs at h
  omega

/-- The bytes behind a checked access lie in the mapping. -/
theorem dataAt_le (h : mm.dataAt offset base size = .ok a) : a + size ≤ mm.size := by
  obtain ⟨b, -, h1⟩ := except_bind_eq_ok.mp h
  obtain ⟨u, hsize, h2⟩ := except_bind_eq_ok.mp h1
  rw [← Except.ok.inj h2]
  exact checkSize_le hsize

/-- The object behind a checked reference lies in the mapping. -/
theorem toObject_le (h : mm.toObject size align offset base = .ok a) : a + size ≤ mm.size := by
  obtain ⟨b, -, h1⟩ := except_bind_eq_ok.mp h
  obtain ⟨u, hsize, h2⟩ := except_bind_eq_ok.mp h1
  obtain ⟨-, -, h3⟩ := except_bind_eq_ok.mp h2
  rw [← Except.ok.inj h3]
  exact checkSize_le hsize

/-- Scanning a slice is scanning the memory. -/
theorem fromBytesUntilNul_slice (m : Mem) (a n : ℕ) : fromBytesUntilNul (slice m a n) = cstr m a n := by
  induction n generalizing a with
  | zero => rfl
  | succ n ih => rw [slice_succ, fromBytesUntilNul, cstr, ih]

/-- A string found by a scan is read back whole. -/
theorem fromBytesWithNul_slice {m : Mem} {n : ℕ} {s : Bytes} (h : cstr m a n = some s) :
    fromBytesWithNul (slice m a (s.length + 1)) = some s := by
  rw [fromBytesWithNul, fromBytesUntilNul_slice, (cstr_eq_some h).2 _ (Nat.lt_succ_self _)]
  simp [slice]

/-- A string of the mapping is shorter than it. -/
theorem cstrAt_length {s : Bytes} (h : mm.cstrAt offset base = .ok s) : s.length < mm.size := by
  obtain ⟨off, -, h1⟩ := except_bind_eq_ok.mp h
  split_ifs at h1
  obtain ⟨start, -, h2⟩ := except_bind_eq_ok.mp h1
  cases hs : cstr mm.data start (mm.size - off) with
  | none => simp [hs] at h2
  | some t =>
    obtain rfl : t = s := by simpa [hs] using h2
    have hlt := (cstr_eq_some hs).1
    omega

end Checks

/-! ### No area stops a read -/

section Runs

variable {pa : PropertyAreaMap}

theorem runs_load {a : ℕ} (h : a + 4 ≤ pa.mmap.size) :
    Runs (load pa a) (pure (readU32 pa.mmap.data a)) 0 := runs_load32 h

/-- Behind the bytes of a checked slice. -/
theorem yields_dataAt_seq {α : Type} {offset base size n : ℕ} {f : Bytes → AreaE α} {w : ℕ → Except Error α}
    (hf : ∀ a, pa.mmap.dataAt offset base size = .ok a → Yields (f (slice pa.mmap.data a size)) (w a) n) :
    Yields (dataAt pa offset base size >>= f) (pa.mmap.dataAt offset base size >>= w) n := by
  rw [dataAt, bind_assoc]
  exact (yields_check _).seq fun a ha => (runs_loadBytes (dataAt_le ha)).yields_seq (hf a ha)

theorem yields_cstrAt (hsize : pa.mmap.size ≤ isizeMax) (offset base : ℕ) :
    Yields (cstrAt pa offset base) (pa.mmap.cstrAt offset base) 0 := by
  refine (yields_check _).seq fun off _ => ?_
  split_ifs with hpast
  · exact yields_throw _
  · refine (yields_check _).seq fun start hstart => ?_
    obtain rfl : start = off := MemoryMap.dataAt_addr hstart
    refine (runs_scanNul (dataAt_le hstart)).yields_seq ?_
    cases hs : cstr pa.mmap.data start (pa.mmap.size - start) with
    | none => exact yields_throw _
    | some s =>
      obtain ⟨hlt, -⟩ := cstr_eq_some hs
      rw [isizeMax] at hsize
      have hdata : pa.mmap.dataAt start 0 (s.length + 1) = .ok start :=
        MemoryMap.dataAt_eq_ok (by rw [usizeMax]; omega) (by omega)
      refine (runs_addWord (by rw [usizeMax]; omega)).yields_seq ?_
      have hback : (Except.ok s : Except Error Bytes) =
          pa.mmap.dataAt start 0 (s.length + 1) >>= fun _ => .ok s := by rw [hdata]; rfl
      simp only
      rw [hback]
      refine yields_dataAt_seq fun a ha => ?_
      obtain rfl : start = a := Except.ok.inj (hdata.symm.trans ha)
      rw [fromBytesWithNul_slice hs]
      exact yields_pure s

/-- Behind a link of a node. -/
theorem yields_loadLink_seq {α : Type} {field : LinkField} (get : PropertyTrieNode → ℕ)
    (hget : ∀ a, get (PropertyTrieNode.read pa.mmap.data a) = readU32 pa.mmap.data (a + field.offset))
    {offset n : ℕ} {f : ℕ → AreaE α} {w : PropertyTrieNode → Except Error α}
    (hf : ∀ node, Yields (f (get node)) (w node) n) :
    Yields (loadLink pa field offset >>= f) (pa.trieNode offset >>= w) n := by
  rw [loadLink, trieNode, bind_assoc, bind_assoc]
  refine (yields_check _).seq fun a ha => (runs_load ?_).yields_seq (hget a ▸ hf _)
  have hle := toObject_le ha
  have hfield : field.offset ≤ 16 := by cases field <;> decide
  rw [trieNodeSize] at hle
  omega

theorem yields_trieNodeName (nodeOffset namelen : ℕ) :
    Yields (trieNodeName pa nodeOffset namelen) (pa.trieNodeName nodeOffset namelen) 0 := by
  rw [trieNodeName, PropertyAreaMap.trieNodeName]
  split_ifs
  · exact yields_throw _
  · exact yields_throw _
  · refine yields_dataAt_seq fun a _ => ?_
    rw [fromBytesUntilNul_slice]
    cases cstr pa.mmap.data a (namelen + 1) with
    | none => exact yields_throw _
    | some name => exact yields_pure name

/-- **The sibling walk** goes to one node in each iteration. -/
theorem yields_findPropTrieNodeLoop (name : Bytes) (steps offset : ℕ) :
    Yields (findPropTrieNodeLoop pa name steps offset) (pa.findPropTrieNodeLoop name steps offset)
      steps := by
  induction steps generalizing offset with
  | zero => exact yields_throw _
  | succ steps ih =>
    rw [findPropTrieNodeLoop, PropertyAreaMap.findPropTrieNodeLoop, trieNode, bind_assoc]
    refine yields_visit_seq ((yields_check _).seq fun a ha => ?_)
    have hle := toObject_le ha
    rw [trieNodeSize] at hle
    refine (runs_load (by omega)).yields_seq ((yields_trieNodeName _ _).seq fun nodeName _ => ?_)
    -- a link that is set leads to the next iteration
    have hnext : ∀ link, Yields (if link = 0 then throw (.notFound (display name))
        else findPropTrieNodeLoop pa name steps link : AreaE ℕ)
        (if link = 0 then .error (.notFound (display name))
          else pa.findPropTrieNodeLoop name steps link) steps := by
      intro link
      split_ifs
      · exact (yields_throw _).mono (Nat.zero_le _)
      · exact ih link
    cases cmpPropName name nodeName with
    | eq => exact (yields_pure _).mono (Nat.zero_le _)
    | lt => exact (runs_load (by simp only [LinkField.offset]; omega)).yields_seq (hnext _)
    | gt => exact (runs_load (by simp only [LinkField.offset]; omega)).yields_seq (hnext _)

theorem yields_findPropTrieNode (trieOffset : ℕ) (name : Bytes) :
    Yields (findPropTrieNode pa trieOffset name) (pa.findPropTrieNode trieOffset name) pa.maxIterations :=
  yields_findPropTrieNodeLoop name _ _

/-- One segment of `find`: the children link, then the sibling walk. -/
theorem yields_segment {name seg : Bytes} {current n : ℕ} {f : ℕ → AreaE ℕ} {w : ℕ → Except Error ℕ}
    (hf : ∀ c, Yields (f c) (w c) n) :
    Yields (do
      let children ← loadLink pa .children current
      if children = 0 then throw (.notFound (display name))
      else do
        let current ← findPropTrieNode pa children seg
        f current)
      (do
        let node ← pa.trieNode current
        if node.children = 0 then .error (.notFound (display name))
        else do
          let current ← pa.findPropTrieNode node.children seg
          w current) (pa.maxIterations + n) := by
  refine yields_loadLink_seq PropertyTrieNode.children (fun _ => rfl) fun node => ?_
  split_ifs
  · exact (yields_throw _).mono (Nat.zero_le _)
  · exact (yields_findPropTrieNode _ _).bind fun c _ => hf c

/-- **The segment loop** of `find`: each iteration but the last takes a dot off the name. -/
theorem yields_findLoop (name : Bytes) {fuel : ℕ} {remainingName : Bytes}
    (hv : Utf8.valid remainingName = true) (hlen : remainingName.length ≤ usizeMax)
    (hfuel : remainingName.count dot < fuel) (current : ℕ) :
    Yields (findLoop pa name fuel remainingName current)
      (pa.findLoop name (splitDot remainingName) current)
      ((remainingName.count dot + 1) * pa.maxIterations) := by
  induction fuel generalizing remainingName current with
  | zero => omega
  | succ fuel ih =>
    rw [findLoop]
    rcases findIdx?_dot remainingName with ⟨hnone, hno⟩ | ⟨seg, rest, rfl, hseg, hidx⟩
    · simp only [hnone, Option.getD_none, Option.isNone_none, if_true]
      rw [splitDot_of_dot_notMem hno, PropertyAreaMap.findLoop, List.count_eq_zero_of_not_mem hno]
      split_ifs with hempty
      · exact (yields_throw _).mono (Nat.zero_le _)
      · refine (runs_strSliceTo_length _).yields_seq ?_
        exact (yields_segment fun c => yields_pure c).mono (by omega)
    · have hascii : dot.toNat < 0x80 := by decide
      obtain ⟨-, hrest⟩ := (Utf8.valid_append_cons hascii).mp hv
      have hcount : (seg ++ dot :: rest).count dot = rest.count dot + 1 := by
        simp [List.count_eq_zero_of_not_mem hseg]
      have hsum : (seg ++ dot :: rest).length = seg.length + 1 + rest.length := by
        simp only [List.length_append, List.length_cons]
        omega
      simp only [hidx, Option.getD_some, Option.isNone_some, Bool.false_eq_true, if_false]
      rw [splitDot_append_dot hseg, PropertyAreaMap.findLoop, hcount]
      split_ifs with hempty
      · exact (yields_throw _).mono (Nat.zero_le _)
      · refine (runs_strSliceTo hascii).yields_seq ?_
        have hsteps : pa.maxIterations + (rest.count dot + 1) * pa.maxIterations =
            (rest.count dot + 1 + 1) * pa.maxIterations := by
          ring
        rw [← hsteps]
        refine yields_segment fun c => (runs_addWord (by omega)).yields_seq ?_
        exact (runs_strSliceFrom hrest).yields_seq (ih hrest (by omega) (by omega) c)

/-- **No area stops `find`**: each segment goes to at most `maxIterations` nodes. -/
theorem yields_find (name : Str) (hlen : name.bytes.length ≤ usizeMax) :
    Yields (find pa name.bytes) (pa.find name.bytes)
      ((name.bytes.count dot + 1) * pa.maxIterations) := by
  have hfuel : name.bytes.count dot < name.bytes.length + 1 := Nat.lt_succ_of_le List.count_le_length
  refine (yields_findLoop name.bytes name.valid hlen hfuel 0).bind (n := 0) fun current _ => ?_
  refine yields_loadLink_seq PropertyTrieNode.prop (fun _ => rfl) fun node => ?_
  split_ifs
  · exact (yields_check _).seq fun _ _ => yields_pure _
  · exact yields_throw _

/-! Entries. -/

theorem yields_propertyInfoName (hsize : pa.mmap.size ≤ isizeMax) (offset : ℕ) :
    Yields (propertyInfoName pa offset) (pa.propertyInfoName offset) 0 := by
  refine (yields_check _).seq fun _ _ => ?_
  split_ifs
  · exact yields_throw _
  · exact yields_cstrAt hsize _ _

/-- A name read from an area is shorter than the mapping. -/
theorem propertyInfoName_length {offset : ℕ} {name : Bytes} (h : pa.propertyInfoName offset = .ok name) :
    name.length < pa.mmap.size := by
  obtain ⟨-, -, h1⟩ := StateExcept.except_bind_eq_ok.mp h
  split_ifs at h1
  exact cstrAt_length h1

theorem runs_isLong {a : ℕ} (h : a + propertyInfoSize ≤ pa.mmap.size) :
    Runs (isLong pa a) (pure (PropertyInfo.isLong pa.mmap.data a)) 0 := by
  rw [propertyInfoSize] at h
  exact (runs_load (by omega)).seq (runs_pure _)

theorem yields_longOffset {a : ℕ} (h : a + propertyInfoSize ≤ pa.mmap.size) :
    Yields (longOffset pa a) (PropertyInfo.longOffset pa.mmap.data a) 0 := by
  refine (runs_isLong h).yields_seq ?_
  rw [PropertyInfo.longOffset]
  rw [propertyInfoSize, propValueMax] at h
  split_ifs
  · exact yields_throw _
  · exact (runs_load (by rw [longLegacyErrorBufferSize]; omega)).yields

theorem runs_alignUp {value : ℕ} (h : value + 3 ≤ usizeMax) :
    Runs (alignUp value 4 : Area ℕ) (pure (bionicAlign value 4)) 0 :=
  (runs_subWord (by decide)).seq ((runs_addWord h).seq (runs_pure _))

/-- **No area stops `long_property_value`.** -/
theorem yields_longPropertyValue (hsize : pa.mmap.size ≤ isizeMax) (piOffset : ℕ) :
    Yields (longPropertyValue pa piOffset) (pa.longPropertyValue piOffset) 0 := by
  refine (yields_check _).seq fun a ha => (yields_longOffset (toObject_le ha)).seq fun rel _ => ?_
  refine (yields_propertyInfoName hsize piOffset).seq fun name hname => ?_
  have hlen := propertyInfoName_length hname
  rw [isizeMax] at hsize
  have htop : propertyInfoSize + name.length + 1 + 3 ≤ usizeMax := by
    rw [propertyInfoSize, propValueMax, usizeMax]
    omega
  refine (runs_addWord (by omega)).yields_seq ((runs_addWord (by omega)).yields_seq
    ((runs_alignUp htop).yields_seq ?_))
  simp only
  split_ifs
  · exact yields_throw _
  · exact yields_throw _
  · exact yields_cstrAt hsize _ _

/-- **No area stops the dirty-backup read.** -/
theorem yields_readDirtyBackup (len : ℕ) :
    Yields (readDirtyBackup pa len) (pa.readDirtyBackup len) 0 := by
  refine (runs_alignUp (by decide)).yields_seq ?_
  rw [PropertyAreaMap.readDirtyBackup, backupSize]
  split_ifs
  · exact yields_throw _
  · exact (yields_check _).seq fun a ha => (runs_loadBytes (dataAt_le ha)).yields

/-! The value slot. The buffer takes the bytes in order, so no index leaves it. -/

theorem runs_readValueLoop (slot : ℕ) {n i : ℕ} (read rest : Bytes) (hslot : slot + i + n ≤ pa.mmap.size)
    (hi : read.length = i) (hn : n ≤ rest.length) (htop : i + n ≤ usizeMax) :
    ∃ rest', Runs (readValueLoop pa slot n i (read ++ rest) i)
      (pure (read ++ scan pa.mmap.data (slot + i) n ++ rest',
        i + (scan pa.mmap.data (slot + i) n).length)) 0 := by
  induction n generalizing i read rest with
  | zero =>
    refine ⟨rest, ?_⟩
    rw [scan, List.append_nil]
    exact runs_pure _
  | succ n ih =>
    have hload := runs_load8 (m := pa.mmap.data) (W := Empty) (V := AreaVisit)
      (show slot + i < pa.mmap.size by omega)
    by_cases h0 : pa.mmap.data (slot + i) = 0
    · refine ⟨rest, hload.seq ?_⟩
      rw [if_pos h0, scan, if_pos h0, List.append_nil]
      exact runs_pure _
    · obtain ⟨r, rest, rfl⟩ : ∃ r rest₁, rest = r :: rest₁ := by
        cases rest with
        | nil => exact absurd hn (by simp)
        | cons r rest => exact ⟨r, rest, rfl⟩
      have hset : (read ++ r :: rest).set i (pa.mmap.data (slot + i)) =
          (read ++ [pa.mmap.data (slot + i)]) ++ rest := by
        rw [← hi, List.set_append_right _ _ le_rfl]
        simp
      have hindex : (read ++ r :: rest)[i]? = some r := by simp [← hi]
      obtain ⟨rest', hrest⟩ := ih (read ++ [pa.mmap.data (slot + i)]) rest (i := i + 1) (by omega)
        (by simp [hi]) (by simpa using hn) (by omega)
      refine ⟨rest', hload.seq ?_⟩
      rw [if_neg h0, scan, if_neg h0]
      refine (runs_index hindex).seq ((runs_addWord (by omega)).seq ?_)
      rw [hset]
      have hlen : i + 1 + (scan pa.mmap.data (slot + i + 1) n).length =
          i + (pa.mmap.data (slot + i) :: scan pa.mmap.data (slot + i + 1) n).length := by
        rw [List.length_cons]
        omega
      have hread : read ++ [pa.mmap.data (slot + i)] ++ scan pa.mmap.data (slot + i + 1) n =
          read ++ pa.mmap.data (slot + i) :: scan pa.mmap.data (slot + i + 1) n := by
        rw [List.append_assoc, List.singleton_append]
      rw [show slot + (i + 1) = slot + i + 1 by omega, hlen, hread] at hrest
      exact hrest

theorem runs_shortValueBytes {a : ℕ} (h : a + propertyInfoSize ≤ pa.mmap.size)
    (hshort : PropertyInfo.isLong pa.mmap.data a = false) {buf : Bytes} (hbuf : buf.length = propValueMax) :
    ∃ buf', Runs (shortValueBytes pa a buf) (pure (PropertyInfo.shortValueBytes pa.mmap.data a, buf')) 0 := by
  have hslot : a + 4 + 0 + propValueMax ≤ pa.mmap.size := by
    rw [propertyInfoSize] at h
    omega
  obtain ⟨rest', hloop⟩ := runs_readValueLoop (a + 4) [] buf hslot rfl hbuf.ge (by decide)
  rw [List.nil_append, List.nil_append, Nat.zero_add, Nat.add_zero] at hloop
  have hslice : Runs (sliceTo (scan pa.mmap.data (a + 4) propValueMax ++ rest')
      (scan pa.mmap.data (a + 4) propValueMax).length : Area Bytes) _ 0 := runs_sliceTo (by simp)
  rw [List.take_left] at hslice
  have hread : Runs (shortValueBytes pa a buf) (pure (scan pa.mmap.data (a + 4) propValueMax,
      scan pa.mmap.data (a + 4) propValueMax ++ rest')) 0 := by
    refine (runs_isLong h).seq ?_
    rw [hshort, if_neg (by decide)]
    exact hloop.seq (hslice.seq (runs_pure _))
  exact ⟨_, hread⟩

/-- A backup is as long as the buffer it is read into. -/
theorem readDirtyBackup_length {len : ℕ} {bytes : Bytes} (h : pa.readDirtyBackup len = .ok bytes) :
    bytes.length = len := by
  rw [PropertyAreaMap.readDirtyBackup] at h
  split_ifs at h
  obtain ⟨a, -, h1⟩ := StateExcept.except_bind_eq_ok.mp h
  rw [← Except.ok.inj h1]
  simp [slice]

/-- The value as the string its callback gets. -/
def decode (bytes : Bytes) : Except Error Str :=
  match fromUtf8 bytes with
  | some s => .ok s
  | none => .error .utf8

/-- The bytes one iteration takes, on memory that does not change. -/
def taken (pa : PropertyAreaMap) (a : ℕ) (longBytes : Option Bytes) (serial : ℕ) : Except Error Bytes :=
  if serialDirty serial then pa.readDirtyBackup (min (serial >>> 24) (propValueMax - 1))
  else
    match longBytes with
    | some bytes => .ok bytes
    | none => .ok (PropertyInfo.shortValueBytes pa.mmap.data a)

theorem yields_snapshot {a : ℕ} (h : a + propertyInfoSize ≤ pa.mmap.size) {longBytes : Option Bytes}
    (hlong : longBytes = none → PropertyInfo.isLong pa.mmap.data a = false) (serial : ℕ) {buf : Bytes}
    (hbuf : buf.length = propValueMax) :
    ∃ after : Bytes → Bytes, Yields (snapshot pa a longBytes serial buf)
      (taken pa a longBytes serial >>= fun bytes => .ok (bytes, after bytes)) 0 := by
  rw [snapshot.eq_def, taken.eq_def]
  generalize hlen : min (serial >>> 24) (propValueMax - 1) = len
  have hle : len ≤ buf.length := by
    rw [hbuf, ← hlen]
    exact (min_le_right _ _).trans (by decide)
  split_ifs with hdirty
  · refine ⟨fun backup => backup ++ buf.drop len, (runs_sliceTo hle).yields_seq ?_⟩
    rw [List.length_take_of_le hle]
    refine (yields_readDirtyBackup len).seq fun backup hbackup => ?_
    have hback := readDirtyBackup_length hbackup
    have hslice : Runs (sliceTo (backup ++ buf.drop len) len : Area Bytes) (pure backup) 0 := by
      have htake := runs_sliceTo (W := Empty) (V := AreaVisit) (l := backup ++ buf.drop len)
        (n := backup.length) (by simp)
      rwa [List.take_left, hback] at htake
    exact hslice.yields_seq (yields_pure _)
  · cases longBytes with
    | some bytes => exact ⟨fun _ => buf, yields_pure _⟩
    | none =>
      obtain ⟨buf', hshort⟩ := runs_shortValueBytes h (hlong rfl) hbuf
      exact ⟨fun _ => buf', hshort.yields⟩

/-- **The first iteration ends the loop**: the serial it checks is the one it loaded. -/
theorem yields_readLoop {R : Type} {a : ℕ} (h : a + propertyInfoSize ≤ pa.mmap.size)
    (longBytes : Option Bytes) (hlong : longBytes = none → PropertyInfo.isLong pa.mmap.data a = false)
    (f : Str → R) (fuel : ℕ) (buf : Bytes) (hbuf : buf.length = propValueMax) :
    Yields (readLoop pa a longBytes (some f) (fuel + 1) buf)
      (f <$> (taken pa a longBytes (PropertyInfo.serial pa.mmap.data a) >>= decode)) 1 := by
  have hload : Runs (load pa a) (pure (PropertyInfo.serial pa.mmap.data a)) 0 :=
    runs_load (by rw [propertyInfoSize] at h; omega)
  obtain ⟨after, hsnap⟩ := yields_snapshot h hlong (PropertyInfo.serial pa.mmap.data a) hbuf
  -- the buffer the snapshot leaves behind is not used again
  have hpair : ∀ w : Bytes → Except Error R,
      taken pa a longBytes (PropertyInfo.serial pa.mmap.data a) >>= w =
        (taken pa a longBytes (PropertyInfo.serial pa.mmap.data a) >>= fun bytes =>
          .ok (bytes, after bytes)) >>= fun p => w p.1 := by
    intro w
    rw [bind_assoc]
    rfl
  rw [readLoop, map_bind, hpair]
  refine yields_visit_seq (hload.yields_seq (hsnap.seq fun p _ => ?_))
  obtain ⟨bytes, buf'⟩ := p
  refine hload.yields_seq ?_
  rw [if_pos rfl, decode]
  cases fromUtf8 bytes with
  | none => exact yields_throw _
  | some s => exact yields_pure _

/-- `read_with_callback` in two stages: the long value, then the loop. -/
theorem readWithCallback_eq (pa : PropertyAreaMap) (piOffset : ℕ) :
    pa.readWithCallback piOffset = pa.propertyInfo piOffset >>= fun a =>
      (if PropertyInfo.isLong pa.mmap.data a then some <$> pa.longPropertyValue piOffset else .ok none) >>=
        fun longBytes => taken pa a longBytes (PropertyInfo.serial pa.mmap.data a) >>= decode := by
  rw [PropertyAreaMap.readWithCallback]
  refine congrArg (pa.propertyInfo piOffset >>= ·) (funext fun a => ?_)
  by_cases hdirty : serialDirty (PropertyInfo.serial pa.mmap.data a) = true
  · simp only [taken, hdirty, if_true]
    split_ifs <;> rfl
  · rw [Bool.not_eq_true] at hdirty
    simp only [taken, hdirty, Bool.false_eq_true, if_false]
    split_ifs
    · refine congrArg (some <$> pa.longPropertyValue piOffset >>= ·) (funext fun longBytes => ?_)
      cases longBytes <;> rfl
    · rfl

/-- **`read_with_callback` ends after one iteration**, on every area that does not change under it. -/
theorem yields_readWithCallback {R : Type} (hsize : pa.mmap.size ≤ isizeMax) (fuel piOffset : ℕ)
    (f : Str → R) :
    Yields (readWithCallback pa (fuel + 1) piOffset f) (f <$> pa.readWithCallback piOffset) 1 := by
  rw [readWithCallback_eq, map_bind]
  refine (yields_check _).seq fun a ha => (runs_isLong (toObject_le ha)).yields_seq ?_
  have hbuf : (List.replicate propValueMax (0 : UInt8)).length = propValueMax := List.length_replicate
  rw [map_bind]
  cases hl : PropertyInfo.isLong pa.mmap.data a with
  | true =>
    refine (yields_longPropertyValue hsize piOffset).map.seq fun longBytes hlb => ?_
    cases hv : pa.longPropertyValue piOffset with
    | error e =>
      rw [hv] at hlb
      cases hlb
    | ok bytes =>
      rw [hv] at hlb
      obtain rfl : some bytes = longBytes := Except.ok.inj hlb
      exact yields_readLoop (toObject_le ha) (some bytes) nofun f fuel _ hbuf
  | false => exact yields_readLoop (toObject_le ha) none (fun _ => hl) f fuel _ hbuf

end Runs

end RsProperties.AreaReads
