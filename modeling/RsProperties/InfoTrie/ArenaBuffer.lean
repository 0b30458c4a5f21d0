import RsProperties.InfoTrie.Serializer
import RsProperties.Library.Trace

/-!
# The arena's buffer

The arena of the serializer as the code has it: a growing buffer of 32-bit words, addressed by byte
offsets, with the allocated extent kept apart from the buffer's length. Growth doubles the buffer, so behind
the extent there is slack. The word buffer is modelled by its byte view, always a whole number of words.

A slice index outside the buffer is a panic, which is kept apart from the typed errors. `Refines` says that
an operation never panics and acts on the zero-extended bytes as the serializer's `TrieNodeArena` does, where
the buffer's length no longer shows.
-/

namespace RsProperties

open ByteMem StateExcept

/-- How an arena operation stops: a typed error, or a slice index out of range. -/
inductive ArenaFault
  | error (e : Error)
  | panic
  deriving DecidableEq, Repr

/-- The buffer: the bytes of `data` and the allocated extent. -/
structure ArenaBuffer where
  bytes : Bytes
  currentDataPointer : ℕ
  deriving DecidableEq

abbrev BufferM := EStateM ArenaFault ArenaBuffer

/-- `bytes[start..start + bs.len()].copy_from_slice(bs)`, in range. -/
def splice (bytes : Bytes) (start : ℕ) (bs : Bytes) : Bytes :=
  bytes.take start ++ bs ++ bytes.drop (start + bs.length)

namespace ArenaBuffer

def new : ArenaBuffer where
  bytes := []
  currentDataPointer := 0

/-- `Vec::resize` to a number of words, filling up with zeros. -/
def resize (words : ℕ) (bytes : Bytes) : Bytes :=
  bytes.take (4 * words) ++ List.replicate (4 * words - bytes.length) 0

def allocateData (size : ℕ) : BufferM ℕ := fun buf =>
  let alignedSize := bionicAlign size 4
  let needed := buf.currentDataPointer + alignedSize
  if usizeMax < needed ∨ 2 ^ 32 ≤ needed then
    .error (.error (.fileValidation
      s!"Serialized property info exceeds the u32 offset space: {buf.currentDataPointer} + {alignedSize} bytes"))
      buf
  else
    let byteLen := buf.bytes.length
    let bytes :=
      if byteLen < needed then
        let targetBytes := max needed (min usizeMax (byteLen * 2))
        resize ((targetBytes + 3) / 4) buf.bytes
      else buf.bytes
    .ok buf.currentDataPointer ⟨bytes, needed⟩

/-- `allocate_object::<T>` for a `T` of the given size. -/
def allocateObject (size : ℕ) : BufferM ℕ := allocateData size

def allocateUint32Array (length : ℕ) : BufferM ℕ :=
  if usizeMax < length * 4 then throw (.error (.fileValidation s!"Array len overflow: {length}"))
  else allocateData (length * 4)

/-- `get_object::<T>` for a `T` of the given size and alignment, with the bytes of the object. The
alignment divides 4 (`AlignFitsArena`) and the buffer is a `Vec<u32>`, so a pointer is aligned exactly when
its offset is. -/
def getObject (size align offset : ℕ) : BufferM Bytes := fun buf =>
  let stop := min usizeMax (offset + size)
  if buf.currentDataPointer < stop then
    .error (.error (.fileValidation
      s!"Object access out of bounds: offset={offset}, size={size}, allocated={buf.currentDataPointer}")) buf
  else if stop < offset ∨ buf.bytes.length < stop then .error .panic buf
  else if stop - offset ≠ size ∨ offset % align ≠ 0 then
    .error (.error (.fileValidation s!"Object at offset {offset} is not properly aligned")) buf
  else .ok ((buf.bytes.drop offset).take size) buf

/-- `uint32_array`, with the bytes of the array. -/
def uint32Array (offset len : ℕ) : BufferM Bytes := fun buf =>
  if usizeMax < len * 4 then .error (.error (.fileValidation s!"Array len overflow: {len}")) buf
  else if usizeMax < offset + len * 4 then
    .error (.error (.fileValidation s!"Array end overflow: offset={offset}, len={len}")) buf
  else if buf.currentDataPointer < offset + len * 4 then
    .error (.error (.fileValidation s!"Array access out of bounds: offset={offset}, len={len}, byte_end={offset + len * 4}, allocated={buf.currentDataPointer}")) buf
  else if buf.bytes.length < offset + len * 4 then .error .panic buf
  else if offset % 4 ≠ 0 then
    .error (.error (.fileValidation s!"Array at offset {offset} is not properly aligned for u32")) buf
  else .ok ((buf.bytes.drop offset).take (len * 4)) buf

/-- Copy into a range of the byte view. -/
def copyFromSlice (start : ℕ) (bs : Bytes) : BufferM Unit := fun buf =>
  if buf.bytes.length < start + bs.length then .error .panic buf
  else .ok () { buf with bytes := splice buf.bytes start bs }

/-- Assign an object through `get_object::<T>`, `T` of the size of the value. -/
def writeObject (align offset : ℕ) (value : Bytes) : BufferM Unit := do
  let _ ← getObject value.length align offset
  modify fun buf => { buf with bytes := splice buf.bytes offset value }

/-- The bytes of consecutive words. -/
def wordBytes (values : List UInt32) : Bytes := values.flatMap fun v => u32le v.toNat

/-- `uint32_array` followed by `copy_from_slice`. -/
def writeUint32Array (offset : ℕ) (values : List UInt32) : BufferM Unit := do
  let _ ← uint32Array offset values.length
  modify fun buf => { buf with bytes := splice buf.bytes offset (wordBytes values) }

def allocateAndWriteString (string : Bytes) : BufferM ℕ := do
  let offset ← allocateData (string.length + 1)
  copyFromSlice offset string
  copyFromSlice (offset + string.length) [0]
  return offset

def allocateAndWriteUint32 (value : UInt32) : BufferM Unit := do
  let offset ← allocateData 4
  copyFromSlice offset (u32le value.toNat)

def size (buf : ArenaBuffer) : ℕ := buf.currentDataPointer

/-- `into_data`; no bytes when the slice index is out of range. -/
def intoData (buf : ArenaBuffer) : Option Bytes :=
  if buf.bytes.length < buf.currentDataPointer then none
  else some (buf.bytes.take buf.currentDataPointer)

/-! ### The buffer's invariant -/

/-- The buffer covers the extent, which ends on a word boundary inside the offset space. -/
structure Wf (buf : ArenaBuffer) : Prop where
  whole : buf.bytes.length % 4 = 0
  covered : buf.currentDataPointer ≤ buf.bytes.length
  aligned : buf.currentDataPointer % 4 = 0
  lt : buf.currentDataPointer < 2 ^ 32

theorem wf_new : Wf new := ⟨rfl, le_rfl, rfl, by decide⟩

/-- The serializer's arena: the bytes, continued by zeros, and the extent. -/
def toArena (buf : ArenaBuffer) : TrieNodeArena where
  data := fun i => buf.bytes.getD i 0
  size := buf.currentDataPointer

/-- Storing into the buffer is storing into the arena's memory. -/
theorem getD_splice {bytes bs : Bytes} {start : ℕ} (h : start + bs.length ≤ bytes.length) (i : ℕ) :
    (splice bytes start bs).getD i 0 = writeBytes (fun i => bytes.getD i 0) start bs i := by
  have hlen : (bytes.take start).length = start := by simp; omega
  simp only [splice, List.append_assoc, List.getD_eq_getElem?_getD]
  rcases Nat.lt_or_ge i start with hi | hi
  · rw [writeBytes_of_lt hi, List.getElem?_append_left (by omega), List.getElem?_take_of_lt hi]
  rw [List.getElem?_append_right (by omega), hlen]
  rcases Nat.lt_or_ge (i - start) bs.length with hj | hj
  · obtain ⟨j, rfl⟩ : ∃ j, i = start + j := ⟨i - start, by omega⟩
    rw [Nat.add_sub_cancel_left] at hj ⊢
    rw [List.getElem?_append_left hj, writeBytes_add hj, List.getElem?_eq_getElem hj]
    rfl
  · rw [List.getElem?_append_right hj, List.getElem?_drop, writeBytes_of_le (by omega)]
    congr 2
    omega

theorem length_splice {bytes bs : Bytes} {start : ℕ} (h : start + bs.length ≤ bytes.length) :
    (splice bytes start bs).length = bytes.length := by
  simp only [splice, List.length_append, List.length_take, List.length_drop]
  omega

/-- A range of the buffer is a range of the arena's memory. -/
theorem take_drop_eq_slice {buf : ArenaBuffer} {offset n : ℕ} (h : offset + n ≤ buf.bytes.length) :
    (buf.bytes.drop offset).take n = slice buf.toArena.data offset n := by
  refine List.ext_getElem (by simp; omega) fun i h1 h2 => ?_
  have hi : i < n := by simpa using h2
  simp [slice, toArena, List.getElem?_eq_getElem (show offset + i < buf.bytes.length by omega)]

/-- A store inside the extent keeps the invariant and is the arena's store. -/
theorem Wf.splice {buf : ArenaBuffer} (h : Wf buf) {start : ℕ} {bs : Bytes}
    (hin : start + bs.length ≤ buf.currentDataPointer) :
    Wf { buf with bytes := splice buf.bytes start bs } ∧
      toArena { buf with bytes := RsProperties.splice buf.bytes start bs } =
        { buf.toArena with data := writeBytes buf.toArena.data start bs } := by
  have hb : start + bs.length ≤ buf.bytes.length := hin.trans h.covered
  refine ⟨⟨?_, ?_, h.aligned, h.lt⟩, ?_⟩
  · rw [length_splice hb]
    exact h.whole
  · rw [length_splice hb]
    exact h.covered
  · simp only [toArena, TrieNodeArena.mk.injEq, and_true]
    exact funext (getD_splice hb)

/-! ### The operations -/

section Operations

variable {buf : ArenaBuffer}

/-- Growing keeps the bytes and fills up with zeros. -/
theorem getD_resize {bytes : Bytes} {words : ℕ} (h : bytes.length ≤ 4 * words) (i : ℕ) :
    (resize words bytes).getD i 0 = bytes.getD i 0 := by
  rw [resize, List.take_of_length_le h]
  simp only [List.getD_eq_getElem?_getD]
  rcases Nat.lt_or_ge i bytes.length with hi | hi
  · rw [List.getElem?_append_left hi]
  · rw [List.getElem?_append_right hi, List.getElem?_eq_none hi, List.getElem?_replicate]
    split_ifs <;> rfl

/-- **`allocate_data`** fails without a trace or advances the extent over zero-extended bytes that stay as
they were, whether or not the buffer had to grow. -/
theorem allocateData_spec (h : Wf buf) (size : ℕ) :
    (∃ msg, allocateData size buf = .error (.error (.fileValidation msg)) buf ∧
      TrieNodeArena.allocateData size buf.toArena = .error (.fileValidation msg) buf.toArena) ∨
    (∃ buf', allocateData size buf = .ok buf.currentDataPointer buf' ∧ Wf buf' ∧
      buf'.toArena =
        { buf.toArena with size := buf.currentDataPointer + bionicAlign size 4 } ∧
      TrieNodeArena.allocateData size buf.toArena = .ok buf.currentDataPointer buf'.toArena) := by
  have hmod := bionicAlign_four_mod size
  have hmax : usizeMax = 2 ^ 64 - 1 := rfl
  obtain ⟨hwhole, hcov, hal, -⟩ := h
  unfold allocateData TrieNodeArena.allocateData
  by_cases hfit : buf.currentDataPointer + bionicAlign size 4 < 2 ^ 32
  · refine .inr ?_
    simp only [toArena, hfit, if_true]
    rw [if_neg (by omega)]
    by_cases hgrow : buf.bytes.length < buf.currentDataPointer + bionicAlign size 4
    · rw [if_pos hgrow]
      generalize htarget : max (buf.currentDataPointer + bionicAlign size 4)
        (min usizeMax (buf.bytes.length * 2)) = target
      have hle : buf.bytes.length ≤ 4 * ((target + 3) / 4) := by omega
      refine ⟨_, rfl, ⟨?_, ?_, ?_, hfit⟩, ?_, ?_⟩
      · simp only [resize, List.take_of_length_le hle, List.length_append, List.length_replicate]
        omega
      · simp only [resize, List.take_of_length_le hle, List.length_append, List.length_replicate]
        omega
      · show (buf.currentDataPointer + bionicAlign size 4) % 4 = 0
        omega
      · simp only [TrieNodeArena.mk.injEq, and_true]
        exact funext (getD_resize hle)
      · simp only [EStateM.Result.ok.injEq, TrieNodeArena.mk.injEq, and_true, true_and]
        exact (funext (getD_resize hle)).symm
    · rw [if_neg hgrow]
      exact ⟨_, rfl, ⟨hwhole, Nat.not_lt.mp hgrow, by dsimp only; omega, hfit⟩, rfl, rfl⟩
  · refine .inl ⟨_, by rw [if_pos (.inr (Nat.not_lt.mp hfit))], ?_⟩
    simp only [toArena, hfit, if_false]

/-- `get_object` inside the extent. -/
theorem getObject_eq_ok (h : Wf buf) {size align offset : ℕ}
    (hin : offset + size ≤ buf.currentDataPointer) (hal : offset % align = 0) :
    getObject size align offset buf = .ok (slice buf.toArena.data offset size) buf := by
  have hlt := h.lt
  have hcov := h.covered
  have hmin : min usizeMax (offset + size) = offset + size := by
    have hmax : usizeMax = 2 ^ 64 - 1 := rfl
    omega
  unfold getObject
  rw [hmin, if_neg (by omega), if_neg (by omega), if_neg (by simp [hal]),
    take_drop_eq_slice (by omega)]

/-- `get_object` past the extent fails, whatever the buffer holds there. -/
theorem getObject_past (h : Wf buf) {size align offset : ℕ}
    (hpast : buf.currentDataPointer < offset + size) :
    ∃ msg, getObject size align offset buf = .error (.error (.fileValidation msg)) buf := by
  have hlt := h.lt
  have hstop : buf.currentDataPointer < min usizeMax (offset + size) := by
    have hmax : usizeMax = 2 ^ 64 - 1 := rfl
    omega
  exact ⟨_, by unfold getObject; rw [if_pos hstop]⟩

/-- `get_object` at an offset that is not a multiple of the alignment. -/
theorem getObject_misaligned (h : Wf buf) {size align offset : ℕ}
    (hin : offset + size ≤ buf.currentDataPointer) (hal : offset % align ≠ 0) :
    ∃ msg, getObject size align offset buf = .error (.error (.fileValidation msg)) buf := by
  have hlt := h.lt
  have hcov := h.covered
  have hmin : min usizeMax (offset + size) = offset + size := by
    have hmax : usizeMax = 2 ^ 64 - 1 := rfl
    omega
  unfold getObject
  rw [hmin, if_neg (by omega), if_neg (by omega), if_pos (.inr hal)]
  exact ⟨_, rfl⟩

theorem uint32Array_eq_ok (h : Wf buf) {offset len : ℕ}
    (hin : offset + len * 4 ≤ buf.currentDataPointer) (hal : offset % 4 = 0) :
    uint32Array offset len buf = .ok (slice buf.toArena.data offset (len * 4)) buf := by
  have hlt := h.lt
  have hcov := h.covered
  have hmax : usizeMax = 2 ^ 64 - 1 := rfl
  unfold uint32Array
  rw [if_neg (by omega), if_neg (by omega), if_neg (by omega), if_neg (by omega), if_neg (by omega),
    take_drop_eq_slice (by omega)]

theorem uint32Array_past {offset len : ℕ}
    (hpast : buf.currentDataPointer < offset + len * 4) :
    ∃ msg, uint32Array offset len buf = .error (.error (.fileValidation msg)) buf := by
  unfold uint32Array
  split_ifs <;> exact ⟨_, rfl⟩

theorem uint32Array_misaligned (h : Wf buf) {offset len : ℕ}
    (hin : offset + len * 4 ≤ buf.currentDataPointer) (hal : offset % 4 ≠ 0) :
    ∃ msg, uint32Array offset len buf = .error (.error (.fileValidation msg)) buf := by
  have hlt := h.lt
  have hcov := h.covered
  have hmax : usizeMax = 2 ^ 64 - 1 := rfl
  unfold uint32Array
  rw [if_neg (by omega), if_neg (by omega), if_neg (by omega), if_neg (by omega), if_pos hal]
  exact ⟨_, rfl⟩

/-- A copy inside the extent. -/
theorem copyFromSlice_run (h : Wf buf) (start : ℕ) (bs : Bytes)
    (hin : start + bs.length ≤ buf.currentDataPointer) :
    ∃ buf', copyFromSlice start bs buf = .ok () buf' ∧ Wf buf' ∧
      buf'.toArena = { buf.toArena with data := writeBytes buf.toArena.data start bs } := by
  obtain ⟨hwf, harena⟩ := h.splice hin
  have hcov := h.covered
  exact ⟨_, by unfold copyFromSlice; rw [if_neg (by omega)], hwf, harena⟩

/-- A copy into a fresh allocation. -/
theorem allocated_copy {buf' : ArenaBuffer} {size : ℕ} (hwf : Wf buf')
    (harena : buf'.toArena =
      { buf.toArena with size := buf.currentDataPointer + bionicAlign size 4 })
    (start : ℕ) (bs : Bytes) (hin : start + bs.length ≤ buf.currentDataPointer + size) :
    ∃ buf'', copyFromSlice start bs buf' = .ok () buf'' ∧ Wf buf'' ∧
      buf''.toArena = ⟨writeBytes buf.toArena.data start bs,
        buf.currentDataPointer + bionicAlign size 4⟩ := by
  have hle := le_bionicAlign_four size
  have hsize : buf'.currentDataPointer = buf.currentDataPointer + bionicAlign size 4 :=
    congrArg TrieNodeArena.size harena
  obtain ⟨buf'', hr, hwf', harena'⟩ := copyFromSlice_run hwf start bs (by omega)
  refine ⟨buf'', hr, hwf', ?_⟩
  rw [harena', harena]

theorem allocateAndWriteString_spec (h : Wf buf) (string : Bytes) :
    (∃ msg, allocateAndWriteString string buf = .error (.error (.fileValidation msg)) buf ∧
      TrieNodeArena.allocateAndWriteString string buf.toArena =
        .error (.fileValidation msg) buf.toArena) ∨
    (∃ buf', allocateAndWriteString string buf = .ok buf.currentDataPointer buf' ∧ Wf buf' ∧
      buf'.toArena = ⟨writeBytes buf.toArena.data buf.currentDataPointer (string ++ [0]),
        buf.currentDataPointer + bionicAlign (string.length + 1) 4⟩ ∧
      TrieNodeArena.allocateAndWriteString string buf.toArena =
        .ok buf.currentDataPointer buf'.toArena) := by
  rcases allocateData_spec h (string.length + 1) with ⟨msg, hr, hy⟩ | ⟨buf1, hr, hwf1, harena1, hy⟩
  · exact .inl ⟨msg, bind_error hr, bind_error hy⟩
  have hle := le_bionicAlign_four (string.length + 1)
  obtain ⟨buf2, hr2, hwf2, harena2⟩ := allocated_copy hwf1 harena1
    buf.currentDataPointer string (by omega)
  have hsize2 : buf2.currentDataPointer = buf.currentDataPointer + bionicAlign (string.length + 1) 4 :=
    congrArg TrieNodeArena.size harena2
  obtain ⟨buf3, hr3, hwf3, harena3⟩ := copyFromSlice_run hwf2
    (buf.currentDataPointer + string.length) [0] (by
      rw [hsize2, List.length_singleton]
      omega)
  have harena : buf3.toArena = ⟨writeBytes buf.toArena.data buf.currentDataPointer (string ++ [0]),
      buf.currentDataPointer + bionicAlign (string.length + 1) 4⟩ := by
    rw [harena3, harena2, ← writeBytes_append]
  refine .inr ⟨buf3, ?_, hwf3, harena, ?_⟩
  · rw [allocateAndWriteString, bind_ok hr, bind_ok hr2, bind_ok hr3]
    rfl
  · rw [TrieNodeArena.allocateAndWriteString, bind_ok hy, harena, harena1]
    rfl

theorem allocateAndWriteUint32_spec (h : Wf buf) (value : UInt32) :
    (∃ msg, allocateAndWriteUint32 value buf = .error (.error (.fileValidation msg)) buf ∧
      TrieNodeArena.allocateAndWriteUint32 value.toNat buf.toArena =
        .error (.fileValidation msg) buf.toArena) ∨
    (∃ buf', allocateAndWriteUint32 value buf = .ok () buf' ∧ Wf buf' ∧
      buf'.toArena = ⟨writeBytes buf.toArena.data buf.currentDataPointer (u32le value.toNat),
        buf.currentDataPointer + bionicAlign 4 4⟩ ∧
      TrieNodeArena.allocateAndWriteUint32 value.toNat buf.toArena = .ok () buf'.toArena) := by
  rcases allocateData_spec h 4 with ⟨msg, hr, hy⟩ | ⟨buf1, hr, hwf1, harena1, hy⟩
  · exact .inl ⟨msg, bind_error hr, bind_error hy⟩
  obtain ⟨buf2, hr2, hwf2, harena2⟩ := allocated_copy hwf1 harena1
    buf.currentDataPointer (u32le value.toNat) (by simp)
  refine .inr ⟨buf2, (bind_ok hr).trans hr2, hwf2, harena2, ?_⟩
  rw [TrieNodeArena.allocateAndWriteUint32, bind_ok hy, harena2, harena1]
  rfl

theorem wordBytes_cons (v : UInt32) (vs : List UInt32) :
    wordBytes (v :: vs) = u32le v.toNat ++ wordBytes vs := rfl

theorem length_wordBytes (values : List UInt32) : (wordBytes values).length = values.length * 4 := by
  induction values with
  | nil => rfl
  | cons v vs ih =>
    rw [wordBytes_cons, List.length_append, length_u32le, ih, List.length_cons]
    omega

/-- Writing an object: the accessor's error, or the store. -/
theorem writeObject_spec (h : Wf buf) (align offset : ℕ) (value : Bytes) :
    (∃ msg, writeObject align offset value buf = .error (.error (.fileValidation msg)) buf) ∨
    (offset + value.length ≤ buf.size ∧ writeObject align offset value buf =
      .ok () { buf with bytes := splice buf.bytes offset value }) := by
  by_cases hin : offset + value.length ≤ buf.currentDataPointer
  · by_cases hal : offset % align = 0
    · exact .inr ⟨hin, (bind_ok (getObject_eq_ok h hin hal)).trans rfl⟩
    · obtain ⟨msg, hr⟩ := getObject_misaligned h hin hal
      exact .inl ⟨msg, bind_error hr⟩
  · obtain ⟨msg, hr⟩ := getObject_past h (Nat.not_le.mp hin)
    exact .inl ⟨msg, bind_error hr⟩

/-- Writing an array: the accessor's error, or the store. -/
theorem writeUint32Array_spec (h : Wf buf) (offset : ℕ) (values : List UInt32) :
    (∃ msg, writeUint32Array offset values buf = .error (.error (.fileValidation msg)) buf) ∨
    (offset + (wordBytes values).length ≤ buf.size ∧ writeUint32Array offset values buf =
      .ok () { buf with bytes := splice buf.bytes offset (wordBytes values) }) := by
  rw [length_wordBytes]
  by_cases hin : offset + values.length * 4 ≤ buf.currentDataPointer
  · by_cases hal : offset % 4 = 0
    · exact .inr ⟨hin, (bind_ok (uint32Array_eq_ok h hin hal)).trans rfl⟩
    · obtain ⟨msg, hr⟩ := uint32Array_misaligned h hin hal
      exact .inl ⟨msg, bind_error hr⟩
  · obtain ⟨msg, hr⟩ := uint32Array_past (Nat.not_le.mp hin)
    exact .inl ⟨msg, bind_error hr⟩

end Operations

/-! ### The serializer's arena -/

/-- An operation on the buffer never panics and does what the serializer's arena does, errors included. -/
def Refines {α : Type} (x : BufferM α) (y : ArenaM α) : Prop := ∀ buf, Wf buf →
  (∃ e, x buf = .error (.error e) buf ∧ y buf.toArena = .error e buf.toArena) ∨
  (∃ a buf', x buf = .ok a buf' ∧ Wf buf' ∧ y buf.toArena = .ok a buf'.toArena)

theorem refines_allocateData (size : ℕ) :
    Refines (allocateData size) (TrieNodeArena.allocateData size) := fun buf h => by
  rcases allocateData_spec h size with ⟨msg, hr, hy⟩ | ⟨buf', hr, hwf, -, hy⟩
  · exact .inl ⟨_, hr, hy⟩
  · exact .inr ⟨_, buf', hr, hwf, hy⟩

theorem refines_allocateUint32Array (length : ℕ) :
    Refines (allocateUint32Array length) (TrieNodeArena.allocateUint32Array length) := by
  unfold allocateUint32Array TrieNodeArena.allocateUint32Array
  split_ifs with hov
  · exact fun buf h => .inl ⟨_, rfl, rfl⟩
  · exact refines_allocateData (length * 4)

theorem refines_allocateAndWriteString (string : Bytes) :
    Refines (allocateAndWriteString string) (TrieNodeArena.allocateAndWriteString string) :=
  fun buf h => by
    rcases allocateAndWriteString_spec h string with ⟨msg, hr, hy⟩ | ⟨buf', hr, hwf, -, hy⟩
    · exact .inl ⟨_, hr, hy⟩
    · exact .inr ⟨_, buf', hr, hwf, hy⟩

theorem refines_allocateAndWriteUint32 (value : UInt32) :
    Refines (allocateAndWriteUint32 value) (TrieNodeArena.allocateAndWriteUint32 value.toNat) :=
  fun buf h => by
    rcases allocateAndWriteUint32_spec h value with ⟨msg, hr, hy⟩ | ⟨buf', hr, hwf, -, hy⟩
    · exact .inl ⟨_, hr, hy⟩
    · exact .inr ⟨_, buf', hr, hwf, hy⟩

/-- Consecutive words are stored as their bytes. -/
theorem writeWords_eq (m : Mem) (a : ℕ) (values : List UInt32) :
    writeWords m a (values.map UInt32.toNat) = writeBytes m a (wordBytes values) := by
  induction values generalizing m a with
  | nil => exact (writeBytes_nil m a).symm
  | cons v vs ih =>
    rw [List.map_cons, writeWords, ih, wordBytes_cons, writeBytes_append, length_u32le]
    rfl

theorem refines_writeUint32Array (offset : ℕ) (values : List UInt32) :
    Refines (writeUint32Array offset values)
      (TrieNodeArena.writeUint32Array offset (values.map UInt32.toNat)) := fun buf h => by
  have hcov := h.covered
  have hlen := length_wordBytes values
  unfold TrieNodeArena.writeUint32Array
  simp only [List.length_map]
  by_cases h1 : usizeMax < values.length * 4
  · exact .inl ⟨_, bind_error (by unfold uint32Array; rw [if_pos h1]), by rw [if_pos h1]⟩
  by_cases h2 : usizeMax < offset + values.length * 4
  · exact .inl ⟨_, bind_error (by unfold uint32Array; rw [if_neg h1, if_pos h2]),
      by rw [if_neg h1, if_pos h2]⟩
  by_cases h3 : buf.currentDataPointer < offset + values.length * 4
  · exact .inl ⟨_, bind_error (by unfold uint32Array; rw [if_neg h1, if_neg h2, if_pos h3]),
      by rw [if_neg h1, if_neg h2, if_pos (show buf.toArena.size < _ from h3)]; rfl⟩
  by_cases h4 : offset % 4 ≠ 0
  · exact .inl ⟨_, bind_error (by
        unfold uint32Array; rw [if_neg h1, if_neg h2, if_neg h3, if_neg (by omega), if_pos h4]),
      by rw [if_neg h1, if_neg h2, if_neg (show ¬ buf.toArena.size < _ from h3), if_pos h4]⟩
  have hin : offset + (wordBytes values).length ≤ buf.currentDataPointer := by omega
  obtain ⟨hwf, harena⟩ := h.splice hin
  have hok := uint32Array_eq_ok h (Nat.not_lt.mp h3) (not_not.mp h4)
  refine .inr ⟨(), _, (bind_ok hok).trans rfl, hwf, ?_⟩
  rw [if_neg h1, if_neg h2, if_neg (show ¬ buf.toArena.size < _ from h3), if_neg h4, writeWords_eq,
    harena]

/-- Storing a range back into the memory it was read from. -/
theorem writeBytes_slice (m : Mem) (a n : ℕ) : writeBytes m a (slice m a n) = m := by
  induction n generalizing a with
  | zero => exact writeBytes_nil m a
  | succ n ih =>
    have h1 : writeBytes m a [m a] = m := by
      funext i
      rcases lt_trichotomy i a with hi | rfl | hi
      · exact writeBytes_of_lt hi
      · simp [writeBytes]
      · exact writeBytes_of_le (by rw [List.length_singleton]; omega)
    rw [slice_succ, writeBytes_cons, h1, ih]

/-- Replacing a part of a range is a store of that part. -/
theorem writeBytes_splice_slice (m : Mem) (a : ℕ) {n start : ℕ} {bs : Bytes}
    (h : start + bs.length ≤ n) :
    writeBytes m a (splice (slice m a n) start bs) = writeBytes m (a + start) bs := by
  have htake : (slice m a n).take start = slice m a start := by
    rw [slice, ← List.map_take, List.take_range, min_eq_left (by omega), slice]
  have hdrop : (slice m a n).drop (start + bs.length) =
      slice m (a + start + bs.length) (n - (start + bs.length)) := by
    refine List.ext_getElem (by simp) fun i h1 h2 => ?_
    simp only [slice, List.getElem_drop, List.getElem_map, List.getElem_range]
    exact congrArg m (by omega)
  have hkeep : slice (writeBytes m (a + start) bs) (a + start + bs.length) (n - (start + bs.length)) =
      slice m (a + start + bs.length) (n - (start + bs.length)) :=
    slice_congr (sameOn_writeBytes (.inr le_rfl))
  rw [splice, htake, hdrop, List.append_assoc, writeBytes_append, writeBytes_slice, length_slice,
    writeBytes_append, ← hkeep, writeBytes_slice]

/-- Assigning a field of an object writes the object back with the field's bytes replaced. -/
theorem refines_setField {size field : ℕ} (hf : field + 4 ≤ size) (offset value : ℕ) :
    Refines (do
        let object ← getObject size 4 offset
        writeObject 4 offset (splice object field (u32le value)))
      (TrieNodeArena.setField size offset field value) := fun buf h => by
  have hlt := h.lt
  have hcov := h.covered
  have hmax : usizeMax = 2 ^ 64 - 1 := rfl
  unfold TrieNodeArena.setField
  by_cases h1 : buf.currentDataPointer < offset + size
  · have h1' : buf.currentDataPointer < min usizeMax (offset + size) := by omega
    refine .inl ⟨_, bind_error (by unfold getObject; rw [if_pos h1']), bind_error ?_⟩
    unfold TrieNodeArena.getObject
    rw [if_pos (show buf.toArena.size < _ from h1)]
    rfl
  have hmin : min usizeMax (offset + size) = offset + size := by omega
  by_cases h2 : offset % 4 ≠ 0
  · refine .inl ⟨_, bind_error (by
      unfold getObject; rw [hmin, if_neg h1, if_neg (by omega), if_pos (.inr h2)]), bind_error ?_⟩
    unfold TrieNodeArena.getObject
    rw [if_neg (show ¬ buf.toArena.size < _ from h1), if_pos h2]
  have hget := getObject_eq_ok h (Nat.not_lt.mp h1) (not_not.mp h2)
  have hlen : (splice (slice buf.toArena.data offset size) field (u32le value)).length = size := by
    rw [length_splice (by simpa using hf), length_slice]
  have hin : offset + (splice (slice buf.toArena.data offset size) field (u32le value)).length ≤
      buf.currentDataPointer := by rw [hlen]; omega
  obtain ⟨hwf, harena⟩ := h.splice hin
  have hput := getObject_eq_ok h hin (not_not.mp h2)
  refine .inr ⟨(), _, (bind_ok hget).trans ((bind_ok hput).trans rfl), hwf, ?_⟩
  have hy : TrieNodeArena.getObject size offset buf.toArena = .ok () buf.toArena := by
    unfold TrieNodeArena.getObject
    rw [if_neg (show ¬ buf.toArena.size < _ from h1), if_neg h2]
  rw [bind_ok hy, harena, writeBytes_splice_slice _ _ (by simpa using hf)]
  rfl

end ArenaBuffer

end RsProperties
