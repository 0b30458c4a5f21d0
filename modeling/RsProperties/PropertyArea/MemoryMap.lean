import RsProperties.Wire
import RsProperties.Library.StateExcept

/-!
# The memory mapping and its checked accessors

`MemoryMap` is a mapped file: its bytes, its length and whether it was mapped writable. Every access
of the crate goes through one of the checked accessors below, which turn an offset relative to a base
into an absolute address or a typed error. A reference handed out by the source (`&T`, `&[u8]`) is
modelled by the address it points to.

The mapping's base address is page-aligned, so an alignment check is one on the offset alone.
-/

namespace RsProperties

open ByteMem

/-- The largest `usize`. -/
def usizeMax : ℕ := 2 ^ 64 - 1

/-- `bionic_align`: round up to a multiple of a power of two. The source's overflow panic needs a
string of `usize::MAX` bytes, which no Rust allocation reaches. -/
def bionicAlign (value alignment : ℕ) : ℕ := (value + (alignment - 1)) / alignment * alignment

/-- A mapped file. -/
structure MemoryMap where
  data : Mem
  size : ℕ
  writable : Bool

namespace MemoryMap

variable (mm : MemoryMap)

def requireWritable : Except Error Unit :=
  if !mm.writable then
    .error (.permissionDenied "attempted mutable access to a read-only property mapping")
  else .ok ()

def checkedOffset (offset base : ℕ) : Except Error ℕ :=
  if offset + base ≤ usizeMax then .ok (offset + base)
  else .error (.fileValidation s!"Offset overflow: {offset} + {base}")

def checkSize (offset size : ℕ) : Except Error Unit :=
  if usizeMax < offset + size then
    .error (.fileValidation s!"Size overflow: {offset} + {size}")
  else if mm.size < offset + size then
    .error (.fileValidation s!"Invalid offset: {offset + size} > {mm.size}")
  else .ok ()

def checkAlignment (align offset : ℕ) : Except Error Unit :=
  if offset % align ≠ 0 then
    .error (.fileValidation s!"Misaligned object at offset {offset}: required align={align}")
  else .ok ()

/-- `data`: the address of `size` readable bytes. -/
def dataAt (offset base size : ℕ) : Except Error ℕ := do
  let offset ← checkedOffset offset base
  mm.checkSize offset size
  return offset

/-- `data_mut`. -/
def dataMut (offset base size : ℕ) : Except Error ℕ := do
  mm.requireWritable
  mm.dataAt offset base size

/-- `to_object::<T>` for a `T` of the given size and alignment: the address of the object. -/
def toObject (size align offset base : ℕ) : Except Error ℕ := do
  let offset ← checkedOffset offset base
  mm.checkSize offset size
  checkAlignment align offset
  return offset

/-- `to_object_mut::<T>`. -/
def toObjectMut (size align offset base : ℕ) : Except Error ℕ := do
  mm.requireWritable
  mm.toObject size align offset base

/-- `atomic_data`: the byte-wise atomic view of a range; the checks are those of `data`. -/
def atomicData (offset base size : ℕ) : Except Error ℕ := mm.dataAt offset base size

/-- `cstr_at`: the NUL-terminated string at an offset, the scan bounded by the mapping. -/
def cstrAt (offset base : ℕ) : Except Error Bytes := do
  let offset ← checkedOffset offset base
  if mm.size < offset then
    .error (.fileValidation s!"Offset past mmap: {offset} > {mm.size}")
  else
    let start ← mm.atomicData offset 0 (mm.size - offset)
    match cstr mm.data start (mm.size - offset) with
    | none => .error (.fileValidation s!"No NUL terminator at offset {offset}")
    | some s => .ok s

end MemoryMap

/-! ### The accessors inside the mapping -/

theorem bionicAlign_four (n : ℕ) : bionicAlign n 4 = (n + 3) / 4 * 4 := rfl

theorem le_bionicAlign_four (n : ℕ) : n ≤ bionicAlign n 4 := by
  rw [bionicAlign_four]
  omega

theorem bionicAlign_four_mod (n : ℕ) : bionicAlign n 4 % 4 = 0 := by
  rw [bionicAlign_four]
  omega

namespace MemoryMap

open StateExcept

variable {mm : MemoryMap}

theorem checkedOffset_eq_ok {offset base : ℕ} (h : offset + base ≤ usizeMax) :
    checkedOffset offset base = .ok (offset + base) := if_pos h

theorem checkSize_eq_ok {offset size : ℕ} (hm : mm.size ≤ usizeMax) (h : offset + size ≤ mm.size) :
    mm.checkSize offset size = .ok () := by
  unfold checkSize
  rw [if_neg (by omega), if_neg (by omega)]

/-- An in-range byte access succeeds. -/
theorem dataAt_eq_ok {offset base size : ℕ} (hm : mm.size ≤ usizeMax)
    (h : offset + base + size ≤ mm.size) : mm.dataAt offset base size = .ok (offset + base) := by
  simp only [dataAt, checkedOffset_eq_ok (show offset + base ≤ usizeMax by omega),
    checkSize_eq_ok hm h, bind, Except.bind, pure, Except.pure]

theorem dataMut_eq_ok {offset base size : ℕ} (hw : mm.writable = true) (hm : mm.size ≤ usizeMax)
    (h : offset + base + size ≤ mm.size) : mm.dataMut offset base size = .ok (offset + base) := by
  simp [dataMut, requireWritable, hw, dataAt_eq_ok hm h, bind, Except.bind]

/-- An in-range aligned object access succeeds. -/
theorem toObject_eq_ok {size align offset base : ℕ} (hm : mm.size ≤ usizeMax)
    (h : offset + base + size ≤ mm.size) (ha : (offset + base) % align = 0) :
    mm.toObject size align offset base = .ok (offset + base) := by
  simp only [toObject, checkedOffset_eq_ok (show offset + base ≤ usizeMax by omega),
    checkSize_eq_ok hm h, checkAlignment, ha, ne_eq, not_true_eq_false, if_false, bind, Except.bind,
    pure, Except.pure]

theorem toObjectMut_eq_ok {size align offset base : ℕ} (hw : mm.writable = true)
    (hm : mm.size ≤ usizeMax) (h : offset + base + size ≤ mm.size)
    (ha : (offset + base) % align = 0) :
    mm.toObjectMut size align offset base = .ok (offset + base) := by
  simp [toObjectMut, requireWritable, hw, toObject_eq_ok hm h ha, bind, Except.bind]

/-- The address of an access that passes the checks. -/
theorem dataAt_addr {offset base size a : ℕ} (h : mm.dataAt offset base size = .ok a) :
    a = offset + base := by
  obtain ⟨b, hb, h1⟩ := except_bind_eq_ok.mp h
  obtain ⟨-, -, h2⟩ := except_bind_eq_ok.mp h1
  rw [checkedOffset] at hb
  split_ifs at hb
  exact (Except.ok.inj h2).symm.trans (Except.ok.inj hb).symm

theorem dataMut_addr {offset base size a : ℕ} (h : mm.dataMut offset base size = .ok a) :
    a = offset + base := by
  obtain ⟨-, -, h1⟩ := except_bind_eq_ok.mp h
  exact dataAt_addr h1

theorem toObject_addr {size align offset base a : ℕ}
    (h : mm.toObject size align offset base = .ok a) : a = offset + base := by
  obtain ⟨b, hb, h1⟩ := except_bind_eq_ok.mp h
  obtain ⟨-, -, h2⟩ := except_bind_eq_ok.mp h1
  obtain ⟨-, -, h3⟩ := except_bind_eq_ok.mp h2
  rw [checkedOffset] at hb
  split_ifs at hb
  exact (Except.ok.inj h3).symm.trans (Except.ok.inj hb).symm

theorem toObjectMut_addr {size align offset base a : ℕ}
    (h : mm.toObjectMut size align offset base = .ok a) : a = offset + base := by
  obtain ⟨-, -, h1⟩ := except_bind_eq_ok.mp h
  exact toObject_addr h1

/-- Reading back a stored C string. -/
theorem cstrAt_eq_ok {offset base : ℕ} {s : Bytes} (hm : mm.size ≤ usizeMax)
    (hs : Holds mm.data (offset + base) (s ++ [0])) (h0 : 0 ∉ s)
    (h : offset + base + s.length < mm.size) : mm.cstrAt offset base = .ok s := by
  have hc : cstr mm.data (offset + base) (mm.size - (offset + base)) = some s :=
    cstr_of_holds hs h0 (by omega)
  have hd : mm.atomicData (offset + base) 0 (mm.size - (offset + base)) = .ok (offset + base) :=
    dataAt_eq_ok hm (by omega)
  simp only [cstrAt, checkedOffset_eq_ok (show offset + base ≤ usizeMax by omega), bind,
    Except.bind, if_neg (show ¬ mm.size < offset + base by omega), hd, hc]

end MemoryMap

end RsProperties
