import RsProperties.PropertyArea.MemoryMap
import Mathlib.Data.Nat.Bitwise

/-!
# Property entries

An entry (`PropertyInfo`) occupies 96 bytes: the serial word, then the union of the value slot of
`propValueMax` bytes and the long-property header (a 56-byte error text followed by the relative
offset of the out-of-line value). The name trails the entry. All functions here take the memory and
the entry's address.

The serial word carries the value length in its top byte, the dirty bit in bit 0, `longFlag` in bit
16 and an update counter in the other low bits. `CleanSerial` is the shape every published serial of
a short entry has, and `nextSerial_clean` is the arithmetic behind `apply_write` keeping it.
-/

namespace RsProperties

open ByteMem

/-- The text a legacy reader finds in the value slot of a long entry. -/
def longLegacyError : Bytes := ascii "Must use __system_property_read_callback() to read"

def longFlag : ℕ := 1 <<< 16

def longLegacyErrorBufferSize : ℕ := 56

/-- Counter bits of the serial: bits 0..24 without `longFlag`. -/
def serialCounterMask : ℕ := 0x00feffff

/-- `size_of::<PropertyInfo>()`. -/
def propertyInfoSize : ℕ := 4 + propValueMax

/-- `serial_dirty`. -/
def serialDirty (serial : ℕ) : Bool := serial &&& 1 != 0

namespace PropertyInfo

/-- The serial word of the entry at `a`. -/
def serial (m : Mem) (a : ℕ) : ℕ := readU32 m a

def isLong (m : Mem) (a : ℕ) : Bool := serial m a &&& longFlag != 0

/-- `error_bytes_padded`: cut or zero-padded to the buffer size. -/
def errorBytesPadded (n : ℕ) (src : Bytes) : Bytes :=
  src.take (min src.length n) ++ List.replicate (n - min src.length n) 0

/-- `init_with_long_offset`: the serial, the padded error text, the relative offset. -/
def initWithLongOffset (m : Mem) (a offset : ℕ) : Mem :=
  let m := writeU32 m a (longLegacyError.length <<< 24 ||| longFlag)
  let m := writeBytes m (a + 4) (errorBytesPadded longLegacyErrorBufferSize longLegacyError)
  writeU32 m (a + 4 + longLegacyErrorBufferSize) offset

/-- `write_value_atomic` and `init_value_bytes`: the value cut to the slot, then its NUL. -/
def writeValue (m : Mem) (a : ℕ) (bytes : Bytes) : Mem :=
  writeBytes m (a + 4) (bytes.take (min bytes.length (propValueMax - 1)) ++ [0])

/-- `init_with_value`: the serial of the stored length, then the value. -/
def initWithValue (m : Mem) (a : ℕ) (value : Bytes) : Mem :=
  writeValue (writeU32 m a ((min value.length (propValueMax - 1)) <<< 24)) a value

/-- `short_value_bytes`: the slot up to its first NUL. -/
def shortValueBytes (m : Mem) (a : ℕ) : Bytes := scan m (a + 4) propValueMax

def longOffset (m : Mem) (a : ℕ) : Except Error ℕ :=
  if !isLong m a then
    .error (.invalidArgument "long_offset called on a short property entry")
  else .ok (readU32 m (a + 4 + longLegacyErrorBufferSize))

/-- The serial published while an update is under way. -/
def dirtySerial (current : ℕ) : ℕ := current ||| 1

/-- The serial published when an update to a value of `len` bytes is done. -/
def nextSerial (len current : ℕ) : ℕ :=
  len <<< 24 ||| ((dirtySerial current + 1) % 2 ^ 32 &&& serialCounterMask)

/-- `apply_write`: dirty serial, value bytes, clean serial. Returns the published serial and the
memory. -/
def applyWrite (m : Mem) (a : ℕ) (value : Bytes) : Except Error (ℕ × Mem) :=
  let current := serial m a
  if current &&& longFlag != 0 then
    .error (.invalidArgument
      s!"in-place update of long property is not supported (serial={hex current})")
  else if value.length ≥ propValueMax then
    .error (.invalidArgument s!"Value too long: {value.length} (max: {propValueMax - 1})")
  else
    let newSerial := nextSerial value.length current
    let m := writeU32 m a (dirtySerial current)
    let m := writeValue m a value
    .ok (newSerial, writeU32 m a newSerial)

/-! ### Serial arithmetic -/

/-- A published serial of a short entry with a value of `len` bytes: even, `longFlag` clear, the
length in the top byte. -/
structure CleanSerial (s len : ℕ) : Prop where
  even : s % 2 = 0
  short : s / 2 ^ 16 % 2 = 0
  len_eq : s / 2 ^ 24 = len

theorem and_longFlag (s : ℕ) : s &&& longFlag = s / 2 ^ 16 % 2 * 2 ^ 16 := by
  have h : longFlag = 2 ^ 16 := by decide
  rw [h, Nat.and_two_pow]
  rw [Nat.testBit_eq_decide_div_mod_eq]
  rcases Nat.mod_two_eq_zero_or_one (s / 2 ^ 16) with h | h <;> rw [h] <;> rfl

theorem serialDirty_eq (s : ℕ) : serialDirty s = decide (s % 2 = 1) := by
  rw [serialDirty, Nat.and_one_is_mod]
  rcases Nat.mod_two_eq_zero_or_one s with h | h <;> simp [h]

theorem CleanSerial.not_long {s len : ℕ} (h : CleanSerial s len) : s &&& longFlag = 0 := by
  rw [and_longFlag, h.short, Nat.zero_mul]

theorem CleanSerial.not_dirty {s len : ℕ} (h : CleanSerial s len) : serialDirty s = false := by
  simp [serialDirty_eq, h.even]

theorem dirtySerial_of_even {s : ℕ} (h : s % 2 = 0) : dirtySerial s = s + 1 := by
  have hd : 2 ^ 1 * (s / 2) = s := by omega
  have := Nat.two_pow_add_eq_or_of_lt (i := 1) (show 1 < 2 ^ 1 by decide) (s / 2)
  rw [hd] at this
  exact this.symm

theorem and_serialCounterMask_mod (x : ℕ) : (x &&& serialCounterMask) % 2 ^ 16 = x % 2 ^ 16 := by
  have h : serialCounterMask % 2 ^ 16 = 2 ^ 16 - 1 := by decide
  rw [Nat.and_mod_two_pow, h, Nat.and_two_pow_sub_one_eq_mod, Nat.mod_mod]

theorem and_serialCounterMask_lt (x : ℕ) : (x &&& serialCounterMask) < 2 ^ 24 :=
  lt_of_le_of_lt Nat.and_le_right (by decide)

theorem and_serialCounterMask_bit (x : ℕ) : (x &&& serialCounterMask) / 2 ^ 16 % 2 = 0 := by
  have h : (x &&& serialCounterMask).testBit 16 = false := by
    rw [Nat.testBit_and, show serialCounterMask.testBit 16 = false by decide, Bool.and_false]
  rw [Nat.testBit_eq_decide_div_mod_eq] at h
  have := of_decide_eq_false h
  omega

/-- The serial an update publishes, as a sum of its length field and its counter field. -/
theorem nextSerial_eq (len s : ℕ) :
    nextSerial len s =
      len * 2 ^ 24 + ((dirtySerial s + 1) % 2 ^ 32 &&& serialCounterMask) := by
  rw [nextSerial, ← Nat.shiftLeft_add_eq_or_of_lt (and_serialCounterMask_lt _), Nat.shiftLeft_eq]

/-- **`apply_write` keeps the serial's shape**, with the length field of the new value. -/
theorem nextSerial_clean {s old : ℕ} (h : CleanSerial s old) (len : ℕ) :
    CleanSerial (nextSerial len s) len := by
  have hlt := and_serialCounterMask_lt ((s + 1 + 1) % 2 ^ 32)
  have hlow := and_serialCounterMask_mod ((s + 1 + 1) % 2 ^ 32)
  have hbit := and_serialCounterMask_bit ((s + 1 + 1) % 2 ^ 32)
  have he := h.even
  constructor <;> rw [nextSerial_eq, dirtySerial_of_even he] <;> omega

/-- The low 16 bits of the serial are the effective update counter: one update adds 2 modulo
`2 ^ 16`, the carry into bit 16 being masked out. -/
theorem nextSerial_low {s old : ℕ} (h : CleanSerial s old) (len : ℕ) :
    nextSerial len s % 2 ^ 16 = (s + 2) % 2 ^ 16 := by
  have hlow := and_serialCounterMask_mod ((s + 1 + 1) % 2 ^ 32)
  rw [nextSerial_eq, dirtySerial_of_even h.even]
  omega

/-- The counter bits of a serial are those below `longFlag` and those above it. -/
theorem and_serialCounterMask (x : ℕ) :
    x &&& serialCounterMask = x / 2 ^ 17 % 2 ^ 7 * 2 ^ 17 + x % 2 ^ 16 := by
  have hlow := and_serialCounterMask_mod x
  have hbit := and_serialCounterMask_bit x
  have hhigh : (x &&& serialCounterMask) / 2 ^ 17 = x / 2 ^ 17 % 2 ^ 7 := by
    have hmask : serialCounterMask >>> 17 = 2 ^ 7 - 1 := by decide
    rw [← Nat.shiftRight_eq_div_pow, Nat.shiftRight_and_distrib, hmask,
      Nat.and_two_pow_sub_one_eq_mod, Nat.shiftRight_eq_div_pow]
  omega

/-- Nothing ever reaches the counter bits above `longFlag`. -/
theorem nextSerial_high {s old : ℕ} (h : CleanSerial s old) (len : ℕ) :
    nextSerial len s / 2 ^ 17 % 2 ^ 7 = s / 2 ^ 17 % 2 ^ 7 := by
  have he := h.even
  have hs := h.short
  rw [nextSerial_eq, dirtySerial_of_even he, and_serialCounterMask]
  omega

theorem nextSerial_lt {len s : ℕ} (h : len < 2 ^ 8) : nextSerial len s < 2 ^ 32 := by
  have hlt := and_serialCounterMask_lt ((dirtySerial s + 1) % 2 ^ 32)
  rw [nextSerial_eq]
  omega

theorem initSerial_clean {len : ℕ} : CleanSerial (len <<< 24) len := by
  rw [Nat.shiftLeft_eq]
  exact ⟨by omega, by omega, by omega⟩

end PropertyInfo

end RsProperties
