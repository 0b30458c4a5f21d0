import RsProperties.Errors

/-!
# Wire constants and shared validators

The constants and the name/value policy shared by the client, the service and the store
(`wire.rs`). All validators work on bytes: the name loop of the source walks over characters, but
every character it accepts is a single ASCII byte and every byte of a multi-byte character is
refused, so the walk over bytes accepts the same names.
-/

namespace RsProperties

open ByteMem

/-- Size of the value buffer including its NUL. -/
def propValueMax : ℕ := 92

/-- Size of the fixed V1 name buffer including its NUL. -/
def propNameMax : ℕ := 32

/-- V1 SETPROP command word. -/
def propMsgSetprop : ℕ := 1

/-- V2 SETPROP command word. -/
def propMsgSetprop2 : ℕ := 0x00020001

/-- V2 success status. -/
def propSuccess : ℤ := 0

/-- V2 error status. -/
def propError : ℤ := -1

/-- Cap on the length of a name on the V2 wire. -/
def maxWireNameLen : ℕ := 1024

/-- Cap on the length of a value on the V2 wire. -/
def maxWireValueLen : ℕ := 8192

/-- The prefix that marks a write-once property. -/
def roPrefix : Bytes := ascii "ro."

/-- `name.starts_with("ro.")`. -/
def startsWithRo (name : Bytes) : Bool := roPrefix.isPrefixOf name

def rejectValueNul (value : Bytes) : Except Error Unit :=
  if value.contains 0 then .error (.invalidArgument "value must not contain NUL bytes") else .ok ()

/-- The value policy of `add`, the client and the service: NUL-free, and shorter than
`propValueMax` unless the name is a `ro.` name. -/
def validateValueLen (name value : Bytes) : Except Error Unit := do
  rejectValueNul value
  if value.length ≥ propValueMax && !startsWithRo name then
    .error (.invalidArgument
      s!"value too long: {value.length} bytes (max {propValueMax - 1} for non-'ro.' properties)")
  else .ok ()

/-- The value policy of in-place updates: no `ro.` exemption. -/
def validateShortValueLen (value : Bytes) : Except Error Unit := do
  rejectValueNul value
  if value.length ≥ propValueMax then
    .error (.invalidArgument
      s!"value too long: {value.length} bytes (max {propValueMax - 1} for an in-place update)")
  else .ok ()

def validateNoInteriorNul (kind : String) (s : Bytes) : Except Error Unit :=
  if s.contains 0 then
    .error (.invalidArgument s!"{kind} must not contain NUL bytes: \"{escapeDefault s}\"")
  else .ok ()

/-- The dot that separates name segments. -/
def dot : UInt8 := 46

/-- `char::is_ascii_alphanumeric`, or one of the characters `_ . - @ :`. -/
def nameByteOk (c : UInt8) : Bool :=
  (48 ≤ c && c ≤ 57) || (65 ≤ c && c ≤ 90) || (97 ≤ c && c ≤ 122) ||
    c == 95 || c == dot || c == 45 || c == 64 || c == 58

/-- The character a refused byte begins, as the message prints it. -/
def offendingChar (s : Bytes) : String := ((display s).toList.head?.map debugChar).getD ""

/-- The character loop of `validate_property_name`, with its one-character memory. -/
def validateNameLoop (name : Bytes) : Bool → Bytes → Except Error Unit
  | _, [] => .ok ()
  | prevDot, c :: rest =>
    if !nameByteOk c then
      .error (.invalidArgument s!"invalid char {offendingChar (c :: rest)} in name: {display name}")
    else if c == dot && prevDot then
      .error (.invalidArgument s!"consecutive '.' in name: {display name}")
    else validateNameLoop name (c == dot) rest

def validatePropertyName (name : Bytes) : Except Error Unit :=
  if name.isEmpty then .error (.invalidArgument "name is empty")
  else if name.head? = some dot then
    .error (.invalidArgument s!"name cannot start with '.': {display name}")
  else if name.getLast? = some dot then
    .error (.invalidArgument s!"name cannot end with '.': {display name}")
  else validateNameLoop name false name

/-! ### What the validators accept -/

theorem validateValueLen_eq_ok {name value : Bytes} :
    validateValueLen name value = .ok () ↔
      0 ∉ value ∧ (value.length < propValueMax ∨ startsWithRo name = true) := by
  unfold validateValueLen rejectValueNul
  by_cases h0 : 0 ∈ value
  · simp [h0, bind, Except.bind]
  · by_cases hl : value.length < propValueMax
    · simp [h0, hl, bind, Except.bind]
    · cases hr : startsWithRo name <;> simp [h0, Nat.not_lt.mp hl, bind, Except.bind, hl]

theorem validateShortValueLen_eq_ok {value : Bytes} :
    validateShortValueLen value = .ok () ↔ 0 ∉ value ∧ value.length < propValueMax := by
  unfold validateShortValueLen rejectValueNul
  by_cases h0 : 0 ∈ value
  · simp [h0, bind, Except.bind]
  · by_cases hl : value.length < propValueMax
    · simp [h0, hl, bind, Except.bind]
    · simp [h0, hl, Nat.not_lt.mp hl, bind, Except.bind]

theorem validateNoInteriorNul_eq_ok {kind : String} {s : Bytes} :
    validateNoInteriorNul kind s = .ok () ↔ 0 ∉ s := by
  unfold validateNoInteriorNul
  by_cases h0 : 0 ∈ s <;> simp [h0]

end RsProperties
