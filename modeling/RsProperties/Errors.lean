import RsProperties.Library.Memory
import RsProperties.Library.Utf8

/-!
# Strings and errors

`Str` is a Rust `&str`/`String`: its bytes together with the proof that they are well-formed UTF-8.
The storage layer below the public API only ever looks at bytes, so it is modelled over `Bytes`; the
layers that decode (the seqlock read, the wire decoder) produce a `Str`.

`Error` is the crate-wide error type with the message each call site builds.
-/

namespace RsProperties

open ByteMem

/-- A Rust string: well-formed UTF-8 bytes. -/
structure Str where
  bytes : Bytes
  valid : Utf8.valid bytes = true
  deriving DecidableEq

theorem Str.ext {s t : Str} (h : s.bytes = t.bytes) : s = t := by
  cases s
  cases t
  cases h
  rfl

/-- The bytes of an ASCII literal. -/
def ascii (s : String) : Bytes := s.toList.map fun c => UInt8.ofNat c.toNat

/-- The text of a byte string inside a message. -/
def display (s : Bytes) : String := (String.fromUTF8? ⟨s.toArray⟩).getD ""

/-- `{:#x}`. -/
def hex (n : ℕ) : String := "0x" ++ String.ofList (Nat.toDigits 16 n)

/-- `\u{..}` of an escaped character. -/
def escapeUnicode (c : Char) : String :=
  "\\u\x7b" ++ String.ofList (Nat.toDigits 16 c.toNat) ++ "\x7d"

/-- `char::escape_default`. -/
def escapeDefaultChar (c : Char) : String :=
  match c.toNat with
  | 9 => "\\t"
  | 10 => "\\n"
  | 13 => "\\r"
  | 34 | 39 | 92 => "\\" ++ c.toString
  | n => if 32 ≤ n ∧ n ≤ 126 then c.toString else escapeUnicode c

/-- `str::escape_default`. -/
def escapeDefault (s : Bytes) : String := String.join ((display s).toList.map escapeDefaultChar)

/-- `{:?}` of a character: `escape_default`, but for NUL, the double quote, which stays, and what lies
outside ASCII, which is taken to be printable. -/
def debugChar (c : Char) : String :=
  if c.toNat = 0 then "'\\0'"
  else if c.toNat = 34 ∨ 127 < c.toNat then s!"'{c}'"
  else s!"'{escapeDefaultChar c}'"

/-- `str::from_utf8`. -/
def fromUtf8 (bs : Bytes) : Option Str :=
  if h : Utf8.valid bs = true then some ⟨bs, h⟩ else none

theorem fromUtf8_of_valid {bs : Bytes} (h : Utf8.valid bs = true) : fromUtf8 bs = some ⟨bs, h⟩ :=
  dif_pos h

theorem fromUtf8_bytes (s : Str) : fromUtf8 s.bytes = some s := dif_pos s.valid

theorem bytes_of_fromUtf8 {bs : Bytes} {s : Str} (h : fromUtf8 bs = some s) : s.bytes = bs := by
  unfold fromUtf8 at h
  split at h
  · cases h; rfl
  · cases h

/-- The crate-wide error type. `utf8` is the decode failure, `io` and `errno` are
operating-system errors and `context` an error wrapped with a caller's message. -/
inductive Error
  | io (msg : String)
  | errno (msg : String)
  | notFound (msg : String)
  | encoding (msg : String)
  | utf8
  | parse (msg : String)
  | fileValidation (msg : String)
  | invalidArgument (msg : String)
  | alreadyInitialized (msg : String)
  | limitExceeded (msg : String)
  | serviceError (name : String) (code : ℤ)
  | permissionDenied (msg : String)
  | fileSize (msg : String)
  | areaFull (msg : String)
  | fileOwnership (msg : String)
  | lock (msg : String)
  | context (msg : String) (source : Error)
  deriving DecidableEq, Repr

/-- The text of an error inside another message. The decode failure's position is not modelled, nor is
the source location of a wrapped error. A service code is a signed word, printed as its bits. -/
def Error.message : Error → String
  | .io msg => s!"I/O error: {msg}"
  | .errno msg => s!"System error: {msg}"
  | .notFound msg => s!"Property not found: {msg}"
  | .encoding msg => s!"Encoding error: {msg}"
  | .utf8 => "UTF-8 conversion error"
  | .parse msg => s!"Parse error: {msg}"
  | .fileValidation msg => s!"File validation error: {msg}"
  | .invalidArgument msg => s!"Invalid argument: {msg}"
  | .alreadyInitialized msg => s!"Already initialized: {msg}"
  | .limitExceeded msg => s!"Limit exceeded: {msg}"
  | .serviceError name code => s!"Property service rejected \"{name}\": error code {hex (code % 2 ^ 32).toNat}"
  | .permissionDenied msg => s!"Permission denied: {msg}"
  | .fileSize msg => s!"File size error: {msg}"
  | .areaFull msg => s!"Property area full: {msg}"
  | .fileOwnership msg => s!"File ownership error: {msg}"
  | .lock msg => s!"Lock error: {msg}"
  | .context msg source => s!"{msg}: {source.message}"

/-- The error reports absence (the only case the lookup paths fold into "no such property"). -/
def Error.isNotFound : Error → Bool
  | .notFound _ => true
  | _ => false

end RsProperties
