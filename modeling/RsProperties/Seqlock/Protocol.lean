import RsProperties.PropertyArea.Refinement
import RsProperties.Library.Trace

/-!
# The seqlock protocol of one area

The single writer of an area and any number of readers, with every load and store of a serial word
and of a byte as one step over the area's memory. `writerStep` is `SystemProperties::update` from
its `is_long` check to the clean serial: the NUL-scanned snapshot, the backup store and
`apply_write`. `readerStep` is `read_with_callback` with its retry loop. Both are the programs of
the source cut at their memory accesses; computations on local data happen in the step whose access
precedes them. Memory is sequentially consistent.

What `update` does before (the read-only check, by name) and after (the futex wakes and the global
serial, which lives in another area) touches nothing the readers of this area look at.
-/

namespace RsProperties

open ByteMem PropertyAreaMap

namespace Seqlock

/-- What an observer of the area sees. Offsets identify entries, `r` identifies a reader. -/
inductive Event
  /-- The writer starts to update the entry. -/
  | update (off : ℕ) (value : Bytes)
  /-- The writer publishes the clean serial. -/
  | commit (off : ℕ) (value : Bytes)
  /-- A reader enters `read_with_callback`. -/
  | begin (r off : ℕ)
  /-- The first serial load of an iteration. -/
  | load (r off : ℕ)
  /-- The second serial load agreed and the callback ran on the string. -/
  | callback (r off : ℕ) (s : Str)
  /-- The second serial load agreed and the bytes were not UTF-8. -/
  | utf8Error (r off : ℕ)
  /-- `read_with_callback` returns `Ok`. -/
  | ret (r : ℕ)
  /-- Any other step. -/
  | tau
  deriving DecidableEq

/-- The control state of the writer. -/
inductive Writer
  | idle
  /-- About to load the serial for `is_long`. -/
  | check (off : ℕ) (value : Bytes)
  /-- Snapshotting the value slot. -/
  | scan (off : ℕ) (value buf : Bytes)
  /-- Storing the snapshot, `i` bytes done. -/
  | backup (off : ℕ) (value old : Bytes) (i : ℕ)
  /-- `apply_write`, before its serial load. -/
  | loadSerial (off : ℕ) (value : Bytes)
  | setDirty (off : ℕ) (value : Bytes) (current : ℕ)
  /-- Storing the value, `i` bytes done. -/
  | store (off : ℕ) (value : Bytes) (current i : ℕ)
  | publish (off : ℕ) (value : Bytes) (current : ℕ)
  deriving DecidableEq

/-- The control state of a reader; `long` holds the out-of-line bytes of a long entry. -/
inductive Reader
  | idle
  /-- About to load the serial for `is_long`. -/
  | start (off : ℕ)
  /-- At the top of the loop. -/
  | load (off : ℕ) (long : Option Bytes)
  /-- Copying the backup slot. -/
  | copy (off : ℕ) (long : Option Bytes) (serial : ℕ) (buf : Bytes)
  /-- Scanning the value slot. -/
  | scan (off serial : ℕ) (buf : Bytes)
  /-- About to re-load the serial. -/
  | check (off : ℕ) (long : Option Bytes) (serial : ℕ) (buf : Bytes)
  /-- The callback has run. -/
  | called
  deriving DecidableEq

/-- One byte of the value slot. -/
def slotByte (m : Mem) (off i : ℕ) : UInt8 := m (off + 132 + i)

/-- One byte of the backup slot. -/
def backupByte (m : Mem) (i : ℕ) : UInt8 := m (148 + i)

/-- One step of the writer. -/
def writerStep (m : Mem) : Writer → Mem × Writer × Event
  | .idle => (m, .idle, .tau)
  | .check off value =>
    if PropertyInfo.isLong m (off + 128) then (m, .idle, .tau) else (m, .scan off value [], .tau)
  | .scan off value buf =>
    let b := slotByte m off buf.length
    if b = 0 then
      if backupSize < buf.length + 1 then (m, .idle, .tau) else (m, .backup off value buf 0, .tau)
    else if buf.length + 1 < propValueMax then (m, .scan off value (buf ++ [b]), .tau)
    else if backupSize < buf.length + 2 then (m, .idle, .tau)
    else (m, .backup off value (buf ++ [b]) 0, .tau)
  | .backup off value old i =>
    match old[i]? with
    | some b => (writeBytes m (148 + i) [b], .backup off value old (i + 1), .tau)
    | none => (writeBytes m (148 + i) [0], .loadSerial off value, .tau)
  | .loadSerial off value =>
    let current := PropertyInfo.serial m (off + 128)
    if current &&& longFlag != 0 then (m, .idle, .tau)
    else if value.length ≥ propValueMax then (m, .idle, .tau)
    else (m, .setDirty off value current, .tau)
  | .setDirty off value current =>
    (writeU32 m (off + 128) (PropertyInfo.dirtySerial current), .store off value current 0, .tau)
  | .store off value current i =>
    match value[i]? with
    | some b => (writeBytes m (off + 132 + i) [b], .store off value current (i + 1), .tau)
    | none => (writeBytes m (off + 132 + i) [0], .publish off value current, .tau)
  | .publish off value current =>
    (writeU32 m (off + 128) (PropertyInfo.nextSerial value.length current), .idle,
      .commit off value)

/-- The length of the backup copy a dirty serial announces. -/
def backupLen (serial : ℕ) : ℕ := min (serial >>> 24) (propValueMax - 1)

/-- Where an iteration goes after its first serial load. -/
def afterLoad (off : ℕ) (long : Option Bytes) (serial : ℕ) : Reader :=
  if serialDirty serial then
    if backupLen serial = 0 then .check off long serial [] else .copy off long serial []
  else
    match long with
    | some bytes => .check off long serial bytes
    | none => .scan off serial []

/-- One step of the reader `r`. -/
def readerStep (pa : PropertyAreaMap) (m : Mem) (r : ℕ) : Reader → Reader × Event
  | .idle => (.idle, .tau)
  | .start off =>
    if PropertyInfo.isLong m (off + 128) then
      -- write-once memory, resolved before the loop
      match (pa.withData m).longPropertyValue off with
      | .ok bytes => (.load off (some bytes), .tau)
      | .error _ => (.idle, .tau)
    else (.load off none, .tau)
  | .load off long => (afterLoad off long (PropertyInfo.serial m (off + 128)), .load r off)
  | .copy off long serial buf =>
    let buf := buf ++ [backupByte m buf.length]
    if buf.length < backupLen serial then (.copy off long serial buf, .tau)
    else (.check off long serial buf, .tau)
  | .scan off serial buf =>
    let b := slotByte m off buf.length
    if b = 0 then (.check off none serial buf, .tau)
    else if buf.length + 1 < propValueMax then (.scan off serial (buf ++ [b]), .tau)
    else (.check off none serial (buf ++ [b]), .tau)
  | .check off long serial buf =>
    if PropertyInfo.serial m (off + 128) = serial then
      match fromUtf8 buf with
      | some s => (.called, .callback r off s)
      | none => (.idle, .utf8Error r off)
    else (.load off long, .tau)
  | .called => (.idle, .ret r)

/-- The memory with the control states of the writer and the readers. -/
structure State where
  mem : Mem
  writer : Writer
  reader : ℕ → Reader

/-- The steps of the system. The area `pa` gives the fixed layout: updates and reads address entries
that `find` returned for it, and `update` has checked the new value. -/
inductive Step (pa : PropertyAreaMap) : State → Event → State → Prop
  | update {s : State} (hw : s.writer = .idle) {name : Bytes} {off : ℕ}
      (hf : pa.find name = .ok off) {value : Str}
      (hv : validateShortValueLen value.bytes = .ok ()) :
      Step pa s (.update off value.bytes) { s with writer := .check off value.bytes }
  | write {s : State} (hw : s.writer ≠ .idle) :
      Step pa s (writerStep s.mem s.writer).2.2
        { s with mem := (writerStep s.mem s.writer).1, writer := (writerStep s.mem s.writer).2.1 }
  | begin {s : State} {r : ℕ} (hr : s.reader r = .idle) {name : Bytes} {off : ℕ}
      (hf : pa.find name = .ok off) :
      Step pa s (.begin r off) { s with reader := Function.update s.reader r (.start off) }
  | read {s : State} {r : ℕ} (hr : s.reader r ≠ .idle) :
      Step pa s (readerStep pa s.mem r (s.reader r)).2
        { s with reader :=
          Function.update s.reader r (readerStep pa s.mem r (s.reader r)).1 }

/-- The quiescent start over the memory of the area. -/
def Init (pa : PropertyAreaMap) (s : State) : Prop :=
  s.mem = pa.mmap.data ∧ s.writer = .idle ∧ ∀ r, s.reader r = .idle

/-- The runs of the protocol over an area, with their histories. -/
abbrev Run (pa : PropertyAreaMap) : List Event → State → Prop := Trace.Run (Init pa) (Step pa)

/-! ### What a history says about an entry -/

/-- The value an entry has in the area before the run. -/
def initialValue (pa : PropertyAreaMap) (off : ℕ) : Bytes :=
  match pa.propertyValueBytes off with
  | .ok v => v
  | .error _ => []

/-- The value last committed. -/
def commitValue (off : ℕ) (v : Bytes) : Event → Bytes
  | .commit off' value => if off' = off then value else v
  | _ => v

/-- The value an entry holds after a history: the one last committed. -/
def valueAfter (pa : PropertyAreaMap) (off : ℕ) (H : List Event) : Bytes :=
  H.foldl (commitValue off) (initialValue pa off)

/-- The event commits an update of the entry. -/
def isCommit (off : ℕ) : Event → Bool
  | .commit off' _ => off' = off
  | _ => false

/-- The number of updates of an entry that complete in a history. -/
def commits (off : ℕ) (H : List Event) : ℕ := H.countP (isCommit off)

/-- The event is a first serial load by the reader. -/
def isLoad (r : ℕ) : Event → Bool
  | .load r' _ => r' = r
  | _ => false

/-- The event is the reader's entry into a read. -/
def isBegin (r : ℕ) : Event → Bool
  | .begin r' _ => r' = r
  | _ => false

/-- The event is a callback of the reader. -/
def isCallback (r : ℕ) : Event → Bool
  | .callback r' _ _ => r' = r
  | _ => false

end Seqlock

end RsProperties
