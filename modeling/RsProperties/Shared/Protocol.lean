import RsProperties.Publish.Protocol
import RsProperties.Seqlock.Consistency

/-!
# Gets beside sets

One area file with all its users. The writer adds names (`add`, one access at a time, as in
`Publish.Program`) and rewrites values (`update` under the seqlock, as in `Seqlock.Protocol`), one call
after the other; any number of readers run `get_with_result`, the lookup of the name followed by the
retry loop of `read_with_callback`. No lock is shared between processes: every access is one step, in
any order, and memory is sequentially consistent.
-/

namespace RsProperties

open ByteMem PropertyAreaMap Process Publish

namespace Shared

/-- What an observer of the system sees; `i` identifies a reader, offsets identify entries. -/
inductive Event
  | add (name value : Bytes)
  | added (name value : Bytes) (r : Except Error Unit)
  | update (off : ℕ) (value : Bytes)
  /-- The writer publishes the clean serial of an update. -/
  | commit (off : ℕ) (value : Bytes)
  | get (i : ℕ) (name : Bytes)
  /-- The first serial load of an iteration. -/
  | load (i off : ℕ)
  /-- The second serial load agrees with the first one. -/
  | agreed (i off : ℕ)
  | got (i : ℕ) (name : Bytes) (r : Except Error Str)
  /-- Any other access. -/
  | tau
  deriving DecidableEq

/-- The control state of a reader. -/
inductive Getting
  | idle
  | finding (name : Bytes) (rest : Process Access Access.Ans (Except Error ℕ))
  | reading (name : Bytes) (rd : Seqlock.Reader)
  | done (name : Bytes) (r : Except Error Str)

/-- The memory with the control states; of the two of the writer, one is always idle. -/
structure State where
  mem : Mem
  adding : Option Adding
  updating : Seqlock.Writer
  reader : ℕ → Getting

/-- `read_with` goes on with the result of `find`. -/
def afterFind (name : Bytes) : Except Error ℕ → Getting
  | .ok off =>
    match readerMap.propertyInfo off with
    | .ok _ => .reading name (.start off)
    | .error e => .done name (.error e)
  | .error e => .done name (.error e)

/-- One step of `read_with_callback`. -/
def readStep (m : Mem) (i : ℕ) (name : Bytes) : Seqlock.Reader → Getting × Event
  | .start off =>
    if PropertyInfo.isLong m (off + 128) then
      -- write-once memory, resolved before the loop
      match (readerMap.withData m).longPropertyValue off with
      | .ok bytes => (.reading name (.load off (some bytes)), .tau)
      | .error e => (.done name (.error e), .tau)
    else (.reading name (.load off none), .tau)
  | .load off long =>
    (.reading name (Seqlock.afterLoad off long (PropertyInfo.serial m (off + 128))), .load i off)
  | .check off long serial buf =>
    if PropertyInfo.serial m (off + 128) = serial then
      match fromUtf8 buf with
      | some s => (.done name (.ok s), .agreed i off)
      | none => (.done name (.error .utf8), .agreed i off)
    else (.reading name (.load off long), .tau)
  | rd => (.reading name (Seqlock.readerStep readerMap m i rd).1, .tau)

/-- What is seen of a step of `update`. -/
def ofUpdate : Seqlock.Event → Event
  | .commit off value => .commit off value
  | _ => .tau

/-- The steps of the system. `SystemProperties::add` and `update` have checked the value when they come
to the area, and `update` addresses an entry that `find` returned. -/
inductive Step : State → Event → State → Prop
  | add {s : State} (ha : s.adding = none) (hu : s.updating = .idle) {name value : Str}
      (hv : 0 ∉ value.bytes) : Step s (.add name.bytes value.bytes) { s with
        adding := some ⟨name.bytes, value.bytes, (Publish.add writerMap name.bytes value.bytes).run⟩ }
  | store {s : State} {name value : Bytes} {o : Access}
      {next : o.Ans → Process Access Access.Ans (Except Error Unit)}
      (ha : s.adding = some ⟨name, value, .perform o next⟩) :
      Step s .tau { s with
        mem := (o.act s.mem).2, adding := some ⟨name, value, next (o.act s.mem).1⟩ }
  | added {s : State} {name value : Bytes} {r : Except Error Unit}
      (ha : s.adding = some ⟨name, value, .done r⟩) :
      Step s (.added name value r) { s with adding := none }
  | update {s : State} (ha : s.adding = none) (hu : s.updating = .idle) {name : Bytes} {off : ℕ}
      (hf : (writerMap.withData s.mem).find name = .ok off) {value : Str}
      (hv : validateShortValueLen value.bytes = .ok ()) :
      Step s (.update off value.bytes) { s with updating := .check off value.bytes }
  | write {s : State} (hu : s.updating ≠ .idle) :
      Step s (ofUpdate (Seqlock.writerStep s.mem s.updating).2.2) { s with
        mem := (Seqlock.writerStep s.mem s.updating).1
        updating := (Seqlock.writerStep s.mem s.updating).2.1 }
  | get {s : State} {i : ℕ} (hr : s.reader i = .idle) (name : Bytes) :
      Step s (.get i name) { s with
        reader := Function.update s.reader i (.finding name (Publish.find readerMap name).run) }
  | look {s : State} {i : ℕ} {name : Bytes} {o : Access}
      {next : o.Ans → Process Access Access.Ans (Except Error ℕ)}
      (hr : s.reader i = .finding name (.perform o next)) :
      Step s .tau { s with
        mem := (o.act s.mem).2
        reader := Function.update s.reader i (.finding name (next (o.act s.mem).1)) }
  | found {s : State} {i : ℕ} {name : Bytes} {r : Except Error ℕ}
      (hr : s.reader i = .finding name (.done r)) :
      Step s .tau { s with reader := Function.update s.reader i (afterFind name r) }
  | read {s : State} {i : ℕ} {name : Bytes} {rd : Seqlock.Reader}
      (hr : s.reader i = .reading name rd) :
      Step s (readStep s.mem i name rd).2 { s with
        reader := Function.update s.reader i (readStep s.mem i name rd).1 }
  | got {s : State} {i : ℕ} {name : Bytes} {r : Except Error Str}
      (hr : s.reader i = .done name r) :
      Step s (.got i name r) { s with reader := Function.update s.reader i .idle }

/-- A file `new_rw` has just created. -/
def Init (s : State) : Prop :=
  s.mem = newRw.mmap.data ∧ s.adding = none ∧ s.updating = .idle ∧ ∀ i, s.reader i = .idle

/-- The runs of the system, with their histories. -/
abbrev Run : List Event → State → Prop := Trace.Run Init Step

/-- The runs that go on from a state. -/
abbrev RunFrom (s : State) : List Event → State → Prop := Trace.Run (· = s) Step

/-- `get_with_result` in the area of its name, on memory that does not change meanwhile. -/
def getAlone (m : Mem) (name : Bytes) : Except Error Str := do
  let off ← (readerMap.withData m).find name
  (readerMap.withData m).readWithCallback off

/-- The event completes an update of the entry. -/
def isCommit (off : ℕ) : Event → Bool
  | .commit off' _ => off' = off
  | _ => false

/-- The number of updates of an entry that complete in a history. -/
def commits (off : ℕ) (H : List Event) : ℕ := H.countP (isCommit off)

/-- The event is a first serial load by the reader. -/
def isLoad (i : ℕ) : Event → Bool
  | .load i' _ => i' = i
  | _ => false

end Shared

end RsProperties
