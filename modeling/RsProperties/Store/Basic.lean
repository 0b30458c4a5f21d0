import RsProperties.Store.Contexts
import RsProperties.PropertyArea.Refinement

/-!
# The property store

`SystemProperties` is the writable instance behind `new_area`: the parsed `property_info`, one
property area per context, and the area whose header carries the global serial. A name is routed
through `property_info` to the slot of its context; `find`, `add`, `update` and `set` work on the
area there and every successful write bumps the global serial.

Writers run in `StoreM`, which keeps the state on failure: what a failed `add` allocated stays in its
area. Futex wakes only notify and are left out; the locks of the nodes are never poisoned here.
-/

namespace RsProperties

open ByteMem

/-- A context node of a writable instance: `open` has mapped its area, and nothing unmaps it. -/
structure ContextNode where
  filename : Bytes
  propertyArea : PropertyAreaMap

/-- The store. Empty slots are context entries that were skipped as corrupt. -/
structure SystemProperties where
  propertyInfo : PropertyInfoArea
  contextNodes : List (Option ContextNode)
  serialArea : PropertyAreaMap

/-- The handle of a property: the slot of its context and the offset of its entry. -/
structure PropertyIndex where
  contextIndex : ℕ
  propertyIndex : ℕ
  deriving DecidableEq, Repr

/-- Store operations: the state survives a failure. -/
abbrev StoreM := EStateM Error SystemProperties

/-- Run a read-only operation of the store. -/
def inspect {α : Type} (f : SystemProperties → Except Error α) : StoreM α := fun sp =>
  match f sp with
  | .ok a => .ok a sp
  | .error e => .error e sp

namespace SystemProperties

/-- `new_area` once all files are created: a fresh area in every good slot. -/
def newArea (info : PropertyInfoArea) : Except Error SystemProperties := do
  let names ← info.contextNames
  return {
    propertyInfo := info
    contextNodes := names.map (Option.map fun filename => ⟨filename, .newRw⟩)
    serialArea := .newRw }

section Read

variable (sp : SystemProperties)

/-- `context_node_at`. -/
def contextNodeAt (index : ℕ) (what : String) : Except Error ContextNode :=
  match sp.contextNodes[index]? with
  | some (some node) => .ok node
  | some none => .error (.fileValidation
      s!"context entry {index} for {what} unavailable (corrupt at init)")
  | none => .error (.notFound s!"no context for {what}")

/-- The slot `property_info` assigns to a name. -/
def contextIndexOf (name : Bytes) : ℕ := (quiet (sp.propertyInfo.getPropertyInfoIndexes name)).context

/-- `ContextNode::property_area_mut`: only a writable mapping is handed out. -/
def requireOpened (node : ContextNode) : Except Error ContextNode :=
  if node.propertyArea.mmap.writable then .ok node
  else .error (.permissionDenied
    s!"property area not opened read-write: \"{display node.filename}\"")

def propAreaForName (name : Bytes) : Except Error (ContextNode × ℕ) := do
  let index := sp.contextIndexOf name
  let node ← sp.contextNodeAt index s!"property {display name}"
  return (node, index)

def propAreaMutForName (name : Bytes) : Except Error (ContextNode × ℕ) := do
  let index := sp.contextIndexOf name
  let node ← sp.contextNodeAt index s!"property {display name}"
  let node ← requireOpened node
  return (node, index)

def propAreaMutWithIndex (index : ℕ) : Except Error ContextNode := do
  let node ← sp.contextNodeAt index s!"context index {index}"
  requireOpened node

/-- `get_with_result`, through `read_with`. -/
def getWithResult (name : Bytes) : Except Error Str := do
  let (node, _) ← sp.propAreaForName name
  let off ← node.propertyArea.find name
  node.propertyArea.readWithCallback off

/-- `find`: absence, of the context or in its area, is no error. -/
def find (name : Bytes) : Except Error (Option PropertyIndex) :=
  match sp.propAreaForName name with
  | .error (.notFound _) => .ok none
  | .error e => .error e
  | .ok (node, contextIndex) =>
    match node.propertyArea.find name with
    | .ok off => .ok (some ⟨contextIndex, off⟩)
    | .error (.notFound _) => .ok none
    | .error e => .error e

/-- The global serial. -/
def contextSerial : ℕ := sp.serialArea.areaSerial

end Read

/-! ### Writers -/

/-- The store after the area of a slot has become `pa`. -/
def setArea (sp : SystemProperties) (index : ℕ) (node : ContextNode) (pa : PropertyAreaMap) :
    SystemProperties :=
  { sp with contextNodes := sp.contextNodes.set index (some { node with propertyArea := pa }) }

/-- Run a writer on the area of a slot, through its write guard. -/
def onArea (index : ℕ) (node : ContextNode) (op : AreaM Unit) : StoreM Unit := fun sp =>
  match op node.propertyArea with
  | .ok _ pa => .ok () (sp.setArea index node pa)
  | .error e pa => .error e (sp.setArea index node pa)

/-- `serial_pa.serial().fetch_add(1)`. -/
def bumpSerial : StoreM Unit :=
  modify fun sp => { sp with serialArea := { sp.serialArea with mmap := { sp.serialArea.mmap with
    data := writeU32 sp.serialArea.mmap.data 4 ((sp.contextSerial + 1) % 2 ^ 32) } } }

/-- The inspection block of `update`: everything that can refuse the write, then the snapshot of the
old value for the backup slot. -/
def inspectForUpdate (pa : PropertyAreaMap) (piOffset : ℕ) (value : Bytes) : Except Error Bytes := do
  let name ← pa.propertyInfoName piOffset
  if startsWithRo name then
    .error (.permissionDenied s!"Try to update the read-only property: {display name}")
  else do
    validateShortValueLen value
    let a ← pa.propertyInfo piOffset
    if PropertyInfo.isLong pa.mmap.data a then
      .error (.invalidArgument s!"in-place update of long property is not supported: {display name}")
    else pa.propertyValueBytes piOffset

def update (index : PropertyIndex) (value : Str) : StoreM Unit := do
  let node ← inspect fun sp => sp.propAreaMutWithIndex index.contextIndex
  let backup ← inspect fun _ =>
    inspectForUpdate node.propertyArea index.propertyIndex value.bytes
  onArea index.contextIndex node
    (PropertyAreaMap.backupAndApplyWrite index.propertyIndex backup value.bytes)
  bumpSerial

def add (name value : Str) : StoreM Unit := do
  inspect fun _ => validateValueLen name.bytes value.bytes
  let (node, index) ← inspect fun sp => sp.propAreaMutForName name.bytes
  onArea index node (PropertyAreaMap.add name.bytes value.bytes)
  bumpSerial

/-- `set`: update the entry of the name, or create it. -/
def set (name value : Str) : StoreM Unit := do
  match ← inspect fun sp => sp.find name.bytes with
  | some index => update index value
  | none => add name value

end SystemProperties

/-! ### Runs -/

/-- The writing operations. An `update` is named by the property its handle was found for. -/
inductive StoreOp
  | set (name value : Str)
  | add (name value : Str)
  | update (name : Str) (index : PropertyIndex) (value : Str)

namespace StoreOp

/-- The property an operation is about. -/
def name : StoreOp → Str
  | .set name _ => name
  | .add name _ => name
  | .update name _ _ => name

def value : StoreOp → Str
  | .set _ value => value
  | .add _ value => value
  | .update _ _ value => value

def run : StoreOp → StoreM Unit
  | .set name value => SystemProperties.set name value
  | .add name value => SystemProperties.add name value
  | .update _ index value => SystemProperties.update index value

/-- Handles come from earlier `find`s. -/
def Admissible (seen : List (Str × PropertyIndex)) : StoreOp → Prop
  | .set _ _ => True
  | .add _ _ => True
  | .update name index _ => (name, index) ∈ seen

end StoreOp

/-- One step of a client of the store, with the handles `find` has returned so far. -/
inductive StoreStep : SystemProperties × List (Str × PropertyIndex) →
    SystemProperties × List (Str × PropertyIndex) → Prop
  | find {sp : SystemProperties} {seen : List (Str × PropertyIndex)} {name : Str}
      {index : PropertyIndex} (h : sp.find name.bytes = .ok (some index)) :
      StoreStep (sp, seen) (sp, (name, index) :: seen)
  | op {sp : SystemProperties} {seen : List (Str × PropertyIndex)} (op : StoreOp)
      (h : op.Admissible seen) : StoreStep (sp, seen) (finalState (op.run sp), seen)

/-- The states of the runs from a fresh instance. -/
def StoreReachable (info : PropertyInfoArea) (st : SystemProperties × List (Str × PropertyIndex)) :
    Prop :=
  ∃ sp, SystemProperties.newArea info = .ok sp ∧ Relation.ReflTransGen StoreStep (sp, []) st

end RsProperties
