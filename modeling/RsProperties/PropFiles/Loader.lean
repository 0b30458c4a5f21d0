import RsProperties.PropFiles.Lines
import RsProperties.Library.StateExcept
import Mathlib.Data.List.Nodup

/-!
# Loading build.prop files

`load_properties_from_file` accumulates the `key=value` lines of a file in a map, and follows its `import`
lines. An import that cannot be expanded or loaded is skipped; only the budget of `maxTotalLoads` file loads
aborts the pass. The files on the current import chain are kept in `visited`, which cuts cycles.

The log lines are left out, and so is `check_permissions`, which does nothing. The recursion is on the import
levels that are still allowed.
-/

namespace RsProperties

open ByteMem

/-! ### The accumulator -/

/-- A map of properties, in the order their keys were first inserted. -/
structure PropertyMap where
  entries : List (Str × Str)
  nodup : (entries.map Prod.fst).Nodup

namespace PropertyMap

/-- Insert into an association list: an old value is replaced. -/
def insertEntry (key value : Str) : List (Str × Str) → List (Str × Str)
  | [] => [(key, value)]
  | (k, v) :: entries =>
    if k = key then (k, value) :: entries else (k, v) :: insertEntry key value entries

theorem mem_keys_insertEntry {key value k : Str} {entries : List (Str × Str)} :
    k ∈ (insertEntry key value entries).map Prod.fst ↔ k = key ∨ k ∈ entries.map Prod.fst := by
  induction entries with
  | nil => simp [insertEntry]
  | cons e entries ih =>
    obtain ⟨k', v'⟩ := e
    rw [insertEntry]
    split_ifs with hk
    · subst hk
      simp
    · rw [List.map_cons, List.mem_cons, ih, List.map_cons, List.mem_cons]
      tauto

theorem nodup_insertEntry {key value : Str} {entries : List (Str × Str)}
    (h : (entries.map Prod.fst).Nodup) : ((insertEntry key value entries).map Prod.fst).Nodup := by
  induction entries with
  | nil => simp [insertEntry]
  | cons e entries ih =>
    obtain ⟨k, v⟩ := e
    rw [List.map_cons, List.nodup_cons] at h
    rw [insertEntry]
    split_ifs with hk
    · exact List.nodup_cons.mpr h
    · rw [List.map_cons, List.nodup_cons, mem_keys_insertEntry]
      exact ⟨fun hm => hm.elim hk h.1, ih h.2⟩

def empty : PropertyMap := ⟨[], List.nodup_nil⟩

def insert (map : PropertyMap) (key value : Str) : PropertyMap :=
  ⟨insertEntry key value map.entries, nodup_insertEntry map.nodup⟩

/-- The value of a key. -/
def get? (map : PropertyMap) (key : Bytes) : Option Str :=
  (map.entries.find? fun e => decide (e.1.bytes = key)).map Prod.snd

/-- With distinct keys, a value is found exactly where it stands. -/
theorem get?_eq_some {map : PropertyMap} {key : Bytes} {value : Str} :
    map.get? key = some value ↔ ∃ k, (k, value) ∈ map.entries ∧ k.bytes = key := by
  obtain ⟨entries, hnodup⟩ := map
  unfold get?
  induction entries with
  | nil => simp
  | cons e entries ih =>
    obtain ⟨k, v⟩ := e
    rw [List.map_cons, List.nodup_cons] at hnodup
    by_cases hk : k.bytes = key
    · rw [List.find?_cons_of_pos (by simpa using hk)]
      constructor
      · rintro ⟨⟩
        exact ⟨k, by simp, hk⟩
      · rintro ⟨k', hmem, hk'⟩
        obtain rfl : k' = k := Str.ext (hk'.trans hk.symm)
        rcases List.mem_cons.mp hmem with heq | hrest
        · cases heq
          rfl
        · exact (hnodup.1 (List.mem_map.mpr ⟨(k', value), hrest, rfl⟩)).elim
    · rw [List.find?_cons_of_neg (by simpa using hk)]
      refine (ih hnodup.2).trans (exists_congr fun k' => and_congr_left fun hk' => ?_)
      rw [List.mem_cons, Prod.mk.injEq, or_iff_right]
      rintro ⟨rfl, -⟩
      exact hk hk'

end PropertyMap

/-! ### The files -/

/-- The file system as the loader sees it: the canonical form of a path, if it has one, and what opening a path
gives. -/
structure FileSystem where
  canonicalize : Bytes → Option Bytes
  openFile : Bytes → Except String Reader

def maxImportDepth : ℕ := 8

def maxTotalLoads : ℕ := 1000

/-- The state of a pass. -/
structure LoadState where
  properties : PropertyMap
  visited : List Bytes
  loads : ℕ

/-- Loads keep what they have accumulated when they fail. -/
abbrev LoadM := EStateM Error LoadState

/-! ### Import paths -/

def dollar : UInt8 := 36

def openBrace : UInt8 := 123

def closeBrace : UInt8 := 125

/-- `str::split_once(":-")`. -/
def splitDefault : Bytes → Option (Bytes × Bytes)
  | 58 :: 45 :: rest => some ([], rest)
  | c :: rest => (splitDefault rest).map fun (a, b) => (c :: a, b)
  | [] => none

/-- The value of a reference `name` or `name:-default`: a missing or empty property has the default. -/
def resolveReference (properties : PropertyMap) (reference : Bytes) : Option Bytes :=
  let (name, default) :=
    match splitDefault reference with
    | some (name, default) => (name, some default)
    | none => (reference, none)
  match properties.get? name with
  | some value => if value.bytes ≠ [] then some value.bytes else default
  | none => default

/-- The loop of `expand_import_path` over what is left of the path, for so many references. -/
def expandUpTo (properties : PropertyMap) : ℕ → Bytes → Bytes → Option Bytes
  | 0, out, rest => some (out ++ rest)
  | n + 1, out, rest =>
    match cutAt dollar rest with
    | none => some (out ++ rest)
    | some (before, after) =>
      match after with
      | [] => none
      | c :: tail =>
        if c = dollar then expandUpTo properties n (out ++ before ++ [dollar]) tail
        else if c = openBrace then
          match cutAt closeBrace tail with
          | none => none
          | some (reference, rest) =>
            match resolveReference properties reference with
            | none => none
            | some value => expandUpTo properties n (out ++ before ++ value) rest
        else none

/-- `expand_import_path`; a reference takes a byte at least. -/
def expandImportPath (raw : Bytes) (properties : PropertyMap) : Option Bytes :=
  expandUpTo properties (raw.length + 1) [] raw

/-! ### Lines -/

def hash : UInt8 := 35

def equalsSign : UInt8 := 61

def importPrefix : Bytes := ascii "import "

def restoreconProperty : Bytes := ascii "selinux.restorecon_recursive"

/-- The filter lets a key through: all keys without a filter, those with the prefix before a final `*`, or
the one key. -/
def passesFilter (filter : Option Bytes) (key : Bytes) : Bool :=
  match filter with
  | none => true
  | some filter =>
    if filter.getLast? = some 42 then filter.dropLast.isPrefixOf key else decide (key = filter)

/-- Keys with a special meaning, which no file may set. -/
def isDisallowed (key : Bytes) : Bool :=
  (ascii "ctl.").isPrefixOf key || key == ascii "sys.powerctl" || key == restoreconProperty

/-- A `key=value` line: the entry it adds to the map, if any. -/
def parseEntry (filter : Option Bytes) (line : Str) : Option (Str × Str) :=
  match line.splitOnce equalsSign (by decide) with
  | none => none
  | some (key, value) =>
    let key := key.trimEnd
    if key.bytes = [] || !passesFilter filter key.bytes || isDisallowed key.bytes then none
    else some (key, value.trim)

/-- The import of a line: a failure is logged and dropped unless the budget of the pass is exhausted. -/
def importLine (load : Bytes → LoadM Unit) (path : Bytes) : LoadM Unit := fun state =>
  match expandImportPath path state.properties with
  | none => .ok () state
  | some expanded =>
    match load expanded state with
    | .ok _ state => .ok () state
    | .error (.limitExceeded msg) state => .error (.limitExceeded msg) state
    | .error _ state => .ok () state

/-- One turn of the loop of `load_properties_body`. -/
def loadLine (load : Bytes → LoadM Unit) (filter : Option Bytes) (line : BoundedLine) : LoadM Unit :=
  if line.truncated then return ()
  else
    match fromUtf8 line.buf with
    | none => return ()
    | some text =>
      let text := text.trim
      if text.bytes.isEmpty || text.bytes.head? = some hash then return ()
      else
        match if filter.isNone then text.stripPrefix importPrefix else none with
        | some path => importLine load path.trim.bytes
        | none =>
          match parseEntry filter text with
          | none => return ()
          | some (key, value) =>
            modify fun state => { state with properties := state.properties.insert key value }

def loadLines (load : Bytes → LoadM Unit) (filter : Option Bytes) : List BoundedLine → LoadM Unit
  | [] => return ()
  | line :: lines => do
    loadLine load filter line
    loadLines load filter lines

/-- `load_properties_body`, with `load` for the imports. -/
def loadPropertiesBody (fs : FileSystem) (load : Bytes → LoadM Unit) (filename canonical : Bytes)
    (filter : Option Bytes) : LoadM Unit :=
  match fs.openFile canonical with
  | .error e => throw (.context s!"Failed to open \"{display filename}\"" (.io e))
  | .ok reader => loadLines load (filter.filter fun f => !f.isEmpty) reader.lines

/-- `load_properties_impl` with the import levels that are still allowed, `maxImportDepth + 1 - depth`. -/
def loadPropertiesImpl (fs : FileSystem) : ℕ → Bytes → Option Bytes → LoadM Unit
  | 0, filename, _ => throw (.parse
      s!"import nesting deeper than {maxImportDepth} levels at \"{display filename}\"")
  | levels + 1, filename, filter => fun state =>
    let state := { state with loads := state.loads + 1 }
    if maxTotalLoads < state.loads then
      .error (.limitExceeded
        s!"more than {maxTotalLoads} file loads in one pass (import amplification) at \"{display filename}\"")
        state
    else
      let canonical := (fs.canonicalize filename).getD filename
      if canonical ∈ state.visited then .ok () state
      else
        let load := fun path => loadPropertiesImpl fs levels path none
        match loadPropertiesBody fs load filename canonical filter
            { state with visited := canonical :: state.visited } with
        | .ok _ state => .ok () { state with visited := state.visited.erase canonical }
        | .error e state => .error e { state with visited := state.visited.erase canonical }

/-- `load_properties_from_file`, on the accumulator. -/
def loadPropertiesFromFile (fs : FileSystem) (filename : Bytes) (filter : Option Bytes) :
    EStateM Error PropertyMap Unit := fun properties =>
  match loadPropertiesImpl fs (maxImportDepth + 1) filename filter
      { properties := properties, visited := [], loads := 0 } with
  | .ok _ state => .ok () state.properties
  | .error e state => .error e state.properties

end RsProperties
