import RsProperties.InfoTrie.Parser
import Mathlib.Data.List.ReduceOption

/-!
# Context names

`ContextsSerialized::new` turns the context table of `property_info` into one area file per context.
The table is untrusted, and on the writable path every name becomes a file that is unlinked and
recreated, so `try_build_context_node` only lets a name through that is a plain filename, is none of
the directory's own bookkeeping files and differs from all earlier names, each up to ASCII case. An
entry that fails a check keeps its slot, empty: slots line up with the context indexes of the trie.

The lines the checks write to the log are dropped here (`quiet`).
-/

namespace RsProperties

open ByteMem

/-- The result of a logging computation, without its log. -/
def quiet {α : Type} (x : Logged α) : α := (x.run []).1

def writerLockName : Bytes := ascii ".writer_lock"

def propertiesSerialName : Bytes := ascii "properties_serial"

def propertyInfoFileName : Bytes := ascii "property_info"

/-- `RESERVED_FILENAMES`. -/
def reservedFilenames : List Bytes := [writerLockName, propertiesSerialName, propertyInfoFileName]

def asciiLower (c : UInt8) : UInt8 := if 65 ≤ c && c ≤ 90 then c + 32 else c

def toAsciiLowercase (s : Bytes) : Bytes := s.map asciiLower

/-- `str::is_ascii`. -/
def isAscii (s : Bytes) : Bool := s.all (· < 128)

/-- No separator, and a single normal path component. -/
def isPlainFilename (name : Bytes) : Bool :=
  !name.contains 47 && !name.isEmpty && name != ascii "." && name != ascii ".."

def maxContexts : ℕ := 65536

namespace PropertyInfoArea

variable (area : PropertyInfoArea)

/-- `try_build_context_node`: the filename of the `i`-th context, with the folded names seen so far.
The set of seen names only changes on success. -/
def tryBuildContextNode (i : ℕ) (seen : List Bytes) : Except Error (Bytes × List Bytes) := do
  let contextOffset ← quiet (area.contextOffset i).run
  let name ← area.cstr contextOffset
  if name.isEmpty then
    .error (.fileValidation s!"context entry {i}: empty context name at offset {contextOffset}")
  else if (fromUtf8 name).isNone then .error .utf8
  else if !isAscii name then
    .error (.fileValidation
      s!"context entry {i}: context name \"{display name}\" contains non-ASCII characters")
  else if !isPlainFilename name then
    .error (.fileValidation
      s!"context entry {i}: context name \"{display name}\" is not a plain filename")
  else if reservedFilenames.contains (toAsciiLowercase name) then
    .error (.fileValidation
      s!"context entry {i}: context name \"{display name}\" collides with a reserved filename")
  else if seen.contains (toAsciiLowercase name) then
    .error (.fileValidation s!"context entry {i}: duplicate context name \"{display name}\"")
  else .ok (name, toAsciiLowercase name :: seen)

/-- The loop over the context table: a filename for each good entry, an empty slot for the others. -/
def buildContextNodes : List ℕ → List Bytes → List (Option Bytes)
  | [], _ => []
  | i :: rest, seen =>
    match area.tryBuildContextNode i seen with
    | .ok (name, seen) => some name :: buildContextNodes rest seen
    | .error _ => none :: buildContextNodes rest seen

/-- The part of `ContextsSerialized::new` before any file is touched: the two gates on the table's
size, then the loop. -/
def contextNames : Except Error (List (Option Bytes)) := do
  let numContextNodes := quiet area.numContexts
  if maxContexts < numContextNodes then
    .error (.fileValidation
      s!"context table declares {numContextNodes} entries (max {maxContexts})")
  else do
    if 0 < numContextNodes then
      match quiet (area.contextOffset (numContextNodes - 1)).run with
      | .ok _ => .ok ()
      | .error e => .error (.fileValidation
          s!"context table ({numContextNodes} entries) exceeds property_info bounds: {e.message}")
    return area.buildContextNodes (List.range numContextNodes) []

end PropertyInfoArea

/-! ### What the checks guarantee -/

/-- A name the checks let through. -/
structure ContextName (name : Bytes) : Prop where
  plain : isPlainFilename name = true
  ascii : isAscii name = true
  notReserved : toAsciiLowercase name ∉ reservedFilenames

/-- A reserved filename is already in lower case, so a context is none of them. -/
theorem ContextName.ne_reserved {name file : Bytes} (h : ContextName name)
    (hf : file ∈ reservedFilenames) : name ≠ file := by
  rintro rfl
  have hl : ∀ f ∈ reservedFilenames, toAsciiLowercase f = f := by decide
  exact h.notReserved ((hl name hf).symm ▸ hf)

namespace PropertyInfoArea

variable {area : PropertyInfoArea}

theorem tryBuildContextNode_eq_ok {i : ℕ} {seen seen' : List Bytes} {name : Bytes}
    (h : area.tryBuildContextNode i seen = .ok (name, seen')) :
    ContextName name ∧ toAsciiLowercase name ∉ seen ∧ seen' = toAsciiLowercase name :: seen := by
  simp only [tryBuildContextNode, bind, Except.bind] at h
  split at h
  · cases h
  split at h
  · cases h
  split_ifs at h with h1 h2 h3 h4 h5 h6
  cases h
  exact ⟨⟨by simpa using h4, by simpa using h3, by simpa using h5⟩, by simpa using h6, rfl⟩

/-- **Every context file is safe to recreate**: the filled slots hold names that passed the checks,
and no two of them are the same file, not even up to case. -/
theorem buildContextNodes_spec (is : List ℕ) (seen : List Bytes) :
    (∀ name, some name ∈ area.buildContextNodes is seen →
      ContextName name ∧ toAsciiLowercase name ∉ seen) ∧
    ((area.buildContextNodes is seen).reduceOption.map toAsciiLowercase).Nodup := by
  induction is generalizing seen with
  | nil => exact ⟨by simp [buildContextNodes], List.nodup_nil⟩
  | cons i rest ih =>
    rw [buildContextNodes]
    cases hb : area.tryBuildContextNode i seen with
    | error e =>
      obtain ⟨hgood, hnodup⟩ := ih seen
      refine ⟨fun name hn => hgood name (by simpa using hn), ?_⟩
      rwa [List.reduceOption_cons_of_none]
    | ok r =>
      obtain ⟨name, seen'⟩ := r
      obtain ⟨hname, hnew, rfl⟩ := tryBuildContextNode_eq_ok hb
      obtain ⟨hgood, hnodup⟩ := ih (toAsciiLowercase name :: seen)
      refine ⟨fun name' hn => ?_, ?_⟩
      · rcases List.mem_cons.mp hn with he | hn
        · obtain rfl := Option.some.inj he
          exact ⟨hname, hnew⟩
        · exact ⟨(hgood name' hn).1, fun hm => (hgood name' hn).2 (List.mem_cons_of_mem _ hm)⟩
      · rw [List.reduceOption_cons_of_some, List.map_cons, List.nodup_cons]
        refine ⟨fun hm => ?_, hnodup⟩
        obtain ⟨name', hm, heq⟩ := List.mem_map.mp hm
        exact (hgood name' (List.reduceOption_mem_iff.mp hm)).2 (heq ▸ List.mem_cons_self)

/-- A slot is decided by its own entry and the folded names of the filled slots before it. -/
theorem buildContextNodes_slot {is : List ℕ} {k i : ℕ} (hi : is[k]? = some i)
    (seen : List Bytes) :
    ∃ seen', (area.buildContextNodes is seen)[k]? =
        some ((area.tryBuildContextNode i seen').toOption.map Prod.fst) ∧
      ∀ folded, folded ∈ seen' ↔ folded ∈ seen ∨ ∃ j < k, ∃ name,
        (area.buildContextNodes is seen)[j]? = some (some name) ∧
          folded = toAsciiLowercase name := by
  induction is generalizing seen k with
  | nil => cases hi
  | cons i' rest ih =>
    cases k with
    | zero =>
      obtain rfl : i' = i := Option.some.inj hi
      refine ⟨seen, ?_, by simp⟩
      rw [buildContextNodes]
      cases area.tryBuildContextNode i' seen <;> rfl
    | succ k =>
      cases hb : area.tryBuildContextNode i' seen with
      | error e =>
        rw [buildContextNodes, hb]
        obtain ⟨seen', hslot, hseen⟩ := ih hi seen
        refine ⟨seen', hslot, fun folded => (hseen folded).trans (or_congr_right ?_)⟩
        constructor
        · rintro ⟨j, hj, name, hn, rfl⟩
          exact ⟨j + 1, by omega, name, hn, rfl⟩
        · rintro ⟨_ | j, hj, name, hn, rfl⟩
          · cases hn
          · exact ⟨j, by omega, name, hn, rfl⟩
      | ok r =>
        obtain ⟨first, seen₁⟩ := r
        obtain ⟨-, -, rfl⟩ := tryBuildContextNode_eq_ok hb
        rw [buildContextNodes, hb]
        obtain ⟨seen', hslot, hseen⟩ := ih hi (toAsciiLowercase first :: seen)
        refine ⟨seen', hslot, fun folded => (hseen folded).trans ?_⟩
        rw [List.mem_cons]
        constructor
        · rintro ((rfl | hs) | ⟨j, hj, name, hn, rfl⟩)
          · exact .inr ⟨0, by omega, first, rfl, rfl⟩
          · exact .inl hs
          · exact .inr ⟨j + 1, by omega, name, hn, rfl⟩
        · rintro (hs | ⟨_ | j, hj, name, hn, rfl⟩)
          · exact .inl (.inr hs)
          · obtain rfl : first = name := Option.some.inj (Option.some.inj hn)
            exact .inl (.inl rfl)
          · exact .inr ⟨j, by omega, name, hn, rfl⟩

theorem length_buildContextNodes (is : List ℕ) (seen : List Bytes) :
    (area.buildContextNodes is seen).length = is.length := by
  induction is generalizing seen with
  | nil => rfl
  | cons i rest ih =>
    rw [buildContextNodes]
    cases area.tryBuildContextNode i seen <;> simp [ih]

theorem contextNames_eq_ok {names : List (Option Bytes)} (h : area.contextNames = .ok names) :
    (∀ name, some name ∈ names → ContextName name) ∧
      (names.reduceOption.map toAsciiLowercase).Nodup := by
  have hspec := fun n => area.buildContextNodes_spec (List.range n) []
  simp only [contextNames, bind, Except.bind, pure, Except.pure] at h
  split_ifs at h
  · cases hc : quiet (area.contextOffset (quiet area.numContexts - 1)).run with
    | error e => rw [hc] at h; cases h
    | ok _ =>
      rw [hc] at h
      cases h
      exact ⟨fun name hn => ((hspec _).1 name hn).1, (hspec _).2⟩
  · cases h
    exact ⟨fun name hn => ((hspec _).1 name hn).1, (hspec _).2⟩

end PropertyInfoArea

end RsProperties
