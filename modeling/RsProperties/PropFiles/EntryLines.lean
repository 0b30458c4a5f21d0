import RsProperties.PropFiles.Loader

/-!
# The lines of a build.prop file

What the loop of `load_properties_body` makes of a line, apart from loading: nothing, an import, or an entry
of the map (`lineAction`).

The grammar of these lines stands beside the code: a line that is text and not a comment is an import when it
begins with the word, and sets a key when there is an equals sign in it, the key is one the filter lets
through, and no special meaning is attached to the key (`lineAction_eq_entry`, `lineAction_eq_importFile`).
-/

namespace RsProperties

open ByteMem

/-! ### What the loop makes of a line -/

/-- What a line asks for. -/
inductive LineAction
  | skip
  | importFile (path : Bytes)
  | entry (key value : Str)
  deriving DecidableEq

/-- The decisions of the loop of `load_properties_body` on one line. -/
def lineAction (filter : Option Bytes) (line : BoundedLine) : LineAction :=
  if line.truncated then .skip
  else
    match fromUtf8 line.buf with
    | none => .skip
    | some text =>
      let text := text.trim
      if text.bytes.isEmpty || text.bytes.head? = some hash then .skip
      else
        match if filter.isNone then text.stripPrefix importPrefix else none with
        | some path => .importFile path.trim.bytes
        | none =>
          match parseEntry filter text with
          | none => .skip
          | some (key, value) => .entry key value

theorem loadLine_eq (load : Bytes → LoadM Unit) (filter : Option Bytes) (line : BoundedLine) :
    loadLine load filter line =
      match lineAction filter line with
      | .skip => return ()
      | .importFile path => importLine load path
      | .entry key value =>
        modify fun state => { state with properties := state.properties.insert key value } := by
  unfold loadLine lineAction
  by_cases ht : line.truncated = true
  · rw [if_pos ht, if_pos ht]
  rw [if_neg ht, if_neg ht]
  cases fromUtf8 line.buf with
  | none => rfl
  | some text =>
    dsimp only
    by_cases hs : (text.trim.bytes.isEmpty || decide (text.trim.bytes.head? = some hash)) = true
    · rw [if_pos hs, if_pos hs]
    rw [if_neg hs, if_neg hs]
    generalize (if filter.isNone = true then text.trim.stripPrefix importPrefix else none) = path?
    cases path? with
    | some path => rfl
    | none => cases parseEntry filter text.trim <;> rfl

/-! ### What a line says -/

/-- The keys a filter lets through; a final star stands for any rest. -/
inductive Selects : Option Bytes → Bytes → Prop
  | any (key : Bytes) : Selects none key
  | single {key : Bytes} (h : key.getLast? ≠ some 42) : Selects (some key) key
  | starred (stem rest : Bytes) : Selects (some (stem ++ [42])) (stem ++ rest)

/-- The keys no file may set. -/
inductive Reserved : Bytes → Prop
  | control (rest : Bytes) : Reserved (ascii "ctl." ++ rest)
  | powerctl : Reserved (ascii "sys.powerctl")
  | restorecon : Reserved (ascii "selinux.restorecon_recursive")

/-- The text of the line without the white space around it: the line is short enough, it is text, and it is
neither blank nor a comment. -/
def Says (line : BoundedLine) (text : Str) : Prop :=
  line.truncated = false ∧ (∃ whole, fromUtf8 line.buf = some whole ∧ whole.trim = text) ∧
    text.bytes ≠ [] ∧ text.bytes.head? ≠ some hash

theorem Says.unique {line : BoundedLine} {text text' : Str} (h : Says line text) (h' : Says line text') :
    text' = text := by
  obtain ⟨-, ⟨whole, hwhole, rfl⟩, -⟩ := h
  obtain ⟨-, ⟨whole', hwhole', rfl⟩, -⟩ := h'
  rw [hwhole] at hwhole'
  rw [Option.some.inj hwhole']

/-- The text is an import. There are none under a filter. -/
def Imports (filter : Option Bytes) (text path : Str) : Prop :=
  filter = none ∧ text.bytes = importPrefix ++ path.bytes

/-- The line sets `key` to `value`: they stand on the two sides of its first equals sign. -/
def SetsKey (filter : Option Bytes) (line : BoundedLine) (key value : Str) : Prop :=
  ∃ text, Says line text ∧ (∀ path, ¬ Imports filter text path) ∧
    (∃ left right : Str, text.bytes = left.bytes ++ equalsSign :: right.bytes ∧
      equalsSign ∉ left.bytes ∧ key = left.trimEnd ∧ value = right.trim) ∧
    key.bytes ≠ [] ∧ Selects filter key.bytes ∧ ¬ Reserved key.bytes

theorem passesFilter_iff {filter : Option Bytes} {key : Bytes} :
    passesFilter filter key = true ↔ Selects filter key := by
  constructor
  · intro h
    cases filter with
    | none => exact .any key
    | some filter =>
      rw [passesFilter] at h
      split_ifs at h with hstar
      · obtain ⟨rest, rfl⟩ := List.isPrefixOf_iff_prefix.mp h
        have heq := List.dropLast_append_getLast? 42 hstar
        generalize filter.dropLast = stem at heq ⊢
        exact heq ▸ .starred stem rest
      · obtain rfl := of_decide_eq_true h
        exact .single hstar
  · intro h
    cases h with
    | any => rfl
    | single h => simp [passesFilter, h]
    | starred stem rest => simp [passesFilter]

theorem isDisallowed_iff {key : Bytes} : isDisallowed key = true ↔ Reserved key := by
  simp only [isDisallowed, Bool.or_eq_true, List.isPrefixOf_iff_prefix, beq_iff_eq]
  constructor
  · rintro ((⟨rest, rfl⟩ | rfl) | rfl)
    · exact .control rest
    · exact .powerctl
    · exact .restorecon
  · rintro (⟨rest⟩ | _ | _)
    · exact .inl (.inl ⟨rest, rfl⟩)
    · exact .inl (.inr rfl)
    · exact .inr rfl

/-- **The entries.** -/
theorem parseEntry_eq_some {filter : Option Bytes} {text key value : Str} :
    parseEntry filter text = some (key, value) ↔
      (∃ left right : Str, text.bytes = left.bytes ++ equalsSign :: right.bytes ∧
        equalsSign ∉ left.bytes ∧ key = left.trimEnd ∧ value = right.trim) ∧
      key.bytes ≠ [] ∧ Selects filter key.bytes ∧ ¬ Reserved key.bytes := by
  have hsides : ∀ left right : Str, text.splitOnce equalsSign (by decide) = some (left, right) ↔
      text.bytes = left.bytes ++ equalsSign :: right.bytes ∧ equalsSign ∉ left.bytes := by
    intro left right
    rw [Str.splitOnce_eq_some, cutAt_eq_some_iff]
  rw [parseEntry]
  cases hcut : text.splitOnce equalsSign (by decide) with
  | none =>
    refine iff_of_false nofun ?_
    rintro ⟨⟨left, right, htext, hleft, -⟩, -⟩
    rw [(hsides left right).mpr ⟨htext, hleft⟩] at hcut
    cases hcut
  | some sides =>
    obtain ⟨left, right⟩ := sides
    obtain ⟨htext, hleft⟩ := (hsides left right).mp hcut
    have hkey : (left.trimEnd.bytes = [] || !passesFilter filter left.trimEnd.bytes ||
        isDisallowed left.trimEnd.bytes) = false ↔ left.trimEnd.bytes ≠ [] ∧
          Selects filter left.trimEnd.bytes ∧ ¬ Reserved left.trimEnd.bytes := by
      rw [← passesFilter_iff, ← isDisallowed_iff]
      simp [and_assoc]
    constructor
    · intro h
      dsimp only at h
      split_ifs at h with hbad
      obtain ⟨rfl, rfl⟩ := Prod.mk.inj (Option.some.inj h)
      exact ⟨⟨left, right, htext, hleft, rfl, rfl⟩, hkey.mp (Bool.eq_false_iff.mpr hbad)⟩
    · rintro ⟨⟨left', right', htext', hleft', rfl, rfl⟩, hok⟩
      -- the first equals sign is at one place only
      rw [(hsides left' right').mpr ⟨htext', hleft'⟩] at hcut
      obtain ⟨rfl, rfl⟩ := Prod.mk.inj (Option.some.inj hcut)
      exact if_neg (Bool.eq_false_iff.mp (hkey.mpr hok))

theorem stripImport_eq_some {filter : Option Bytes} {text path : Str} :
    (if filter.isNone then text.stripPrefix importPrefix else none) = some path ↔
      Imports filter text path := by
  rw [Imports, ← Str.stripPrefix_eq_some]
  cases filter <;> simp

section Action

variable {filter : Option Bytes} {line : BoundedLine}

/-- A line that says nothing is skipped; otherwise its text decides. -/
theorem lineAction_cases (filter : Option Bytes) (line : BoundedLine) :
    ((∀ text, ¬ Says line text) ∧ lineAction filter line = .skip) ∨
    ∃ text, Says line text ∧
      lineAction filter line =
        match if filter.isNone then text.stripPrefix importPrefix else none with
        | some path => .importFile path.trim.bytes
        | none => (parseEntry filter text).elim .skip fun e => .entry e.1 e.2 := by
  unfold lineAction
  by_cases htrunc : line.truncated = true
  · exact .inl ⟨fun text h => by simp [h.1] at htrunc, if_pos htrunc⟩
  rw [if_neg htrunc]
  cases hwhole : fromUtf8 line.buf with
  | none =>
    refine .inl ⟨?_, rfl⟩
    rintro text ⟨-, ⟨whole, h, -⟩, -⟩
    rw [hwhole] at h
    cases h
  | some whole =>
    have hsaid : ∀ text, Says line text ↔ whole.trim = text ∧ text.bytes ≠ [] ∧
        text.bytes.head? ≠ some hash := by
      intro text
      simp [Says, hwhole, htrunc]
    dsimp only
    by_cases hs : (whole.trim.bytes.isEmpty || decide (whole.trim.bytes.head? = some hash)) = true
    · refine .inl ⟨fun text h => ?_, if_pos hs⟩
      obtain ⟨rfl, hne, hhash⟩ := (hsaid text).mp h
      simp [hne, hhash] at hs
    · refine .inr ⟨whole.trim, (hsaid _).mpr ⟨rfl, ?_⟩, ?_⟩
      · simpa using hs
      · rw [if_neg hs]
        generalize (if filter.isNone = true then whole.trim.stripPrefix importPrefix else none) = path?
        cases path? with
        | some path => rfl
        | none => cases parseEntry filter whole.trim <;> rfl

/-- **A line sets a key** for the loader exactly when it does by the grammar. -/
theorem lineAction_eq_entry {key value : Str} :
    lineAction filter line = .entry key value ↔ SetsKey filter line key value := by
  rcases lineAction_cases filter line with ⟨hnone, hact⟩ | ⟨text, htext, hact⟩
  · rw [hact]
    exact iff_of_false nofun fun ⟨text, h, _⟩ => hnone text h
  have hsets : SetsKey filter line key value ↔ (∀ path, ¬ Imports filter text path) ∧
      parseEntry filter text = some (key, value) := by
    rw [parseEntry_eq_some]
    constructor
    · rintro ⟨text', h, hrest⟩
      obtain rfl := htext.unique h
      exact hrest
    · exact fun h => ⟨text, htext, h⟩
  rw [hact, hsets]
  simp only [← stripImport_eq_some]
  cases (if filter.isNone = true then text.stripPrefix importPrefix else none) with
  | some path => exact iff_of_false nofun fun h => h.1 path rfl
  | none =>
    cases parseEntry filter text with
    | none => simp
    | some e => simp [Prod.ext_iff]

/-- **A line is an import** for the loader exactly when it is by the grammar. -/
theorem lineAction_eq_importFile {path : Bytes} :
    lineAction filter line = .importFile path ↔
      ∃ text rest, Says line text ∧ Imports filter text rest ∧ path = rest.trim.bytes := by
  rcases lineAction_cases filter line with ⟨hnone, hact⟩ | ⟨text, htext, hact⟩
  · rw [hact]
    exact iff_of_false nofun fun ⟨text, _, h, _⟩ => hnone text h
  have himp : (∃ text rest, Says line text ∧ Imports filter text rest ∧ path = rest.trim.bytes) ↔
      ∃ rest, Imports filter text rest ∧ path = rest.trim.bytes := by
    constructor
    · rintro ⟨text', rest, h, hrest⟩
      obtain rfl := htext.unique h
      exact ⟨rest, hrest⟩
    · exact fun ⟨rest, hrest⟩ => ⟨text, rest, htext, hrest⟩
  rw [hact, himp]
  simp only [← stripImport_eq_some]
  cases (if filter.isNone = true then text.stripPrefix importPrefix else none) with
  | some rest => simp [eq_comm]
  | none => cases parseEntry filter text <;> simp

end Action

end RsProperties
