import RsProperties.Store.Contexts
import RsProperties.InfoTrie.Serializer

/-!
# Loading `property_info` and the files of its contexts

`PropertyInfoAreaFile::load_path` maps a file that passes the metadata checks and carries the version
and the size its header declares; nothing else about its content is checked. `ContextsSerialized::new`
then gives each declared context one slot. The main result is that no content that loads can make two
slots name one file, or a slot name a file of somebody else.
-/

namespace RsProperties

open ByteMem

/-! ### Loading -/

/-- The part of a file's metadata the loaders look at, besides its size. -/
structure FileMetadata where
  isFile : Bool
  mode : ℕ
  uid : ℕ
  gid : ℕ
  deriving DecidableEq, Repr

/-- A file on disk. -/
structure DiskFile where
  metadata : FileMetadata
  bytes : Bytes
  deriving DecidableEq

/-- The text of a mode, `{:#o}`. -/
def octal (n : ℕ) : String := "0o" ++ String.ofList (Nat.toDigits 8 n)

/-- `validate_file_metadata`. `strict` says whether the build enforces ownership by root. -/
def validateFileMetadata (strict : Bool) (file : DiskFile) (path : Bytes) (minSize : ℕ) :
    Except Error Unit :=
  let md := file.metadata
  if !md.isFile then .error (.fileValidation s!"Not a regular file: \"{display path}\"")
  else if file.bytes.length < minSize then
    .error (.fileSize
      s!"File too small: size={file.bytes.length}, min_size={minSize} for \"{display path}\"")
  else if md.mode &&& 0o022 ≠ 0 then
    .error (.permissionDenied
      s!"File has group or other write permissions: mode={octal md.mode} for \"{display path}\"")
  else if strict && (md.uid != 0 || md.gid != 0) then
    .error (.fileOwnership
      s!"File not owned by root: uid={md.uid}, gid={md.gid} for \"{display path}\"")
  else .ok ()

/-- The size check is what makes the header of a mapped file readable. -/
theorem validateFileMetadata_size {strict : Bool} {file : DiskFile} {path : Bytes} {n : ℕ}
    (h : validateFileMetadata strict file path n = .ok ()) : n ≤ file.bytes.length := by
  simp only [validateFileMetadata] at h
  split_ifs at h
  omega

/-- `PropertyInfoAreaFile::load_path`, of what opening the path gave. -/
def PropertyInfoArea.loadPath (strict : Bool) (path : Bytes) (opened : Except Error DiskFile) :
    Except Error PropertyInfoArea :=
  match opened with
  | .error e => .error (.context s!"File open is failed in: \"{display path}\"" e)
  | .ok file =>
    match h : validateFileMetadata strict file path infoHeaderSize with
    | .error e => .error e
    | .ok () =>
      let area : PropertyInfoArea :=
        { data := fun i => file.bytes.getD i 0, size := file.bytes.length
          header_le := validateFileMetadata_size h }
      if 1 < area.minimumSupportedVersion then
        .error (.fileValidation (s!"Unsupported property_info version in \"{display path}\": " ++
          s!"minimum_supported_version={area.minimumSupportedVersion} (max supported 1)"))
      else if area.headerSize ≠ file.bytes.length then
        .error (.fileValidation (s!"property_info header size {area.headerSize} does not match " ++
          s!"file size {file.bytes.length} in \"{display path}\""))
      else .ok area

/-- `Path::join`: an absolute path replaces the directory. -/
def pathJoin (dir path : Bytes) : Bytes :=
  if path.head? = some 47 then path
  else if dir = [] ∨ dir.getLast? = some 47 then dir ++ path
  else dir ++ 47 :: path

/-- The part of `ContextsSerialized::new` before any file is touched: the loaded area and the
filename of each slot. -/
def loadContexts (strict : Bool) (dir : Bytes) (opened : Except Error DiskFile) :
    Except Error (PropertyInfoArea × List (Option Bytes)) := do
  let area ← PropertyInfoArea.loadPath strict (pathJoin dir propertyInfoFileName) opened
  let names ← area.contextNames
  return (area, names.map (Option.map (pathJoin dir)))

/-! ### The filenames of the slots -/

/-- The name the table declares for a context, if it can be read. -/
def PropertyInfoArea.contextName (area : PropertyInfoArea) (i : ℕ) : Except Error Bytes := do
  let contextOffset ← quiet (area.contextOffset i).run
  area.cstr contextOffset

/-- A name that stays inside its directory and is none of the bookkeeping files, also on a
file system that ignores case. -/
structure SafeFilename (name : Bytes) : Prop where
  nonempty : name ≠ []
  ascii : ∀ c ∈ name, c < 128
  slash : 47 ∉ name
  dot : name ≠ RsProperties.ascii "."
  dotDot : name ≠ RsProperties.ascii ".."
  lock : toAsciiLowercase name ≠ RsProperties.ascii ".writer_lock"
  serial : toAsciiLowercase name ≠ RsProperties.ascii "properties_serial"
  info : toAsciiLowercase name ≠ RsProperties.ascii "property_info"

theorem contextName_iff {name : Bytes} : ContextName name ↔ SafeFilename name := by
  constructor
  · rintro ⟨hplain, hascii, hres⟩
    simp only [isPlainFilename, Bool.and_eq_true, Bool.not_eq_true', List.contains_eq_mem,
      decide_eq_false_iff_not, List.isEmpty_eq_false_iff, bne_iff_ne] at hplain
    simp only [reservedFilenames, List.mem_cons, List.not_mem_nil, or_false, not_or] at hres
    exact ⟨hplain.1.1.2, by simpa [isAscii] using hascii, hplain.1.1.1, hplain.1.2, hplain.2,
      hres.1, hres.2.1, hres.2.2⟩
  · intro h
    refine ⟨?_, by simpa [isAscii] using h.ascii, ?_⟩
    · simp [isPlainFilename, h.slash, h.nonempty, h.dot, h.dotDot]
    · simp only [reservedFilenames, List.mem_cons, List.not_mem_nil, or_false, not_or]
      exact ⟨h.lock, h.serial, h.info⟩

namespace PropertyInfoArea

variable {area : PropertyInfoArea}

/-- An entry fills its slot exactly if it can be read, passes the checks and is new. -/
theorem tryBuildContextNode_iff {i : ℕ} {seen : List Bytes} {name : Bytes} :
    (area.tryBuildContextNode i seen).toOption.map Prod.fst = some name ↔
      area.contextName i = .ok name ∧ SafeFilename name ∧ toAsciiLowercase name ∉ seen := by
  rw [← contextName_iff]
  simp only [tryBuildContextNode, contextName, bind, Except.bind]
  cases quiet (area.contextOffset i).run with
  | error e => simp [Except.toOption]
  | ok off =>
    cases hc : area.cstr off with
    | error e => simp [hc, Except.toOption]
    | ok name' =>
      simp only [hc]
      constructor
      · intro h
        split_ifs at h with h1 h2 h3 h4 h5 h6
        all_goals try cases h
        exact ⟨rfl, ⟨by simpa using h4, by simpa using h3, by simpa using h5⟩, by simpa using h6⟩
      · rintro ⟨hname, hgood, hnew⟩
        obtain rfl : name' = name := Except.ok.inj hname
        have hsafe := contextName_iff.mp hgood
        have hutf : fromUtf8 name' ≠ none := by
          rw [fromUtf8_of_valid (Utf8.valid_of_ascii hsafe.ascii)]
          exact Option.some_ne_none _
        simp [hsafe.nonempty, hutf, hgood.ascii, hgood.plain, hgood.notReserved, hnew,
          Except.toOption]

/-- The slots, one for each declared context. -/
theorem contextNames_slots {names : List (Option Bytes)} (h : area.contextNames = .ok names) :
    names = area.buildContextNodes (List.range (quiet area.numContexts)) [] := by
  simp only [contextNames, bind, Except.bind, pure, Except.pure] at h
  split_ifs at h
  · cases hc : quiet (area.contextOffset (quiet area.numContexts - 1)).run with
    | error e =>
      rw [hc] at h
      cases h
    | ok _ =>
      rw [hc] at h
      exact (Except.ok.inj h).symm
  · exact (Except.ok.inj h).symm

/-- What decides a slot: its entry, and the folded names of the filled slots before it. -/
theorem contextNames_slot {names : List (Option Bytes)} (h : area.contextNames = .ok names) {i : ℕ}
    (hi : i < names.length) :
    ∃ seen : List Bytes, (∀ name, names[i]? = some (some name) ↔
        area.contextName i = .ok name ∧ SafeFilename name ∧ toAsciiLowercase name ∉ seen) ∧
      ∀ folded, folded ∈ seen ↔ ∃ j < i, ∃ name, names[j]? = some (some name) ∧
        folded = toAsciiLowercase name := by
  obtain rfl := contextNames_slots h
  rw [length_buildContextNodes, List.length_range] at hi
  obtain ⟨seen, hslot, hseen⟩ := area.buildContextNodes_slot (List.getElem?_range hi) []
  refine ⟨seen, fun name => ?_, fun folded => ?_⟩
  · rw [hslot, Option.some_inj, tryBuildContextNode_iff]
  · rw [hseen]
    simp

end PropertyInfoArea

/-- **No content of `property_info` makes two contexts share a file or reach a foreign one.** There is
one slot for each declared context. A filled slot holds the directory joined with the name the table
declares there, and the name is safe; the names of two filled slots differ, also up to case. A slot is
empty only if its entry cannot be read, is not safe, or repeats the name of an earlier filled slot. -/
theorem loadContexts_safe {strict : Bool} {dir : Bytes} {opened : Except Error DiskFile}
    {area : PropertyInfoArea} {nodes : List (Option Bytes)}
    (h : loadContexts strict dir opened = .ok (area, nodes)) :
    nodes.length = quiet area.numContexts ∧
    (∀ i filename, nodes[i]? = some (some filename) →
      ∃ name, area.contextName i = .ok name ∧ filename = pathJoin dir name ∧ SafeFilename name) ∧
    (∀ i j filename filename' name name', i ≠ j → nodes[i]? = some (some filename) →
      nodes[j]? = some (some filename') → area.contextName i = .ok name →
      area.contextName j = .ok name' → toAsciiLowercase name ≠ toAsciiLowercase name') ∧
    ∀ i, nodes[i]? = some none →
      (∃ e, area.contextName i = .error e) ∨
      ∃ name, area.contextName i = .ok name ∧
        (¬ SafeFilename name ∨ ∃ j < i, ∃ name', area.contextName j = .ok name' ∧
          nodes[j]? = some (some (pathJoin dir name')) ∧
          toAsciiLowercase name' = toAsciiLowercase name) := by
  simp only [loadContexts, bind, Except.bind, pure, Except.pure] at h
  split at h
  · cases h
  split at h
  · cases h
  rename_i names hnames
  cases h
  have hlen : names.length = quiet area.numContexts := by
    rw [PropertyInfoArea.contextNames_slots hnames, PropertyInfoArea.length_buildContextNodes,
      List.length_range]
  have hfilled : ∀ i filename, (names.map (Option.map (pathJoin dir)))[i]? = some (some filename) →
      ∃ name, names[i]? = some (some name) ∧ filename = pathJoin dir name ∧ i < names.length := by
    intro i filename hi
    rw [List.getElem?_map] at hi
    obtain ⟨slot, hslot, hmap⟩ := Option.map_eq_some_iff.mp hi
    obtain ⟨name, rfl, rfl⟩ := Option.map_eq_some_iff.mp hmap
    exact ⟨name, hslot, rfl, (List.getElem?_eq_some_iff.mp hslot).1⟩
  -- the later of two filled slots saw the earlier one
  have hdiff : ∀ (i j : ℕ) (name name' : Bytes), i < j → names[i]? = some (some name) →
      names[j]? = some (some name') → toAsciiLowercase name ≠ toAsciiLowercase name' := by
    intro i j name name' hij hi hj heq
    obtain ⟨seen, hslot, hseen⟩ := PropertyInfoArea.contextNames_slot hnames
      (List.getElem?_eq_some_iff.mp hj).1
    exact ((hslot name').mp hj).2.2 ((hseen _).mpr ⟨i, hij, name, hi, heq.symm⟩)
  refine ⟨by rw [List.length_map, hlen], fun i filename hi => ?_,
    fun i j filename filename' name name' hij hi hj hni hnj => ?_, fun i hi => ?_⟩
  · obtain ⟨name, hn, rfl, hlt⟩ := hfilled i filename hi
    obtain ⟨seen, hslot, -⟩ := PropertyInfoArea.contextNames_slot hnames hlt
    obtain ⟨hname, hsafe, -⟩ := (hslot name).mp hn
    exact ⟨name, hname, rfl, hsafe⟩
  · obtain ⟨n, hn, -, hlt⟩ := hfilled i filename hi
    obtain ⟨n', hn', -, hlt'⟩ := hfilled j filename' hj
    obtain ⟨seen, hslot, -⟩ := PropertyInfoArea.contextNames_slot hnames hlt
    obtain ⟨seen', hslot', -⟩ := PropertyInfoArea.contextNames_slot hnames hlt'
    have h1 := ((hslot n).mp hn).1
    have h2 := ((hslot' n').mp hn').1
    rw [hni] at h1
    rw [hnj] at h2
    cases h1
    cases h2
    rcases Nat.lt_or_gt_of_ne hij with hlt | hlt
    · exact hdiff i j _ _ hlt hn hn'
    · exact (hdiff j i _ _ hlt hn' hn).symm
  · have hnone : names[i]? = some none := by
      rw [List.getElem?_map] at hi
      obtain ⟨slot, hslot, hmap⟩ := Option.map_eq_some_iff.mp hi
      rwa [Option.map_eq_none_iff.mp hmap] at hslot
    obtain ⟨seen, hslot, hseen⟩ := PropertyInfoArea.contextNames_slot hnames
      (List.getElem?_eq_some_iff.mp hnone).1
    cases hread : area.contextName i with
    | error e => exact .inl ⟨e, rfl⟩
    | ok name =>
      refine .inr ⟨name, rfl, ?_⟩
      by_cases hsafe : SafeFilename name
      · refine .inr ?_
        have hold : toAsciiLowercase name ∈ seen := by
          by_contra hnew
          have := (hslot name).mpr ⟨hread, hsafe, hnew⟩
          rw [hnone] at this
          cases this
        obtain ⟨j, hj, name', hn', heq⟩ := (hseen _).mp hold
        obtain ⟨seen', hslot', -⟩ := PropertyInfoArea.contextNames_slot hnames
          (List.getElem?_eq_some_iff.mp hn').1
        refine ⟨j, hj, name', ((hslot' name').mp hn').1, ?_, heq.symm⟩
        rw [List.getElem?_map, hn']
        rfl
      · exact .inl hsafe

/-- A file with four declared contexts, two of which differ only in case and one of which is no plain
filename. -/
def sampleInfoFile : DiskFile where
  metadata := ⟨true, 0o644, 0, 0⟩
  bytes := ((buildTrie
      [⟨⟨ascii "m", by decide⟩, ⟨ascii "cm", by decide⟩, ⟨ascii "size", by decide⟩, false⟩,
        ⟨⟨ascii "n", by decide⟩, ⟨ascii "Cm", by decide⟩, ⟨ascii "size", by decide⟩, false⟩,
        ⟨⟨ascii "o", by decide⟩, ⟨ascii "x/y", by decide⟩, ⟨ascii "size", by decide⟩, false⟩]
      ⟨ascii "d", by decide⟩ ⟨ascii "size", by decide⟩).toOption).getD []

/-- The second of the colliding contexts and the one with a slash have no slot of their own. -/
theorem loadContexts_safe_colliding :
    ∃ area nodes, loadContexts true (ascii "/dev/p") (.ok sampleInfoFile) = .ok (area, nodes) ∧
      nodes = [some (ascii "/dev/p/Cm"), none, some (ascii "/dev/p/d"), none] ∧
      area.contextName 1 = .ok (ascii "cm") ∧ area.contextName 3 = .ok (ascii "x/y") ∧
      SafeFilename (ascii "Cm") ∧ SafeFilename (ascii "d") ∧
      toAsciiLowercase (ascii "Cm") ≠ toAsciiLowercase (ascii "d") ∧ ¬ SafeFilename (ascii "x/y") := by
  have hcheck : ((loadContexts true (ascii "/dev/p") (.ok sampleInfoFile)).toOption.any fun r =>
      r.2 == [some (ascii "/dev/p/Cm"), none, some (ascii "/dev/p/d"), none] &&
        (List.range 4).map r.1.contextName ==
          [.ok (ascii "Cm"), .ok (ascii "cm"), .ok (ascii "d"), .ok (ascii "x/y")]) = true := by
    decide +kernel
  cases h : loadContexts true (ascii "/dev/p") (.ok sampleInfoFile) with
  | error e =>
    rw [h] at hcheck
    cases hcheck
  | ok r =>
    obtain ⟨area, nodes⟩ := r
    rw [h] at hcheck
    simp only [Except.toOption, Option.any_some, Bool.and_eq_true, beq_iff_eq] at hcheck
    obtain ⟨hnodes, hnames⟩ := hcheck
    obtain ⟨h0, h1, h2, h3⟩ : area.contextName 0 = .ok (ascii "Cm") ∧
        area.contextName 1 = .ok (ascii "cm") ∧ area.contextName 2 = .ok (ascii "d") ∧
        area.contextName 3 = .ok (ascii "x/y") := by
      simpa [List.range_succ] using hnames
    obtain ⟨-, hfilled, hdiffer, hempty⟩ := loadContexts_safe h
    obtain ⟨name, hn, -, hsafe⟩ := hfilled 0 (ascii "/dev/p/Cm") (by rw [hnodes]; rfl)
    obtain rfl : ascii "Cm" = name := Except.ok.inj (h0.symm.trans hn)
    obtain ⟨name', hn', -, hsafe'⟩ := hfilled 2 (ascii "/dev/p/d") (by rw [hnodes]; rfl)
    obtain rfl : ascii "d" = name' := Except.ok.inj (h2.symm.trans hn')
    refine ⟨area, nodes, rfl, hnodes, h1, h3, hsafe, hsafe',
      hdiffer 0 2 (ascii "/dev/p/Cm") (ascii "/dev/p/d") _ _ (by decide) (by rw [hnodes]; rfl)
        (by rw [hnodes]; rfl) h0 h2, ?_⟩
    rcases hempty 3 (by rw [hnodes]; rfl) with ⟨e, he⟩ |
      ⟨name'', hn'', hbad | ⟨j, hj, other, hother, hslot, hlow⟩⟩
    · rw [h3] at he
      cases he
    · obtain rfl : ascii "x/y" = name'' := Except.ok.inj (h3.symm.trans hn'')
      exact hbad
    · -- no earlier context differs from it only in case
      obtain rfl : ascii "x/y" = name'' := Except.ok.inj (h3.symm.trans hn'')
      interval_cases j
      · obtain rfl : ascii "Cm" = other := Except.ok.inj (h0.symm.trans hother)
        exact absurd hlow (by decide)
      · obtain rfl : ascii "cm" = other := Except.ok.inj (h1.symm.trans hother)
        exact absurd hlow (by decide)
      · obtain rfl : ascii "d" = other := Except.ok.inj (h2.symm.trans hother)
        exact absurd hlow (by decide)

end RsProperties
