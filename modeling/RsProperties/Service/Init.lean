import RsProperties.PropFiles.ContextRules
import RsProperties.Store.AllOrNothing
import RsProperties.Store.ContextNodes

/-!
# Starting the service

`init_system_properties_sync` brings a properties directory up: it builds the trie of the property-contexts
files and writes it to `property_info`, loads the build.prop files, creates the areas with `new_area`, and adds
what it has loaded, key by key.

The directory is the state; what the operating system may refuse along the way is part of the environment.
The areas of the instance live in the store from the moment they are mapped, so the directory keeps them as
they were created. `io_other` only changes the type of an error and is left out.
-/

namespace RsProperties.Init

open ByteMem StateExcept SystemProperties

/-! ### The directory -/

/-- A properties directory, and whether some other instance holds the flock of its `.writer_lock`. -/
structure PropertiesDir where
  files : Bytes → Option DiskFile
  lockHeld : Bool

/-- The system calls of `PropertyAreaMap::new_rw` that may refuse. -/
inductive AreaFailure
  | opening (msg : String)
  | sizing (msg : String)
  | mapping (msg : String)

/-- The environment of a start: what a path names, for the directory as it is; where the directory is;
whether the build enforces ownership; the metadata of a file created with a mode; and the failures of the
operating system. -/
structure Env where
  fs : PropertiesDir → FileSystem
  dir : Bytes
  strict : Bool
  created : ℕ → FileMetadata
  createInfoFails : Option String
  /-- `write_all` fails after so many bytes. -/
  writeInfoFails : Option (ℕ × String)
  openLockFails : Option String
  unlinkFails : Bytes → Bool
  createAreaFails : Bytes → Option AreaFailure

/-- Steps of a start: the directory keeps what was done to it. -/
abbrev InitM := EStateM Error PropertiesDir

namespace PropertiesDir

def setFile (dir : PropertiesDir) (name : Bytes) (file : Option DiskFile) : PropertiesDir :=
  { dir with files := Function.update dir.files name file }

@[simp]
theorem setFile_self (dir : PropertiesDir) (name : Bytes) (file : Option DiskFile) :
    (dir.setFile name file).files name = file := Function.update_self ..

theorem setFile_of_ne (dir : PropertiesDir) {name other : Bytes} (file : Option DiskFile)
    (h : other ≠ name) : (dir.setFile name file).files other = dir.files other :=
  Function.update_of_ne h ..

/-- `File::open`. -/
def openFile (dir : PropertiesDir) (name : Bytes) : Except Error DiskFile :=
  match dir.files name with
  | some file => .ok file
  | none => .error (.io "No such file or directory (os error 2)")

end PropertiesDir

section Steps

variable (env : Env)

/-- The metadata of a file that is opened and, where it is missing, created. -/
def metadataOf (dir : PropertiesDir) (name : Bytes) (mode : ℕ) : FileMetadata :=
  match dir.files name with
  | some file => file.metadata
  | none => env.created mode

/-- `property_info` with the given content, in a file that keeps its metadata. -/
def withInfo (dir : PropertiesDir) (data : Bytes) : PropertiesDir :=
  dir.setFile propertyInfoFileName (some ⟨metadataOf env dir propertyInfoFileName 0o666, data⟩)

/-- `File::create(..)?.write_all(data)?`: the file is truncated before the first byte is written. -/
def writePropertyInfo (data : Bytes) : InitM Unit := fun dir =>
  match env.createInfoFails with
  | some msg => .error (.io msg) dir
  | none =>
    match env.writeInfoFails with
    | some (n, msg) => .error (.io msg) (withInfo env dir (data.take n))
    | none => .ok () (withInfo env dir data)

/-- `acquire_writer_lock`. -/
def acquireWriterLock : InitM Unit := fun dir =>
  let path := display (pathJoin env.dir writerLockName)
  match env.openLockFails with
  | some msg => .error (.context s!"Failed to open writer lock \"{path}\"" (.io msg)) dir
  | none =>
    let dir := dir.setFile writerLockName
      (some ((dir.files writerLockName).getD ⟨env.created 0o600, []⟩))
    if dir.lockHeld then
      .error (.lock s!"Writable property area already owned by another instance (\"{path}\"): Resource temporarily unavailable (os error 11)")
        dir
    else .ok () dir

/-- `PropertyAreaMap::new_rw` on the file of an area: the stale file is removed, and the new one is created
exclusively, sized and mapped. A failure to size or to map it leaves it behind. -/
def newRwFile (name : Bytes) : InitM Unit := fun dir =>
  let dir := if env.unlinkFails name then dir else dir.setFile name none
  let path := display (pathJoin env.dir name)
  let openError := fun msg => Error.context s!"Failed to create property area \"{path}\"" (.io msg)
  let created := fun bytes => dir.setFile name (some ⟨env.created 0o444, bytes⟩)
  match dir.files name with
  | some _ => .error (openError "File exists (os error 17)") dir
  | none =>
    match env.createAreaFails name with
    | some (.opening msg) => .error (openError msg) dir
    | some (.sizing msg) =>
      .error (.context s!"Failed to size property area \"{path}\"" (.errno msg)) (created [])
    | some (.mapping msg) => .error (.errno msg) (created (List.replicate paSize 0))
    | none => .ok () (created (slice PropertyAreaMap.newRw.mmap.data 0 paSize))

def newRwFiles : List Bytes → InitM Unit
  | [] => return ()
  | name :: names => do
    newRwFile env name
    newRwFiles names

/-- `SystemProperties::new_area`. The directory is there: `property_info` was loaded from it. -/
def newArea : InitM SystemProperties := do
  let dir ← get
  let area ← ofExcept (PropertyInfoArea.loadPath env.strict (pathJoin env.dir propertyInfoFileName)
    (dir.openFile propertyInfoFileName))
  let slots ← ofExcept area.contextNames
  acquireWriterLock env
  newRwFiles env (slots.reduceOption ++ [propertiesSerialName])
  ofExcept (SystemProperties.newArea area)

end Steps

/-! ### The start -/

/-- The rules of the property-contexts files, in order. -/
def parseFiles (fs : FileSystem) : List Bytes → Except Error (List PropertyInfoEntry)
  | [] => .ok []
  | file :: files => do
    let (entries, _) ← PropertyInfoEntry.parseFromFile fs file false
    let rest ← parseFiles fs files
    return entries ++ rest

/-- The build.prop files, loaded in order into one map. -/
def loadFiles (fs : FileSystem) : List Bytes → PropertyMap → Except Error PropertyMap
  | [], properties => .ok properties
  | file :: files, properties =>
    match loadPropertiesFromFile fs file none properties with
    | .ok _ properties => loadFiles fs files properties
    | .error e _ => .error e

/-- The order of a `BTreeMap`. -/
def keyOrder (a b : Str × Str) : Prop := (compare a.1.bytes b.1.bytes).isLE = true

instance : DecidableRel keyOrder := fun _ _ => inferInstanceAs (Decidable (_ = true))

/-- The loop that adds the properties. -/
def addAll : List (Str × Str) → StoreM Unit
  | [] => return ()
  | (key, value) :: entries => do
    SystemProperties.add key value
    addAll entries

def defaultContext : Str := ⟨ascii "u:object_r:build_prop:s0", by decide⟩

def defaultType : Str := ⟨ascii "string", by decide⟩

def initSystemPropertiesSync (env : Env) (propertyContextsFiles buildPropFiles : List Bytes) :
    InitM SystemProperties := do
  let dir ← get
  let propertyInfos ← ofExcept (parseFiles (env.fs dir) propertyContextsFiles)
  let data ← ofExcept (buildTrie propertyInfos defaultContext defaultType)
  writePropertyInfo env data
  let dir ← get
  let properties ← ofExcept (loadFiles (env.fs dir) buildPropFiles .empty)
  let systemProperties ← newArea env
  match addAll (properties.entries.insertionSort keyOrder) systemProperties with
  | .ok _ systemProperties => return systemProperties
  | .error e _ => throw e

/-! ### What a start stores -/

/-- The loop adds exactly the entries: each key reads its value, and all other names are as before. -/
theorem addAll_eq_ok {entries : List (Str × Str)} {sp sp' : SystemProperties} (hs : sp.AllSound)
    (hnodup : (entries.map Prod.fst).Nodup)
    (hnone : ∀ e ∈ entries, sp.value e.1.bytes = none) (h : addAll entries sp = .ok () sp') :
    sp'.propertyInfo = sp.propertyInfo ∧ (∀ e ∈ entries, sp'.value e.1.bytes = some e.2) ∧
      ∀ n, (∀ e ∈ entries, n ≠ e.1.bytes) → sp'.value n = sp.value n := by
  induction entries generalizing sp with
  | nil =>
    cases h
    exact ⟨rfl, by simp, fun _ _ => rfl⟩
  | cons e entries ih =>
    obtain ⟨key, value⟩ := e
    obtain ⟨_, sp1, hadd, hrest⟩ := bind_eq_ok.mp h
    obtain ⟨hs1, hinfo1, hkey1, hother1⟩ := hs.add_value hadd
    rw [List.map_cons, List.nodup_cons] at hnodup
    have hne : ∀ e ∈ entries, e.1.bytes ≠ key.bytes := fun e he heq =>
      hnodup.1 (List.mem_map.mpr ⟨e, he, Str.ext heq⟩)
    obtain ⟨hinfo, hkeys, hother⟩ := ih hs1 hnodup.2
      (fun e he => (hother1 _ (hne e he)).trans (hnone e (List.mem_cons_of_mem _ he))) hrest
    refine ⟨hinfo.trans hinfo1, fun e he => ?_, fun n hn => ?_⟩
    · rcases List.mem_cons.mp he with rfl | he
      · rw [hother key.bytes fun e he => (hne e he).symm, hkey1, hnone (key, value) (by simp)]
        rfl
      · exact hkeys e he
    · rw [hother n fun e he => hn e (List.mem_cons_of_mem _ he), hother1 n (hn (key, value) (by simp))]

theorem getWithResult_eq_ok {sp : SystemProperties} {key : Bytes} {value : Str} :
    sp.getWithResult key = .ok value ↔ sp.value key = some value := by
  rw [SystemProperties.value]
  cases sp.getWithResult key <;> simp [Except.toOption]

/-- **A fresh store holds what is added to it**: whatever area each key is routed to, it reads its value,
and nothing else has one. -/
theorem addAll_newArea {info : PropertyInfoArea} {sp sp' : SystemProperties} {properties : PropertyMap}
    (hnew : SystemProperties.newArea info = .ok sp)
    (h : addAll (properties.entries.insertionSort keyOrder) sp = .ok () sp') :
    sp'.propertyInfo = info ∧
      ∀ key value, sp'.getWithResult key = .ok value ↔ properties.get? key = some value := by
  have hperm := List.perm_insertionSort keyOrder properties.entries
  obtain ⟨hinfo, hkeys, hother⟩ := addAll_eq_ok (allSound_newArea hnew)
    ((hperm.map Prod.fst).nodup_iff.mpr properties.nodup) (fun e _ => value_newArea hnew _) h
  refine ⟨hinfo.trans (newArea_eq_ok hnew).1, fun key value => ?_⟩
  rw [getWithResult_eq_ok, PropertyMap.get?_eq_some]
  constructor
  · intro hv
    by_cases hin : ∃ e ∈ properties.entries, key = e.1.bytes
    · obtain ⟨⟨k, v⟩, hmem, rfl⟩ := hin
      rw [hkeys _ (hperm.mem_iff.mpr hmem)] at hv
      cases hv
      exact ⟨k, hmem, rfl⟩
    · rw [hother key fun e he heq => hin ⟨e, hperm.mem_iff.mp he, heq⟩, value_newArea hnew] at hv
      cases hv
  · rintro ⟨k, hmem, rfl⟩
    exact hkeys (k, value) (hperm.mem_iff.mpr hmem)

section Stored

variable {env : Env} {dir dir' : PropertiesDir}

theorem ofExcept_eq_ok {α : Type} {x : Except Error α} {a : α}
    (h : (ofExcept x : InitM α) dir = .ok a dir') : x = .ok a ∧ dir' = dir := by
  cases x with
  | error e => cases h
  | ok b =>
    cases h
    exact ⟨rfl, rfl⟩

theorem writePropertyInfo_eq_ok {data : Bytes} {u : Unit}
    (h : writePropertyInfo env data dir = .ok u dir') : dir' = withInfo env dir data := by
  unfold writePropertyInfo at h
  split at h
  · cases h
  · split at h
    · cases h
    · cases h
      rfl

/-- The instance is built over the `property_info` of the directory. -/
theorem newArea_eq_ok' {sp : SystemProperties} (h : Init.newArea env dir = .ok sp dir') :
    ∃ area file, dir.files propertyInfoFileName = some file ∧
      PropertyInfoArea.new file.bytes = some area ∧ SystemProperties.newArea area = .ok sp := by
  rw [Init.newArea, bind_ok (get_run dir)] at h
  obtain ⟨area, dir1, hload, h1⟩ := bind_eq_ok.mp h
  obtain ⟨slots, dir2, -, h2⟩ := bind_eq_ok.mp h1
  obtain ⟨_, dir3, -, h3⟩ := bind_eq_ok.mp h2
  obtain ⟨_, dir4, -, h4⟩ := bind_eq_ok.mp h3
  have hnew := (ofExcept_eq_ok h4).1
  replace hload := (ofExcept_eq_ok hload).1
  refine ⟨area, ?_⟩
  unfold PropertyInfoArea.loadPath PropertiesDir.openFile at hload
  cases hf : dir.files propertyInfoFileName with
  | none =>
    rw [hf] at hload
    cases hload
  | some file =>
    rw [hf] at hload
    dsimp only at hload
    split at hload
    · cases hload
    · rename_i hval
      split_ifs at hload
      cases hload
      exact ⟨file, rfl, dif_pos (validateFileMetadata_size hval), hnew⟩

/-- **A start stores exactly what it loaded.** When the start succeeds, the property-contexts files parse to
rules, the instance routes by the trie built of these rules, the build.prop files load into one map, and
a key reads a value exactly when it has this value in the map. -/
theorem init_stores_loaded {propertyContextsFiles buildPropFiles : List Bytes}
    {sp : SystemProperties}
    (h : initSystemPropertiesSync env propertyContextsFiles buildPropFiles dir = .ok sp dir') :
    ∃ rules data properties, parseFiles (env.fs dir) propertyContextsFiles = .ok rules ∧
      buildTrie rules defaultContext defaultType = .ok data ∧
      PropertyInfoArea.new data = some sp.propertyInfo ∧
      loadFiles (env.fs (withInfo env dir data)) buildPropFiles .empty = .ok properties ∧
      ∀ key value, sp.getWithResult key = .ok value ↔ properties.get? key = some value := by
  rw [initSystemPropertiesSync, bind_ok (get_run dir)] at h
  obtain ⟨rules, dir1, r1, h1⟩ := bind_eq_ok.mp h
  obtain ⟨hparse, rfl⟩ := ofExcept_eq_ok r1
  obtain ⟨data, dir2, r2, h2⟩ := bind_eq_ok.mp h1
  obtain ⟨hbuild, rfl⟩ := ofExcept_eq_ok r2
  obtain ⟨_, dir3, hwrite, h3⟩ := bind_eq_ok.mp h2
  obtain rfl := writePropertyInfo_eq_ok hwrite
  rw [bind_ok (get_run _)] at h3
  obtain ⟨properties, dir4, r4, h4⟩ := bind_eq_ok.mp h3
  obtain ⟨hload, rfl⟩ := ofExcept_eq_ok r4
  obtain ⟨sp0, dir5, harea, h5⟩ := bind_eq_ok.mp h4
  obtain ⟨area, file, hfile, hinfo, hnew⟩ := newArea_eq_ok' harea
  have hdata : file.bytes = data := by
    rw [withInfo, PropertiesDir.setFile_self] at hfile
    exact congrArg DiskFile.bytes (Option.some.inj hfile).symm
  rw [hdata] at hinfo
  cases hadd : addAll (properties.entries.insertionSort keyOrder) sp0 with
  | error e sp1 =>
    rw [hadd] at h5
    cases h5
  | ok u sp1 =>
    rw [hadd] at h5
    cases h5
    obtain ⟨hroute, hget⟩ := addAll_newArea hnew hadd
    exact ⟨rules, data, properties, hparse, hbuild, hroute.symm ▸ hinfo, hload, hget⟩

end Stored

/-- An environment in which the operating system refuses nothing. -/
def calmEnv (fs : FileSystem) : Env where
  fs := fun _ => fs
  dir := ascii "/dev/p"
  strict := true
  created := fun mode => ⟨true, mode &&& 0o755, 0, 0⟩
  createInfoFails := none
  writeInfoFails := none
  openLockFails := none
  unlinkFails := fun _ => false
  createAreaFails := fun _ => none

/-- One property-contexts file and two build.prop files, the second of which imports the first. -/
def sampleFiles : FileSystem where
  canonicalize := some
  openFile := fun path =>
    if path = ascii "contexts" then .ok (.ofBytes (ascii "# rules\na. ca prefix string\n"))
    else if path = ascii "base.prop" then .ok (.ofBytes (ascii "a.b = 0\nname=base\n"))
    else if path = ascii "build.prop" then
      .ok (.ofBytes (ascii "name=base\nimport $\x7bname\x7d.prop\na.b=1\nro.c=\n"))
    else .error "No such file or directory (os error 2)"

def emptyDir : PropertiesDir := ⟨fun _ => none, false⟩

theorem init_stores_loaded_sample : ∃ sp dir', initSystemPropertiesSync (calmEnv sampleFiles)
      [ascii "contexts"] [ascii "build.prop"] emptyDir = .ok sp dir' ∧
    ∃ data properties,
      loadFiles sampleFiles [ascii "build.prop"] .empty = .ok properties ∧
      PropertyInfoArea.new data = some sp.propertyInfo ∧
      properties.get? (ascii "a.b") = some ⟨ascii "1", by decide⟩ ∧
      sp.getWithResult (ascii "a.b") = .ok ⟨ascii "1", by decide⟩ := by
  have hok : succeeded (initSystemPropertiesSync (calmEnv sampleFiles) [ascii "contexts"]
      [ascii "build.prop"] emptyDir) = true := by
    decide +kernel
  have hload : ((loadFiles sampleFiles [ascii "build.prop"] .empty).toOption.any fun properties =>
      properties.get? (ascii "a.b") == some ⟨ascii "1", by decide⟩) = true := by
    decide +kernel
  cases hinit : initSystemPropertiesSync (calmEnv sampleFiles) [ascii "contexts"]
      [ascii "build.prop"] emptyDir with
  | error e dir' =>
    rw [hinit] at hok
    cases hok
  | ok sp dir' =>
    obtain ⟨rules, data, properties, -, -, hinfo, hprops, hget⟩ := init_stores_loaded hinit
    have hprops' : loadFiles sampleFiles [ascii "build.prop"] .empty = .ok properties := hprops
    rw [hprops'] at hload
    have hvalue : properties.get? (ascii "a.b") = some ⟨ascii "1", by decide⟩ := by
      simpa [Except.toOption] using hload
    exact ⟨sp, dir', rfl, data, properties, hprops', hinfo, hvalue, (hget _ _).mpr hvalue⟩

/-! ### A start that loses the writer lock -/

/-- The start fails and leaves every file but `.writer_lock` as it was. -/
def TouchesNothing (env : Env) (propertyContextsFiles buildPropFiles : List Bytes)
    (dir : PropertiesDir) : Prop :=
  ∃ e dir', initSystemPropertiesSync env propertyContextsFiles buildPropFiles dir = .error e dir' ∧
    ∀ name, name ≠ writerLockName → dir'.files name = dir.files name

/-- What `write_all` gets to write. -/
def written (env : Env) (data : Bytes) : Bytes :=
  match env.writeInfoFails with
  | some (n, _) => data.take n
  | none => data

section Lost

variable {env : Env} {dir : PropertiesDir}

theorem ofExcept_error {α : Type} {x : Except Error α} {e : Error} (h : x = .error e)
    (dir : PropertiesDir) : (ofExcept x : InitM α) dir = .error e dir := by
  rw [h]
  rfl

theorem ofExcept_ok {α : Type} {x : Except Error α} {a : α} (h : x = .ok a) (dir : PropertiesDir) :
    (ofExcept x : InitM α) dir = .ok a dir := by
  rw [h]
  rfl

theorem acquireWriterLock_of_held (env : Env) (hheld : dir.lockHeld = true) :
    ∃ e dir', acquireWriterLock env dir = .error e dir' ∧
      ∀ name, name ≠ writerLockName → dir'.files name = dir.files name := by
  unfold acquireWriterLock
  cases env.openLockFails with
  | some msg => exact ⟨_, dir, rfl, fun _ _ => rfl⟩
  | none => exact ⟨_, _, if_pos hheld, fun name hname => dir.setFile_of_ne _ hname⟩

/-- `new_area` takes the lock before it touches anything. -/
theorem newArea_of_held (env : Env) (hheld : dir.lockHeld = true) :
    ∃ e dir', Init.newArea env dir = .error e dir' ∧
      ∀ name, name ≠ writerLockName → dir'.files name = dir.files name := by
  rw [Init.newArea, bind_ok (get_run dir)]
  cases hload : PropertyInfoArea.loadPath env.strict (pathJoin env.dir propertyInfoFileName)
      (dir.openFile propertyInfoFileName) with
  | error e => exact ⟨e, dir, bind_error (ofExcept_error rfl dir), fun _ _ => rfl⟩
  | ok area =>
    rw [bind_ok (ofExcept_ok rfl dir)]
    cases hnames : area.contextNames with
    | error e => exact ⟨e, dir, bind_error (ofExcept_error rfl dir), fun _ _ => rfl⟩
    | ok slots =>
      rw [bind_ok (ofExcept_ok rfl dir)]
      obtain ⟨e, dir', hlock, hfiles⟩ := acquireWriterLock_of_held env hheld
      exact ⟨e, dir', bind_error hlock, hfiles⟩

/-- Once the trie is built and `property_info` can be created, it is overwritten, and the lock is lost only
then. -/
theorem init_of_held (hheld : dir.lockHeld = true) {propertyContextsFiles : List Bytes}
    (buildPropFiles : List Bytes) {rules : List PropertyInfoEntry} {data : Bytes}
    (hparse : parseFiles (env.fs dir) propertyContextsFiles = .ok rules)
    (hbuild : buildTrie rules defaultContext defaultType = .ok data)
    (hcreate : env.createInfoFails = none) :
    ∃ e dir', initSystemPropertiesSync env propertyContextsFiles buildPropFiles dir = .error e dir' ∧
      ∀ name, name ≠ writerLockName →
        dir'.files name = (withInfo env dir (written env data)).files name := by
  rw [initSystemPropertiesSync, bind_ok (get_run dir), bind_ok (ofExcept_ok hparse dir),
    bind_ok (ofExcept_ok hbuild dir)]
  cases hwrite : env.writeInfoFails with
  | some failure =>
    obtain ⟨n, msg⟩ := failure
    have hrun : writePropertyInfo env data dir =
        .error (.io msg) (withInfo env dir (data.take n)) := by
      rw [writePropertyInfo, hcreate, hwrite]
    refine ⟨_, _, bind_error hrun, fun name _ => ?_⟩
    rw [written, hwrite]
  | none =>
    have hrun : writePropertyInfo env data dir = .ok () (withInfo env dir data) := by
      rw [writePropertyInfo, hcreate, hwrite]
    rw [bind_ok hrun, bind_ok (get_run _), written, hwrite]
    cases hload : loadFiles (env.fs (withInfo env dir data)) buildPropFiles .empty with
    | error e => exact ⟨e, _, bind_error (ofExcept_error rfl _), fun _ _ => rfl⟩
    | ok properties =>
      rw [bind_ok (ofExcept_ok rfl _)]
      have hheld' : (withInfo env dir data).lockHeld = true := hheld
      obtain ⟨e, dir', harea, hfiles⟩ := newArea_of_held env hheld'
      exact ⟨e, dir', bind_error harea, hfiles⟩

/-- The overwritten `property_info` is as it was exactly when the bytes written are those it held. -/
theorem withInfo_files_iff (env : Env) (dir : PropertiesDir) (data : Bytes) :
    (∀ name, name ≠ writerLockName → (withInfo env dir data).files name = dir.files name) ↔
      (dir.files propertyInfoFileName).map DiskFile.bytes = some data := by
  have hne : propertyInfoFileName ≠ writerLockName := by decide
  constructor
  · intro h
    rw [← h _ hne, withInfo, PropertiesDir.setFile_self]
    rfl
  · intro h name _
    by_cases hname : name = propertyInfoFileName
    · subst hname
      obtain ⟨file, hfile, rfl⟩ := Option.map_eq_some_iff.mp h
      rw [withInfo, PropertiesDir.setFile_self, metadataOf, hfile]
    · exact dir.setFile_of_ne _ hname

/-- **A start that loses the writer lock** touches nothing exactly when it never gets to overwrite
`property_info` with other bytes: the property-contexts files cannot be read, their rules are rejected,
`property_info` cannot be created, or what gets written is what stands there. -/
theorem touchesNothing_iff (hheld : dir.lockHeld = true)
    (propertyContextsFiles buildPropFiles : List Bytes) :
    TouchesNothing env propertyContextsFiles buildPropFiles dir ↔
      ∀ rules data, parseFiles (env.fs dir) propertyContextsFiles = .ok rules →
        buildTrie rules defaultContext defaultType = .ok data →
        env.createInfoFails.isSome ∨
          (dir.files propertyInfoFileName).map DiskFile.bytes = some (written env data) := by
  cases hparse : parseFiles (env.fs dir) propertyContextsFiles with
  | error e =>
    refine iff_of_true ⟨e, dir, ?_, fun _ _ => rfl⟩ (by simp)
    rw [initSystemPropertiesSync, bind_ok (get_run dir)]
    exact bind_error (ofExcept_error hparse dir)
  | ok rules =>
    cases hbuild : buildTrie rules defaultContext defaultType with
    | error e =>
      refine iff_of_true ⟨e, dir, ?_, fun _ _ => rfl⟩ ?_
      · rw [initSystemPropertiesSync, bind_ok (get_run dir), bind_ok (ofExcept_ok hparse dir)]
        exact bind_error (ofExcept_error hbuild dir)
      · rintro _ _ ⟨⟩ hok
        rw [hbuild] at hok
        cases hok
    | ok data =>
      cases hcreate : env.createInfoFails with
      | some msg =>
        refine iff_of_true ⟨.io msg, dir, ?_, fun _ _ => rfl⟩ (by simp)
        rw [initSystemPropertiesSync, bind_ok (get_run dir), bind_ok (ofExcept_ok hparse dir),
          bind_ok (ofExcept_ok hbuild dir)]
        refine bind_error ?_
        rw [writePropertyInfo, hcreate]
      | none =>
        obtain ⟨e, dir', hrun, hfiles⟩ := init_of_held hheld buildPropFiles hparse hbuild hcreate
        have hsame := withInfo_files_iff env dir (written env data)
        constructor
        · rintro ⟨e', dir'', hrun', hkept⟩ _ _ ⟨⟩ hok
          rw [hbuild] at hok
          cases hok
          rw [hrun] at hrun'
          cases hrun'
          exact .inr (hsame.mp fun name hname => (hfiles name hname).symm.trans (hkept name hname))
        · intro h
          have hinfo := (h rules data rfl hbuild).resolve_left (by simp)
          exact ⟨e, dir', hrun, fun name hname =>
            (hfiles name hname).trans (hsame.mpr hinfo name hname)⟩

end Lost

/-- The directory of a service that was started with the rules of `sampleFiles` and is still running. -/
def runningDir : PropertiesDir :=
  { finalState (initSystemPropertiesSync (calmEnv sampleFiles) [ascii "contexts"] [] emptyDir) with
    lockHeld := true }

/-- A second start with the same rules is refused and changes nothing. -/
theorem touchesNothing_iff_same : runningDir.lockHeld = true ∧
    TouchesNothing (calmEnv sampleFiles) [ascii "contexts"] [] runningDir := by
  refine ⟨rfl, (touchesNothing_iff rfl _ _).mpr fun rules data hparse hbuild => .inr ?_⟩
  have hcheck : ((parseFiles sampleFiles [ascii "contexts"]).toOption.bind fun rules =>
      (buildTrie rules defaultContext defaultType).toOption) =
      (runningDir.files propertyInfoFileName).map DiskFile.bytes := by
    decide +kernel
  have hparse' : parseFiles sampleFiles [ascii "contexts"] = .ok rules := hparse
  rw [hparse'] at hcheck
  simp only [Except.toOption, Option.bind_some, hbuild] at hcheck
  exact hcheck.symm

/-- A second start without rules is refused as well, but has overwritten the `property_info` of the running
service. -/
theorem lost_start_overwrites : runningDir.lockHeld = true ∧
    (runningDir.files writerLockName).isSome = true ∧
    ¬ TouchesNothing (calmEnv sampleFiles) [] [] runningDir := by
  refine ⟨rfl, by decide +kernel, ?_⟩
  rintro ⟨e, dir', hrun, hkept⟩
  have hcheck : (buildTrie [] defaultContext defaultType).toOption.any (fun data =>
      (runningDir.files propertyInfoFileName).map DiskFile.bytes != some data) = true := by
    decide +kernel
  cases hbuild : buildTrie [] defaultContext defaultType with
  | error e =>
    rw [hbuild] at hcheck
    cases hcheck
  | ok data =>
    rw [hbuild] at hcheck
    obtain ⟨e', dir'', hrun', hfiles⟩ :=
      @init_of_held (calmEnv sampleFiles) runningDir rfl [] [] [] data rfl hbuild rfl
    rw [hrun] at hrun'
    cases hrun'
    have hsame := (withInfo_files_iff (calmEnv sampleFiles) runningDir data).mp fun name hname =>
      (hfiles name hname).symm.trans (hkept name hname)
    simp [Except.toOption, hsame] at hcheck

end RsProperties.Init
