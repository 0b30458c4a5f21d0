import RsProperties.PropFiles.RuleLines
import RsProperties.Service.Init

/-!
# From rule files to context files

End to end: the text of the property-contexts files is parsed into rules, the rules are built into a trie,
the trie is written, mapped and searched, and the context index it gives a name selects the file its value
lives in. The main result reads this off the text alone (`init_routes`): after a start, and however the
store is used from then on, the file of a name is the one the rules of the files name, two names
share a file exactly when the rules give them one context, and a name has no file only if its context is
no safe filename or collides with another one up to case.
-/

namespace RsProperties

open ByteMem InfoTrie StateExcept

/-! ### The context table of a built trie -/

namespace InfoTrie

/-- What the lookups and the context table of a built image say together: a name's index stands for the
context the rules give it, and no other index does. -/
structure Routed (area : PropertyInfoArea) (rules : List PropertyInfoEntry) (defaultContext : Bytes)
    (contexts : List Bytes) : Prop where
  nodup : contexts.Nodup
  count : quiet area.numContexts = contexts.length
  name : ∀ i s, contexts[i]? = some s → area.contextName i = .ok s
  index : ∀ name, ruleContext rules defaultContext name ≠ [] →
    contexts[(quiet (area.getPropertyInfoIndexes name)).context]? =
      some (ruleContext rules defaultContext name)

/-- **Building a trie** routes by its rules. -/
theorem routed_buildTrie {rules : List PropertyInfoEntry} {defaultContext defaultType : Str}
    {bytes : Bytes} (hbuild : buildTrie rules defaultContext defaultType = .ok bytes)
    (hcontext : ∀ r ∈ rules, r.context.bytes ≠ []) :
    ∃ area contexts, PropertyInfoArea.new bytes = some area ∧
      Routed area rules defaultContext.bytes contexts ∧ (∀ r ∈ rules, RuleOk r) ∧
      (rules.map fun r => (r.kind, r.parts)).Nodup := by
  obtain ⟨builder, area, hb, hnew, himg⟩ := buildTrie_eq_ok hbuild
  refine ⟨area, builder.contexts, hnew, ⟨?_, ?_, ?_, ?_⟩, hb.ruleOk, hb.distinct⟩
  · refine hb.contexts.sorted.imp ?_
    intro a b hlt heq
    have hself : compare b b = .eq := Std.ReflCmp.compare_self
    rw [heq, hself] at hlt
    cases hlt
  · have hcount : area.numContexts = pure builder.contexts.length :=
      tableCount_eq himg.bound himg.tables.contexts le_rfl
    rw [hcount]
    rfl
  · intro i s hs
    obtain ⟨o, ho, hstr⟩ := stringOffset_eq himg.bound himg.tables.contexts le_rfl "Context"
      "contexts_offset" hs
    have hoff : area.contextOffset i = pure o := ho
    rw [PropertyInfoArea.contextName, hoff]
    exact cstr_eq_ok hstr le_rfl (hb.contexts.text s (List.mem_of_getElem? hs)).nul
  · intro name hne
    obtain ⟨ix, hrun, hden⟩ := getPropertyInfoIndexes_eq himg.bound le_rfl himg.root
      (treeOk_of_built hb) name
    rw [lookup_eq hb hcontext] at hden
    have hidx := hden.context
    rw [nonEmpty, if_neg hne, IsIndex, if_neg (by simpa using hne)] at hidx
    rw [hrun]
    exact hidx.2

end InfoTrie

/-! ### Files stay -/

namespace SystemProperties

/-- The files of the slots. -/
def files (sp : SystemProperties) : List (Option Bytes) :=
  sp.contextNodes.map (Option.map ContextNode.filename)

/-- The same names and files. -/
structure SameFiles (sp sp' : SystemProperties) : Prop where
  info : sp'.propertyInfo = sp.propertyInfo
  files : sp'.files = sp.files

namespace SameFiles

variable {sp sp' sp'' : SystemProperties}

theorem refl (sp : SystemProperties) : SameFiles sp sp := ⟨rfl, rfl⟩

theorem trans (h : SameFiles sp sp') (h' : SameFiles sp' sp'') : SameFiles sp sp'' :=
  ⟨h'.info.trans h.info, h'.files.trans h.files⟩

theorem setArea {i : ℕ} {node : ContextNode} (h : sp.contextNodes[i]? = some (some node))
    (pa : PropertyAreaMap) : SameFiles sp (sp.setArea i node pa) := by
  refine ⟨rfl, ?_⟩
  refine List.ext_getElem? fun j => ?_
  rw [SystemProperties.files, SystemProperties.files, List.getElem?_map, List.getElem?_map,
    SystemProperties.setArea, List.getElem?_set]
  split_ifs with hj hlt
  · rw [← hj, h]
    rfl
  · exact absurd (List.getElem?_eq_some_iff.mp h).1 hlt
  · rfl

/-- The common end of the writers. -/
theorem publish {i : ℕ} {node : ContextNode} (h : sp.contextNodes[i]? = some (some node))
    (op : AreaM Unit) : SameFiles sp (finalState ((onArea i node op >>= fun _ => bumpSerial) sp)) := by
  cases hop : op node.propertyArea with
  | ok u pa =>
    obtain ⟨sp', hrun, hpub⟩ := publish_ok sp i hop
    rw [hrun]
    refine (setArea h pa).trans ⟨hpub.info, ?_⟩
    exact congrArg (List.map _) hpub.nodes
  | error e pa =>
    rw [publish_error hop]
    exact setArea h pa

theorem update (index : PropertyIndex) (value : Str) :
    SameFiles sp (finalState (SystemProperties.update index value sp)) := by
  cases hnode : sp.propAreaMutWithIndex index.contextIndex with
  | error e =>
    rw [SystemProperties.update, bind_error (inspect_error hnode)]
    exact refl sp
  | ok node =>
    cases hold : inspectForUpdate node.propertyArea index.propertyIndex value.bytes with
    | error e =>
      rw [SystemProperties.update, bind_ok (inspect_ok hnode), bind_error (inspect_error hold)]
      exact refl sp
    | ok backup =>
      rw [SystemProperties.update, bind_ok (inspect_ok hnode), bind_ok (inspect_ok hold)]
      exact publish (propAreaMutWithIndex_eq_ok hnode) _

theorem add (name value : Str) : SameFiles sp (finalState (SystemProperties.add name value sp)) := by
  cases hval : validateValueLen name.bytes value.bytes with
  | error e =>
    rw [SystemProperties.add, bind_error (inspect_error hval)]
    exact refl sp
  | ok u =>
    cases hnode : sp.propAreaMutForName name.bytes with
    | error e =>
      rw [SystemProperties.add, bind_ok (inspect_ok hval), bind_error (inspect_error hnode)]
      exact refl sp
    | ok r =>
      rw [SystemProperties.add, bind_ok (inspect_ok hval), bind_ok (inspect_ok hnode)]
      exact publish (propAreaMutForName_eq_ok hnode).2 _

/-- **No operation moves a name to another file.** -/
theorem run (op : StoreOp) : SameFiles sp (finalState (op.run sp)) := by
  cases op with
  | add name value => exact add name value
  | update name index value => exact update index value
  | set name value =>
    cases hf : sp.find name.bytes with
    | error e =>
      rw [StoreOp.run, SystemProperties.set, bind_error (inspect_error hf)]
      exact refl sp
    | ok found =>
      rw [StoreOp.run, SystemProperties.set, bind_ok (inspect_ok hf)]
      cases found with
      | some index => exact update index value
      | none => exact add name value

theorem steps {st st' : SystemProperties × List (Str × PropertyIndex)}
    (h : Relation.ReflTransGen StoreStep st st') : SameFiles st.1 st'.1 := by
  induction h with
  | refl => exact refl _
  | tail _ hstep ih =>
    cases hstep with
    | find => exact ih
    | op o => exact ih.trans (run o)

theorem of_addAll {entries : List (Str × Str)} (h : Init.addAll entries sp = .ok () sp') :
    SameFiles sp sp' := by
  induction entries generalizing sp with
  | nil =>
    cases h
    exact refl _
  | cons e entries ih =>
    obtain ⟨_, sp1, hadd, hrest⟩ := bind_eq_ok.mp h
    have hfirst := @add sp e.1 e.2
    rw [hadd] at hfirst
    exact hfirst.trans (ih hrest)

end SameFiles

end SystemProperties

/-! ### The rules of the files -/

namespace Init

/-- Some line of the files is the rule. -/
def FileRule (fs : FileSystem) (files : List Bytes) (r : PropertyInfoEntry) : Prop :=
  ∃ file ∈ files, ∃ reader, fs.openFile file = .ok reader ∧
    ∃ line ∈ reader.lines, PropertyInfoEntry.IsRule line r

theorem mem_parseFiles {fs : FileSystem} {files : List Bytes} {rules : List PropertyInfoEntry}
    (h : parseFiles fs files = .ok rules) (r : PropertyInfoEntry) :
    r ∈ rules ↔ FileRule fs files r := by
  induction files generalizing rules with
  | nil =>
    cases h
    simp [FileRule]
  | cons file files ih =>
    rw [parseFiles] at h
    obtain ⟨⟨entries, errors⟩, hfile, h⟩ := except_bind_eq_ok.mp h
    obtain ⟨rest, hrest, h⟩ := except_bind_eq_ok.mp h
    cases h
    rw [PropertyInfoEntry.parseFromFile] at hfile
    cases hopen : fs.openFile file with
    | error e =>
      rw [hopen] at hfile
      cases hfile
    | ok reader =>
      rw [hopen] at hfile
      have hentries : r ∈ entries ↔ ∃ line ∈ reader.lines, PropertyInfoEntry.IsRule line r := by
        rw [← PropertyInfoEntry.mem_parseLines, Except.ok.inj hfile]
      simp only [List.mem_append, hentries, ih hrest, FileRule, List.exists_mem_cons_iff, hopen,
        Except.ok.injEq, exists_eq_left']

/-- A word of a line is not empty, so a rule has a context. -/
theorem FileRule.context_ne_nil {fs : FileSystem} {files : List Bytes} {r : PropertyInfoEntry}
    (h : FileRule fs files r) : r.context.bytes ≠ [] := by
  obtain ⟨_, -, _, -, line, -, -, text, -, -, -, hwords⟩ := h
  have hword : ∀ w ∈ text.trim.splitWhitespace, w.bytes ≠ [] := by
    intro w hw
    rw [Str.splitWhitespace, List.mem_filter] at hw
    simpa using hw.2
  generalize text.trim.splitWhitespace = words at hwords hword
  cases hwords with
  | legacy => exact hword _ (by simp)
  | typed => exact hword _ (by simp)

/-- What a successful start leaves behind. -/
theorem init_eq_ok {env : Env} {dir dir' : PropertiesDir} {propertyContextsFiles buildPropFiles : List Bytes}
    {sp : SystemProperties}
    (h : initSystemPropertiesSync env propertyContextsFiles buildPropFiles dir = .ok sp dir') :
    ∃ rules data area sp₀, parseFiles (env.fs dir) propertyContextsFiles = .ok rules ∧
      buildTrie rules defaultContext defaultType = .ok data ∧
      PropertyInfoArea.new data = some area ∧ SystemProperties.newArea area = .ok sp₀ ∧
      SystemProperties.SameFiles sp₀ sp := by
  rw [initSystemPropertiesSync, bind_ok (get_run dir)] at h
  obtain ⟨rules, dir1, r1, h1⟩ := bind_eq_ok.mp h
  obtain ⟨hparse, rfl⟩ := ofExcept_eq_ok r1
  obtain ⟨data, dir2, r2, h2⟩ := bind_eq_ok.mp h1
  obtain ⟨hbuild, rfl⟩ := ofExcept_eq_ok r2
  obtain ⟨_, dir3, hwrite, h3⟩ := bind_eq_ok.mp h2
  obtain rfl := writePropertyInfo_eq_ok hwrite
  rw [bind_ok (get_run _)] at h3
  obtain ⟨properties, dir4, r4, h4⟩ := bind_eq_ok.mp h3
  obtain ⟨-, rfl⟩ := ofExcept_eq_ok r4
  obtain ⟨sp₀, dir5, harea, h5⟩ := bind_eq_ok.mp h4
  obtain ⟨area, file, hfile, hinfo, hnew⟩ := newArea_eq_ok' harea
  have hdata : file.bytes = data := by
    rw [withInfo, PropertiesDir.setFile_self] at hfile
    exact congrArg DiskFile.bytes (Option.some.inj hfile).symm
  rw [hdata] at hinfo
  cases hadd : addAll (properties.entries.insertionSort keyOrder) sp₀ with
  | error e sp1 =>
    rw [hadd] at h5
    cases h5
  | ok u sp1 =>
    rw [hadd] at h5
    cases h5
    exact ⟨rules, data, area, sp₀, hparse, hbuild, hinfo, hnew, .of_addAll hadd⟩

/-- The slot of a context of the table. -/
theorem slot_of_context {area : PropertyInfoArea} {rules : List PropertyInfoEntry}
    {defaultContext : Bytes} {contexts : List Bytes} {slots : List (Option Bytes)}
    (hr : Routed area rules defaultContext contexts) (hslots : area.contextNames = .ok slots) {i : ℕ}
    {context : Bytes} (hi : contexts[i]? = some context) :
    (slots[i]? = some (some context) ∧ SafeFilename context) ∨
    (slots[i]? = some none ∧ (¬ SafeFilename context ∨ ∃ j other, area.contextName j = .ok other ∧
      other ≠ context ∧ toAsciiLowercase other = toAsciiLowercase context)) := by
  have hlen : slots.length = contexts.length := by
    rw [PropertyInfoArea.contextNames_slots hslots, PropertyInfoArea.length_buildContextNodes,
      List.length_range, hr.count]
  have hlt : i < contexts.length := (List.getElem?_eq_some_iff.mp hi).1
  obtain ⟨seen, hslot, hseen⟩ := PropertyInfoArea.contextNames_slot hslots (hlen ▸ hlt)
  have hname := hr.name i context hi
  rcases hs : slots[i]? with _ | _ | name
  · rw [List.getElem?_eq_none_iff] at hs
    omega
  · right
    refine ⟨rfl, ?_⟩
    by_cases hsafe : SafeFilename context
    · right
      have hold : toAsciiLowercase context ∈ seen := by
        by_contra hnew
        rw [(hslot context).mpr ⟨hname, hsafe, hnew⟩] at hs
        cases hs
      obtain ⟨j, hji, other, hj, hfold⟩ := (hseen _).mp hold
      have hjlt : j < contexts.length := hji.trans hlt
      obtain ⟨seen', hslot', -⟩ := PropertyInfoArea.contextNames_slot hslots (hlen ▸ hjlt)
      have hother := ((hslot' other).mp hj).1
      refine ⟨j, other, hother, ?_, hfold.symm⟩
      -- the table has no context twice
      rintro rfl
      have hget : contexts[j]? = some contexts[j] := List.getElem?_eq_getElem hjlt
      rw [hr.name j _ hget] at hother
      rw [Except.ok.inj hother] at hget
      have hij := (List.getElem?_inj hjlt hr.nodup).mp (hget.trans hi.symm)
      omega
    · exact .inl hsafe
  · left
    obtain ⟨hread, hsafe, -⟩ := (hslot name).mp hs
    rw [hname] at hread
    obtain rfl := Except.ok.inj hread
    exact ⟨rfl, hsafe⟩

/-- **The rule files decide the file of every name.** After a successful start, and after any further use of
the store: the rules written in the property-contexts files give a name one context; the area the name
is looked up in, and written to, is the file of that context; a name without an area has a context that
is no safe filename, or one that differs only in case from another context; and two names share a
slot exactly when the rules give them the same context. -/
theorem init_routes {env : Env} {dir dir' : PropertiesDir}
    {propertyContextsFiles buildPropFiles : List Bytes} {sp : SystemProperties}
    (h : initSystemPropertiesSync env propertyContextsFiles buildPropFiles dir = .ok sp dir')
    {later : SystemProperties} {seen : List (Str × PropertyIndex)}
    (hlater : Relation.ReflTransGen StoreStep (sp, []) (later, seen)) (name : Bytes) :
    ∃ context,
      (∀ c, Routes (FileRule (env.fs dir) propertyContextsFiles) defaultContext.bytes name c ↔
        c = context) ∧
      (∀ node i, later.propAreaForName name = .ok (node, i) ∨
        later.propAreaMutForName name = .ok (node, i) →
        node.filename = context ∧ SafeFilename context) ∧
      (∀ e, later.propAreaForName name = .error e → ¬ SafeFilename context ∨
        ∃ j other, later.propertyInfo.contextName j = .ok other ∧ other ≠ context ∧
          toAsciiLowercase other = toAsciiLowercase context) ∧
      ∀ name' context',
        Routes (FileRule (env.fs dir) propertyContextsFiles) defaultContext.bytes name' context' →
        (later.contextIndexOf name = later.contextIndexOf name' ↔ context = context') := by
  obtain ⟨rules, data, area, sp₀, hparse, hbuild, hinfo, hnew, hsame₀⟩ := init_eq_ok h
  have hsame := hsame₀.trans (SystemProperties.SameFiles.steps hlater)
  have hcontext : ∀ r ∈ rules, r.context.bytes ≠ [] := fun r hr =>
    ((mem_parseFiles hparse r).mp hr).context_ne_nil
  obtain ⟨area', contexts, hinfo', hr, hok, hd⟩ := routed_buildTrie hbuild hcontext
  obtain rfl : area = area' := Option.some.inj (hinfo.symm.trans hinfo')
  obtain ⟨slots, hslots, hnodes⟩ := except_bind_eq_ok.mp hnew
  obtain rfl := (Except.ok.inj hnodes).symm
  have hroutes : ∀ n c, Routes (FileRule (env.fs dir) propertyContextsFiles) defaultContext.bytes n c ↔
      c = ruleContext rules defaultContext.bytes n := by
    intro n c
    rw [← Routes.congr (mem_parseFiles hparse)]
    exact routes_iff hok hd
  -- no name has an empty context, so each has an index in the table
  have hindex : ∀ n, contexts[later.contextIndexOf n]? =
      some (ruleContext rules defaultContext.bytes n) := by
    intro n
    have hne : ruleContext rules defaultContext.bytes n ≠ [] := by
      have hall := routes_ruleContext rules defaultContext.bytes n
      generalize ruleContext rules defaultContext.bytes n = context at hall ⊢
      cases hall with
      | exact hmem => exact hcontext _ hmem
      | longest hmem => exact hcontext _ hmem
      | default => decide
    rw [SystemProperties.contextIndexOf, hsame.info]
    exact hr.index n hne
  have hfile : ∀ i : ℕ, slots[i]? = (later.contextNodes[i]?).map (Option.map ContextNode.filename) := by
    intro i
    have hfiles := congrArg (·[i]?) hsame.files
    simp only [SystemProperties.files, List.getElem?_map, Option.map_map] at hfiles
    rw [hfiles]
    simp [Function.comp_def]
  refine ⟨ruleContext rules defaultContext.bytes name, hroutes name, ?_, ?_, ?_⟩
  · intro node i hnode
    have hslot : later.contextNodes[later.contextIndexOf name]? = some (some node) := by
      rcases hnode with hfind | hadd
      · obtain ⟨rfl, hslot⟩ := SystemProperties.propAreaForName_eq_ok hfind
        exact hslot
      · obtain ⟨rfl, hslot⟩ := SystemProperties.propAreaMutForName_eq_ok hadd
        exact hslot
    have hs := hfile (later.contextIndexOf name)
    rw [hslot] at hs
    rcases slot_of_context hr hslots (hindex name) with ⟨hfilled, hsafe⟩ | ⟨hempty, -⟩
    · rw [hfilled] at hs
      exact ⟨(Option.some.inj (Option.some.inj hs)).symm, hsafe⟩
    · rw [hempty] at hs
      cases hs
  · intro e he
    rcases slot_of_context hr hslots (hindex name) with ⟨hfilled, -⟩ | ⟨-, hcause⟩
    · -- a filled slot is found
      rw [hfile] at hfilled
      obtain ⟨slot, hslot, hmap⟩ := Option.map_eq_some_iff.mp hfilled
      obtain ⟨node, rfl, -⟩ := Option.map_eq_some_iff.mp hmap
      have hat : later.contextNodeAt (later.contextIndexOf name) s!"property {display name}" = .ok node :=
        SystemProperties.contextNodeAt_eq_ok.mpr hslot
      rw [SystemProperties.propAreaForName, except_bind_ok hat] at he
      cases he
    · rw [hsame.info]
      exact hcause
  · intro name' context' hc
    rw [hroutes] at hc
    rw [hc]
    have hlt : later.contextIndexOf name < contexts.length :=
      (List.getElem?_eq_some_iff.mp (hindex name)).1
    constructor
    · intro heq
      have hsome := hindex name
      rw [heq, hindex] at hsome
      exact (Option.some.inj hsome).symm
    · intro heq
      refine (List.getElem?_inj hlt hr.nodup).mp ?_
      rw [hindex, hindex, heq]

theorem init_routes_sample : ∃ sp dir', initSystemPropertiesSync (calmEnv sampleFiles)
      [ascii "contexts"] [ascii "build.prop"] emptyDir = .ok sp dir' ∧
    ∃ context, (∀ c, Routes (FileRule ((calmEnv sampleFiles).fs emptyDir) [ascii "contexts"])
        defaultContext.bytes (ascii "a.b") c ↔ c = context) ∧
      ∀ node i, sp.propAreaForName (ascii "a.b") = .ok (node, i) →
        node.filename = context ∧ SafeFilename context := by
  have hok : succeeded (initSystemPropertiesSync (calmEnv sampleFiles) [ascii "contexts"]
      [ascii "build.prop"] emptyDir) = true := by
    decide +kernel
  cases hinit : initSystemPropertiesSync (calmEnv sampleFiles) [ascii "contexts"]
      [ascii "build.prop"] emptyDir with
  | error e dir' =>
    rw [hinit] at hok
    cases hok
  | ok sp dir' =>
    obtain ⟨context, hroutes, hfile, -⟩ := init_routes hinit .refl (ascii "a.b")
    exact ⟨sp, dir', rfl, context, hroutes, fun node i hnode => hfile node i (.inl hnode)⟩

end Init

end RsProperties
