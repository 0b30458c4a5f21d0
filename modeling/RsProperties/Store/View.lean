import RsProperties.Store.Basic

/-!
# What can be observed in an area

`PropertyAreaMap.peek` is everything a client can see of a name in one area: the offset of its entry,
the serial word and the value it reads. `Sound` is what every area of a reachable store satisfies:
the writers' invariant, with all values well-formed UTF-8. The lemmas here say what `add` and the
update of an entry do to `peek`, name by name; the store only ever uses these.
-/

namespace RsProperties

open ByteMem StateExcept PropertyAreaMap

/-- The visible state of one entry. -/
structure EntryView where
  off : ℕ
  serial : ℕ
  value : Option Str
  deriving DecidableEq

/-- The visible state of a name in an area. -/
def PropertyAreaMap.peek (pa : PropertyAreaMap) (name : Bytes) : Option EntryView :=
  (pa.find name).toOption.map fun off =>
    { off := off
      serial := PropertyInfo.serial pa.mmap.data (off + pa.dataOffset)
      value := (pa.readWithCallback off).toOption }

/-- The entry of a shape as a reader sees it. -/
def Entry.view (m : Mem) (e : Entry) : EntryView where
  off := e.off
  serial := PropertyInfo.serial m (e.off + 128)
  value := fromUtf8 e.value

/-- An area in good order: it represents a shape all of whose values are UTF-8. -/
def PropertyAreaMap.Sound (pa : PropertyAreaMap) : Prop :=
  ∃ g : Shape, AreaInv pa g ∧ ∀ name e, g.lookup name = some e → Utf8.valid e.value = true

theorem Shape.lookup_empty (name : Bytes) : Shape.empty.lookup name = none := by
  have h := congrFun toMap_empty name
  rwa [Shape.toMap, Option.map_eq_none_iff] at h

theorem sound_newRw : newRw.Sound := by
  refine ⟨.empty, areaInv_newRw, fun name e hl => ?_⟩
  rw [Shape.lookup_empty] at hl
  cases hl

section Peek

variable {pa : PropertyAreaMap} {g : Shape}

/-- What a reader sees is the shape's lookup. -/
theorem AreaInv.peek_eq (h : AreaInv pa g) (name : Bytes) :
    pa.peek name = (g.lookup name).map (Entry.view pa.mmap.data) := by
  cases hl : g.lookup name with
  | none =>
    obtain ⟨e, hf, -⟩ := h.find_of_lookup_none hl
    rw [peek, hf]
    rfl
  | some e =>
    obtain ⟨n, he, -⟩ := h.wf.lookup_eq_some_iff.mp hl
    rw [peek, h.find_of_lookup hl]
    simp only [Except.toOption, Option.map_some, Entry.view, h.basic.dataOffset,
      h.readWithCallback_eq he]
    cases fromUtf8 e.value <;> rfl

/-- No entry of a sound area is caught in the middle of an update, and each has a value. -/
theorem PropertyAreaMap.Sound.peek_clean (h : pa.Sound) {name : Bytes} {v : EntryView}
    (hv : pa.peek name = some v) : serialDirty v.serial = false ∧ v.value.isSome = true := by
  obtain ⟨g, hinv, hutf⟩ := h
  rw [hinv.peek_eq] at hv
  obtain ⟨e, hl, rfl⟩ := Option.map_eq_some_iff.mp hv
  obtain ⟨n, he, -⟩ := hinv.wf.lookup_eq_some_iff.mp hl
  refine ⟨hinv.serial_not_dirty he, ?_⟩
  rw [Entry.view, fromUtf8_of_valid (hutf name e hl)]
  rfl

theorem find_eq_ok_iff_peek {name : Bytes} {off : ℕ} :
    pa.find name = .ok off ↔ ∃ v, pa.peek name = some v ∧ v.off = off := by
  cases hf : pa.find name with
  | error e => simp [peek, hf, Except.toOption]
  | ok off' => simp [peek, hf, Except.toOption]

theorem AreaInv.view_congr {pa' : PropertyAreaMap} (h : AreaInv pa g) (hk : Keeps g pa pa')
    {name : Bytes} {e : Entry} (hl : g.lookup name = some e) :
    e.view pa'.mmap.data = e.view pa.mmap.data := by
  obtain ⟨n, he, -⟩ := h.wf.lookup_eq_some_iff.mp hl
  have hs := hk.block _ (h.wf.entry_block n e he) (by simp)
  have hge := entryExtent_ge (joinDot (g.path n))
  simp only [Block.stop, Obj.extent] at hs
  simp only [Entry.view, PropertyInfo.serial, EntryView.mk.injEq, true_and, and_true]
  exact (readU32_congr (hs.mono le_rfl (by omega))).symm

theorem AreaInv.peek_kept {pa' : PropertyAreaMap} {g' : Shape} (h : AreaInv pa g)
    (h' : AreaInv pa' g') (hk : Keeps g pa pa') (hl : g'.lookup = g.lookup) :
    pa'.peek = pa.peek := by
  funext name
  rw [h'.peek_eq, h.peek_eq, hl]
  cases he : g.lookup name with
  | none => rfl
  | some e => simp only [Option.map_some, h.view_congr hk he]

/-- The outcomes of `add`, as a reader sees them. -/
inductive AddView (pa : PropertyAreaMap) (name value : Str) :
    EStateM.Result Error PropertyAreaMap Unit → Prop
  | failed {e : Error} {pa' : PropertyAreaMap} (hs : pa'.Sound) (hp : pa'.peek = pa.peek) :
      AddView pa name value (.error e pa')
  | kept {pa' : PropertyAreaMap} {v : EntryView} (hs : pa'.Sound) (hv : pa.peek name.bytes = some v)
      (hp : pa'.peek = pa.peek) : AddView pa name value (.ok () pa')
  | bound {pa' : PropertyAreaMap} {v : EntryView} (hs : pa'.Sound)
      (hnone : pa.peek name.bytes = none) (hv : v.value = some value)
      (hp : pa'.peek = Function.update pa.peek name.bytes (some v)) :
      AddView pa name value (.ok () pa')

/-- **`add`, observed**: a failure is invisible, a bound name keeps its entry, and an absent name
appears with the value while every other name stays as it was. -/
theorem PropertyAreaMap.Sound.add (h : pa.Sound) (name value : Str) (hv : 0 ∉ value.bytes) :
    AddView pa name value (PropertyAreaMap.add name.bytes value.bytes pa) := by
  obtain ⟨g, hinv, hutf⟩ := h
  have hspec := hinv.add_spec name.bytes hv
  generalize PropertyAreaMap.add name.bytes value.bytes pa = res at hspec ⊢
  cases hspec with
  | refused => exact .failed ⟨g, hinv, hutf⟩ rfl
  | full _ _ hinv' hk _ hl => exact .failed ⟨_, hinv', hl ▸ hutf⟩ (hinv.peek_kept hinv' hk hl)
  | @kept _ _ e _ he hinv' hk _ hl =>
    refine .kept ⟨_, hinv', hl ▸ hutf⟩ (v := e.view pa.mmap.data) ?_ (hinv.peek_kept hinv' hk hl)
    rw [hinv.peek_eq, he]
    rfl
  | @bound pa' g' off _ he hinv' hk _ hl =>
    refine .bound ⟨_, hinv', fun name' e' hl' => ?_⟩ (v := Entry.view pa'.mmap.data ⟨off, value.bytes⟩)
      (by rw [hinv.peek_eq, he]; rfl) (fromUtf8_bytes value) ?_
    · rw [hl, Function.update_apply] at hl'
      split_ifs at hl'
      · obtain rfl := Option.some.inj hl'
        exact value.valid
      · exact hutf name' e' hl'
    · funext name'
      rw [hinv'.peek_eq, hl, Function.update_apply, Function.update_apply, hinv.peek_eq]
      split_ifs with hn
      · rfl
      · cases he' : g.lookup name' with
        | none => rfl
        | some e' => simp only [Option.map_some, hinv.view_congr hk he']

/-! ### Updates -/

theorem AreaInv.serial_apart {n n' : ℕ} {e e' : Entry} {m : Mem} (h : AreaInv pa g)
    (he : g.entry n = some e) (he' : g.entry n' = some e') (hne : e'.off ≠ e.off)
    (hs : ∀ x y, y ≤ 148 ∨ 240 ≤ x → y ≤ e.off + 128 ∨ e.off + 224 ≤ x →
      SameOn pa.mmap.data m x y) :
    PropertyInfo.serial m (e'.off + 128) = PropertyInfo.serial pa.mmap.data (e'.off + 128) := by
  have hlow := (h.entry_bounds he').2.1
  have hge := entryExtent_ge (joinDot (g.path n))
  have hge' := entryExtent_ge (joinDot (g.path n'))
  refine (readU32_congr (hs _ _ (.inr (by omega)) ?_)).symm
  -- entries are different blocks, and a block is longer than its entry's header
  rcases h.wf.layout.disjoint (h.wf.entry_block n e he) (h.wf.entry_block n' e' he') with
    hb | hd | hd
  · exact absurd (congrArg Block.off hb).symm hne
  · simp only [Block.stop, Obj.extent] at hd
    omega
  · simp only [Block.stop, Obj.extent] at hd
    omega

/-- What the inspection block lets through. -/
theorem AreaInv.inspectForUpdate_eq (h : AreaInv pa g) {name : Bytes} {e : Entry}
    (hl : g.lookup name = some e) {value backup : Bytes}
    (hi : SystemProperties.inspectForUpdate pa e.off value = .ok backup) :
    startsWithRo name = false ∧ 0 ∉ value ∧ value.length < propValueMax ∧
      e.value.length < propValueMax ∧ backup = e.value := by
  obtain ⟨n, he, hname⟩ := h.wf.lookup_eq_some_iff.mp hl
  rw [SystemProperties.inspectForUpdate, except_bind_ok (h.propertyInfoName_eq he), hname] at hi
  split_ifs at hi with hro
  obtain ⟨_, hval, hi⟩ := except_bind_eq_ok.mp hi
  obtain ⟨h0, hlen⟩ := validateShortValueLen_eq_ok.mp hval
  rw [except_bind_ok (h.propertyInfo_eq he), h.isLong_eq he] at hi
  split_ifs at hi with hlong
  rw [h.propertyValueBytes_eq he] at hi
  rw [decide_eq_true_iff] at hlong
  exact ⟨by simpa using hro, h0, hlen, by omega, (Except.ok.inj hi).symm⟩

/-- **An update, observed**: once the inspection has passed, the write succeeds; the entry stays where
it is and reads the value, and every other name stays as it was. The inspection lets no `ro.` name
through. -/
theorem PropertyAreaMap.Sound.update (h : pa.Sound) {name : Bytes} {old : EntryView}
    (hold : pa.peek name = some old) (value : Str) {backup : Bytes}
    (hi : SystemProperties.inspectForUpdate pa old.off value.bytes = .ok backup) :
    startsWithRo name = false ∧ ∃ pa' v,
      backupAndApplyWrite old.off backup value.bytes pa = .ok () pa' ∧ pa'.Sound ∧
      v.off = old.off ∧ v.value = some value ∧
      pa'.peek = Function.update pa.peek name (some v) := by
  obtain ⟨g, hinv, hutf⟩ := h
  rw [hinv.peek_eq] at hold
  obtain ⟨e, hl, rfl⟩ := Option.map_eq_some_iff.mp hold
  obtain ⟨n, he, hname⟩ := hinv.wf.lookup_eq_some_iff.mp hl
  obtain ⟨hro, h0, hlen, hlen', rfl⟩ := hinv.inspectForUpdate_eq hl hi
  refine ⟨hro, ?_⟩
  have hspec := hinv.update_spec he e.value h0
  have hoff : (e.view pa.mmap.data).off = e.off := rfl
  rw [hoff]
  generalize backupAndApplyWrite e.off e.value value.bytes pa = res at hspec ⊢
  have hsize : backupSize = propValueMax := rfl
  cases hspec with
  | refused hb => omega
  | failed _ hv => omega
  | @updated m _ _ _ hinv' hs _ =>
    have hused : (pa.withData m).bytesUsed = pa.bytesUsed := by
      have hlow := (hinv.entry_bounds he).2.1
      exact (readU32_congr (hs 0 4 (by omega) (by omega))).symm
    have hlookup := hinv.wf.lookup_bindEntry (hused ▸ hinv'.wf)
    rw [hname] at hlookup
    refine ⟨_, Entry.view m ⟨e.off, value.bytes⟩, rfl, ⟨_, hinv', fun name' e' hl' => ?_⟩, rfl,
      fromUtf8_bytes value, funext fun name' => ?_⟩
    · rw [hlookup, Function.update_apply] at hl'
      split_ifs at hl'
      · obtain rfl := Option.some.inj hl'
        exact value.valid
      · exact hutf name' e' hl'
    · rw [hinv'.peek_eq, hlookup, Function.update_apply, Function.update_apply, hinv.peek_eq]
      split_ifs with hn
      · rfl
      · cases hl' : g.lookup name' with
        | none => rfl
        | some e' =>
          obtain ⟨n', he', hname'⟩ := hinv.wf.lookup_eq_some_iff.mp hl'
          have hne : e'.off ≠ e.off := fun ho => hn (by
            rw [← hname', ← hname, hinv.wf.entry_injective he' he ho])
          simp only [Option.map_some, Entry.view, withData_data,
            hinv.serial_apart he he' hne hs]

end Peek

end RsProperties
