import RsProperties.Store.AllOrNothing
import RsProperties.PropertyArea.NameGrammar
import RsProperties.PropertyArea.Space
import RsProperties.Library.Trace

/-!
# The store as a registry

What a store is for, without areas, contexts and offsets: a `Registry` has at most one value for each
name and counts its writes. Its policy decides which operations may succeed: a new value has no NUL and,
unless the name is read-only, fits the value buffer; a value is only ever replaced by a short one, and
under a read-only name never.

Every run of a store, observed through the outcomes of its operations, is a run of the registry
(`store_refines_registry`). In the other direction the policy is all that keeps an operation from
succeeding, but for the room a new name needs in the area of its context (`storeOp_succeeds_iff`).
-/

namespace RsProperties

open ByteMem StateExcept

/-! ### The registry -/

structure Registry where
  value : Bytes → Option Str
  writes : ℕ

namespace Registry

def empty : Registry where
  value := fun _ => none
  writes := 0

/-- The policy for an operation on a name that has the value `old`. -/
def Permits (old : Option Str) : StoreOp → Prop
  | .add name value => validateValueLen name.bytes value.bytes = .ok ()
  | .set name value =>
    match old with
    | none => validateValueLen name.bytes value.bytes = .ok ()
    | some _ => startsWithRo name.bytes = false ∧ validateShortValueLen value.bytes = .ok ()
  | .update name _ value => old.isSome = true ∧ startsWithRo name.bytes = false ∧
    validateShortValueLen value.bytes = .ok ()

/-- The value a name has after an operation on it: `add` leaves an old one alone. -/
def written (old : Option Str) : StoreOp → Str
  | .add _ value => old.getD value
  | .set _ value => value
  | .update _ _ value => value

/-- A successful operation. -/
def apply (r : Registry) (op : StoreOp) : Registry where
  value := Function.update r.value op.name.bytes (some (written (r.value op.name.bytes) op))
  writes := r.writes + 1

end Registry

/-- What a client of a store observes. -/
inductive StoreEvent
  | op (op : StoreOp) (ok : Bool)
  /-- `find` returned. -/
  | found (name : Str) (index : Option PropertyIndex)
  /-- `find` failed. -/
  | findFailed (name : Str)
  /-- `get_with_result` returned a value, or failed. -/
  | got (name : Bytes) (value : Option Str)

/-- The runs of a registry: an operation that is permitted may take effect, and any may be refused. A
`find` may fail instead of reporting a name absent. -/
inductive Registry.Step : Registry → StoreEvent → Registry → Prop
  | refused (r : Registry) (op : StoreOp) : Step r (.op op false) r
  | done {r : Registry} {op : StoreOp} (h : Permits (r.value op.name.bytes) op) :
      Step r (.op op true) (r.apply op)
  | found {r : Registry} {name : Str} {index : Option PropertyIndex}
      (h : index.isSome = (r.value name.bytes).isSome) : Step r (.found name index) r
  | findFailed {r : Registry} {name : Str} (h : r.value name.bytes = none) :
      Step r (.findFailed name) r
  | got (r : Registry) (name : Bytes) : Step r (.got name (r.value name)) r

/-- The steps of a store, with what its client observes of them. -/
inductive StoreObserved : SystemProperties × List (Str × PropertyIndex) → StoreEvent →
    SystemProperties × List (Str × PropertyIndex) → Prop
  | op {sp : SystemProperties} {seen : List (Str × PropertyIndex)} (op : StoreOp)
      (h : op.Admissible seen) :
      StoreObserved (sp, seen) (.op op (succeeded (op.run sp))) (finalState (op.run sp), seen)
  | found {sp : SystemProperties} {seen : List (Str × PropertyIndex)} {name : Str}
      {index : Option PropertyIndex} (h : sp.find name.bytes = .ok index) :
      StoreObserved (sp, seen) (.found name index)
        (sp, (index.map fun i => (name, i)).toList ++ seen)
  | findFailed {sp : SystemProperties} {seen : List (Str × PropertyIndex)} {name : Str} {e : Error}
      (h : sp.find name.bytes = .error e) : StoreObserved (sp, seen) (.findFailed name) (sp, seen)
  | got {sp : SystemProperties} {seen : List (Str × PropertyIndex)} (name : Bytes) :
      StoreObserved (sp, seen) (.got name (sp.getWithResult name).toOption) (sp, seen)

/-- The runs of a fresh store. -/
def StoreRun (info : PropertyInfoArea) :
    List StoreEvent → SystemProperties × List (Str × PropertyIndex) → Prop :=
  Trace.Run (fun st => SystemProperties.newArea info = .ok st.1 ∧ st.2 = []) StoreObserved

/-! ### When an area takes an operation -/

section Areas

variable {pa : PropertyAreaMap} {g : Shape} {name value : Bytes}

/-- Bound names are proper. -/
theorem AreaInv.properName (h : AreaInv pa g) {e : Entry} (hl : g.lookup name = some e) :
    ProperName name := by
  obtain ⟨k, he, rfl⟩ := h.wf.lookup_eq_some_iff.mp hl
  obtain ⟨hk, hk0⟩ := h.wf.entry_node k e he
  refine ⟨h.wf.nul_notMem_joinDot hk, fun s hs => ?_⟩
  rw [h.wf.splitDot_path hk hk0] at hs
  exact (h.wf.path_segs hk s hs).1

/-- The space a new name takes, with the nodes it is missing. -/
def PropertyAreaMap.spaceFor (pa : PropertyAreaMap) (name value : Bytes) : ℕ :=
  nodesExtent (pa.missingSegments (splitDot name) 0) + boundExtent name value

/-- **`add`** succeeds for a bound name, and for an absent one that is proper and fits. -/
theorem AreaInv.add_succeeds_iff (h : AreaInv pa g) (hv : 0 ∉ value) :
    succeeded (PropertyAreaMap.add name value pa) = true ↔ (g.lookup name).isSome = true ∨
      ProperName name ∧ pa.bytesUsed + pa.spaceFor name value ≤ 130944 := by
  have hmiss := h.missingSegments_eq (.inl rfl) (splitDot name)
  have hspec := h.add_spec name hv
  rw [PropertyAreaMap.spaceFor, hmiss, ← Nat.add_assoc]
  generalize PropertyAreaMap.add name value pa = res at hspec ⊢
  cases hspec with
  | refused hn =>
    have hnone : g.lookup name = none :=
      Option.eq_none_iff_forall_ne_some.mpr fun e hl => hn (h.properName hl)
    simp [succeeded, hn, hnone]
  | full _ he _ _ _ _ hl =>
    have hlt := he.lt
    simp only [succeeded, hl, Option.isSome_none, Bool.false_eq_true, false_or, false_iff]
    rintro ⟨-, hfit⟩
    omega
  | kept _ hl => simp [succeeded, hl]
  | bound hn _ hinv' _ _ _ hused =>
    have hhigh := hinv'.basic.used_high
    rw [hused] at hhigh
    exact iff_of_true rfl (.inr ⟨hn, hhigh⟩)

/-- **The inspection of `update`** passes exactly for a short value over a short one, under a name that
is not read-only. -/
theorem AreaInv.inspectForUpdate_ok_iff (h : AreaInv pa g) {e : Entry}
    (hl : g.lookup name = some e) :
    (∃ backup, SystemProperties.inspectForUpdate pa e.off value = .ok backup) ↔
      startsWithRo name = false ∧ validateShortValueLen value = .ok () ∧
        e.value.length < propValueMax := by
  constructor
  · rintro ⟨backup, hi⟩
    obtain ⟨hro, h0, hlen, hold, -⟩ := h.inspectForUpdate_eq hl hi
    exact ⟨hro, validateShortValueLen_eq_ok.mpr ⟨h0, hlen⟩, hold⟩
  · rintro ⟨hro, hval, hold⟩
    obtain ⟨n, he, hname⟩ := h.wf.lookup_eq_some_iff.mp hl
    have hlong : ¬ (decide (propValueMax ≤ e.value.length) = true) := by simpa using hold
    refine ⟨e.value, ?_⟩
    rw [SystemProperties.inspectForUpdate, except_bind_ok (h.propertyInfoName_eq he), hname,
      if_neg (by simp [hro]), except_bind_ok hval, except_bind_ok (h.propertyInfo_eq he),
      h.isLong_eq he, if_neg hlong, h.propertyValueBytes_eq he]

end Areas

/-! ### When the store does -/

namespace SystemProperties

section Succeeds

variable {sp : SystemProperties}

/-- The name has a slot with an area in which a new entry of it fits. -/
def HasRoom (sp : SystemProperties) (name value : Bytes) : Prop :=
  ∃ node, sp.contextNodes[sp.contextIndexOf name]? = some (some node) ∧ ProperName name ∧
    node.propertyArea.bytesUsed + node.propertyArea.spaceFor name value ≤ 130944

/-- The areas of a sound store are open. -/
theorem AllSound.requireOpened_eq (hs : sp.AllSound) {i : ℕ} {node : ContextNode}
    (hslot : sp.contextNodes[i]? = some (some node)) : requireOpened node = .ok node := by
  obtain ⟨g, hinv, -⟩ := hs i node hslot
  rw [requireOpened, if_pos hinv.basic.writable]

theorem AllSound.propAreaMutForName_eq (hs : sp.AllSound) {name : Bytes} {node : ContextNode}
    (hslot : sp.contextNodes[sp.contextIndexOf name]? = some (some node)) :
    sp.propAreaMutForName name = .ok (node, sp.contextIndexOf name) := by
  rw [propAreaMutForName, except_bind_ok (contextNodeAt_eq_ok.mpr hslot),
    except_bind_ok (hs.requireOpened_eq hslot)]
  rfl

theorem AllSound.propAreaMutWithIndex_eq (hs : sp.AllSound) {i : ℕ} {node : ContextNode}
    (hslot : sp.contextNodes[i]? = some (some node)) : sp.propAreaMutWithIndex i = .ok node := by
  rw [propAreaMutWithIndex, except_bind_ok (contextNodeAt_eq_ok.mpr hslot)]
  exact hs.requireOpened_eq hslot

/-- The tail of the writers succeeds with the area's writer. -/
theorem publish_succeeds (sp : SystemProperties) (i : ℕ) (node : ContextNode) (op : AreaM Unit) :
    succeeded ((onArea i node op >>= fun _ => bumpSerial) sp) = succeeded (op node.propertyArea) := by
  cases hres : op node.propertyArea with
  | error e pa =>
    rw [publish_error hres]
    rfl
  | ok _ pa =>
    obtain ⟨sp', hrun, -⟩ := publish_ok sp i hres
    rw [hrun]
    rfl

/-- Whether a name is bound shows in what it reads. -/
theorem AllSound.value_isSome (hs : sp.AllSound) (name : Bytes) :
    (sp.value name).isSome = (sp.peek (sp.contextIndexOf name) name).isSome := by
  rw [value_eq_peek]
  cases hv : sp.peek (sp.contextIndexOf name) name with
  | none => rfl
  | some v => exact (hs.peek_clean hv).2

/-- **When `add` succeeds.** -/
theorem AllSound.add_succeeds_iff (hs : sp.AllSound) (name value : Str) :
    succeeded (add name value sp) = true ↔ validateValueLen name.bytes value.bytes = .ok () ∧
      ((sp.value name.bytes).isSome = true ∨ sp.HasRoom name.bytes value.bytes) := by
  cases hval : validateValueLen name.bytes value.bytes with
  | error e =>
    rw [add, bind_error (inspect_error hval)]
    simp [succeeded]
  | ok _ =>
    rw [add, bind_ok (inspect_ok hval), hs.value_isSome]
    simp only [true_and]
    by_cases hslot : ∃ node, sp.contextNodes[sp.contextIndexOf name.bytes]? = some (some node)
    · obtain ⟨node, hslot⟩ := hslot
      obtain ⟨g, hinv, -⟩ := hs _ node hslot
      have hroom : sp.HasRoom name.bytes value.bytes ↔ ProperName name.bytes ∧
          node.propertyArea.bytesUsed + node.propertyArea.spaceFor name.bytes value.bytes ≤ 130944 := by
        rw [HasRoom, hslot]
        simp
      rw [bind_ok (inspect_ok (hs.propAreaMutForName_eq hslot)), hroom, peek_of_slot hslot,
        hinv.peek_eq, Option.isSome_map,
        ← hinv.add_succeeds_iff (validateValueLen_eq_ok.mp hval).1, ← publish_succeeds sp]
    · -- no area, so nothing is bound and nothing fits
      have hpeek : sp.peek (sp.contextIndexOf name.bytes) name.bytes = none := by
        rw [peek]
        rcases hn : sp.contextNodes[sp.contextIndexOf name.bytes]? with _ | _ | node
        · rfl
        · rfl
        · exact absurd ⟨node, hn⟩ hslot
      have hroom : ¬ sp.HasRoom name.bytes value.bytes := by
        rintro ⟨node, hn, -⟩
        exact hslot ⟨node, hn⟩
      cases hpa : sp.propAreaMutForName name.bytes with
      | error e =>
        rw [bind_error (inspect_error hpa)]
        simp [succeeded, hpeek, hroom]
      | ok r =>
        obtain ⟨node, i⟩ := r
        obtain ⟨rfl, hn⟩ := propAreaMutForName_eq_ok hpa
        exact absurd ⟨node, hn⟩ hslot

/-- **When `update` succeeds**, through a handle that belongs to `name`. -/
theorem AllSound.update_succeeds_iff (hs : sp.AllSound) {name value w : Str} {index : PropertyIndex}
    {old : EntryView} (hold : sp.peek index.contextIndex name.bytes = some old)
    (hoff : old.off = index.propertyIndex) (hw : old.value = some w) :
    succeeded (update index value sp) = true ↔ startsWithRo name.bytes = false ∧
      validateShortValueLen value.bytes = .ok () ∧ w.bytes.length < propValueMax := by
  obtain ⟨node, hn, hpeek⟩ := Option.bind_eq_some_iff.mp hold
  have hslot := Option.join_eq_some_iff.mp hn
  have hsound := hs _ node hslot
  obtain ⟨g, hinv, -⟩ := hsound
  have hview := hpeek
  rw [hinv.peek_eq] at hpeek
  obtain ⟨e, hl, rfl⟩ := Option.map_eq_some_iff.mp hpeek
  obtain ⟨i, off⟩ := index
  obtain rfl : e.off = off := hoff
  have hwe : w.bytes = e.value := bytes_of_fromUtf8 hw
  have hpa := hs.propAreaMutWithIndex_eq hslot
  rw [hwe, ← hinv.inspectForUpdate_ok_iff hl, update]
  cases hins : inspectForUpdate node.propertyArea e.off value.bytes with
  | error err =>
    rw [bind_ok (inspect_ok hpa), bind_error (inspect_error hins)]
    simp [succeeded]
  | ok backup =>
    obtain ⟨-, pa, v, hres, -⟩ := (hs _ node hslot).update hview value hins
    have hrun : PropertyAreaMap.backupAndApplyWrite e.off backup value.bytes node.propertyArea =
      .ok () pa := hres
    rw [bind_ok (inspect_ok hpa), bind_ok (inspect_ok hins), publish_succeeds, hrun]
    simp [succeeded]

theorem propAreaForName_eq {name : Bytes} {node : ContextNode}
    (hslot : sp.contextNodes[sp.contextIndexOf name]? = some (some node)) :
    sp.propAreaForName name = .ok (node, sp.contextIndexOf name) := by
  rw [propAreaForName, except_bind_ok (contextNodeAt_eq_ok.mpr hslot)]
  rfl

/-- `find` finds what has a value. -/
theorem find_of_value {name : Bytes} {w : Str} (hw : sp.value name = some w) :
    ∃ index v, sp.find name = .ok (some index) ∧
      sp.peek index.contextIndex name = some v ∧ v.off = index.propertyIndex ∧ v.value = some w := by
  rw [value_eq_peek] at hw
  obtain ⟨v, hv, hvw⟩ := Option.bind_eq_some_iff.mp hw
  obtain ⟨node, hn, hpeek⟩ := Option.bind_eq_some_iff.mp hv
  have hf := find_eq_ok_iff_peek.mpr ⟨v, hpeek, rfl⟩
  refine ⟨⟨sp.contextIndexOf name, v.off⟩, v, ?_, hv, rfl, hvw⟩
  rw [find, propAreaForName_eq (Option.join_eq_some_iff.mp hn)]
  simp only [hf]

/-- `find` reports a name absent that could be added. -/
theorem AllSound.find_of_hasRoom (hs : sp.AllSound) {name value : Bytes}
    (hnone : sp.value name = none) (hroom : sp.HasRoom name value) : sp.find name = .ok none := by
  obtain ⟨node, hslot, hname, -⟩ := hroom
  obtain ⟨g, hinv, -⟩ := hs _ node hslot
  rw [find, propAreaForName_eq hslot]
  rcases hinv.find_of_proper hname with ⟨off, hf⟩ | ⟨msg, hf⟩
  · obtain ⟨v, hv, -⟩ := find_eq_ok_iff_peek.mp hf
    have hsome := hs.value_isSome name
    rw [hnone, peek_of_slot hslot, hv] at hsome
    cases hsome
  · simp only [hf]

/-- **When `set` replaces a value.** -/
theorem AllSound.set_succeeds_of_some (hs : sp.AllSound) {name w : Str} (value : Str)
    (hw : sp.value name.bytes = some w) : succeeded (set name value sp) = true ↔
      startsWithRo name.bytes = false ∧ validateShortValueLen value.bytes = .ok () ∧
        w.bytes.length < propValueMax := by
  obtain ⟨index, v, hf, hv, hoff, hvw⟩ := find_of_value hw
  rw [set, bind_ok (inspect_ok hf)]
  exact hs.update_succeeds_iff hv hoff hvw

/-- **When `set` creates a property.** -/
theorem AllSound.set_succeeds_of_none (hs : sp.AllSound) {name : Str} (value : Str)
    (hnone : sp.value name.bytes = none) : succeeded (set name value sp) = true ↔
      validateValueLen name.bytes value.bytes = .ok () ∧ sp.HasRoom name.bytes value.bytes := by
  have hadd := hs.add_succeeds_iff name value
  simp only [hnone, Option.isSome_none, Bool.false_eq_true, false_or] at hadd
  rw [← hadd]
  cases hf : sp.find name.bytes with
  | error e =>
    rw [set, bind_error (inspect_error hf)]
    refine iff_of_false Bool.false_ne_true fun hok => ?_
    rw [hs.find_of_hasRoom hnone (hadd.mp hok).2] at hf
    cases hf
  | ok r =>
    rw [set, bind_ok (inspect_ok hf)]
    cases r with
    | none => rfl
    | some index =>
      obtain ⟨hroute, v, hv, -⟩ := find_eq_some hf
      have hsome := hs.value_isSome name.bytes
      rw [hnone, ← hroute, hv] at hsome
      cases hsome

end Succeeds

end SystemProperties

open SystemProperties

/-! ### A run of the store is a run of the registry -/

namespace Registry

/-- Every value has passed the policy. -/
def Lawful (r : Registry) : Prop :=
  ∀ name w, r.value name = some w → validateValueLen name w.bytes = .ok ()

theorem validateValueLen_of_short {name value : Bytes} (h : validateShortValueLen value = .ok ()) :
    validateValueLen name value = .ok () := by
  obtain ⟨h0, hlen⟩ := validateShortValueLen_eq_ok.mp h
  exact validateValueLen_eq_ok.mpr ⟨h0, .inl hlen⟩

/-- What a permitted operation writes has passed the policy. -/
theorem Lawful.written {r : Registry} (h : r.Lawful) {op : StoreOp}
    (hop : Permits (r.value op.name.bytes) op) :
    validateValueLen op.name.bytes (Registry.written (r.value op.name.bytes) op).bytes = .ok () := by
  cases op with
  | add name value =>
    change validateValueLen name.bytes ((r.value name.bytes).getD value).bytes = .ok ()
    cases hv : r.value name.bytes with
    | none => exact hop
    | some w => exact h _ w hv
  | set name value =>
    change match r.value name.bytes with | none => _ | some _ => _ at hop
    split at hop
    · exact hop
    · exact validateValueLen_of_short hop.2
  | update name index value => exact validateValueLen_of_short hop.2.2

theorem Lawful.step {r r' : Registry} {x : StoreEvent} (h : r.Lawful) (hs : Step r x r') :
    r'.Lawful := by
  cases hs with
  | refused => exact h
  | found => exact h
  | findFailed => exact h
  | got => exact h
  | @done op hop =>
    intro name w hw
    simp only [apply, Function.update_apply] at hw
    split_ifs at hw with hn
    · obtain rfl := Option.some.inj hw
      exact hn ▸ h.written hop
    · exact h name w hw

end Registry

/-- The store, with the handles it has given out, is in the state `r` of the registry. -/
structure Represents (st : SystemProperties × List (Str × PropertyIndex)) (r : Registry) : Prop where
  inv : StoreInv st.1 st.2
  value : st.1.value = r.value
  serial : st.1.contextSerial = r.writes % 2 ^ 32
  lawful : r.Lawful

section Runs

variable {info : PropertyInfoArea} {sp : SystemProperties} {seen : List (Str × PropertyIndex)}
  {r : Registry} {H : List StoreEvent}

theorem represents_newArea (h : SystemProperties.newArea info = .ok sp) :
    Represents (sp, []) .empty := by
  refine ⟨⟨allSound_newArea h, by simp⟩, funext fun name => value_newArea h name, ?_,
    fun name w hw => by cases hw⟩
  have hser : PropertyAreaMap.newRw.areaSerial = 0 := by decide +kernel
  rw [SystemProperties.newArea] at h
  obtain ⟨names, -, h⟩ := except_bind_eq_ok.mp h
  obtain rfl := Except.ok.inj h
  exact hser

/-- **When an operation succeeds**: the policy permits it, and a new name has room. -/
theorem Represents.succeeds_iff (h : Represents (sp, seen) r) {op : StoreOp}
    (hop : op.Admissible seen) : succeeded (op.run sp) = true ↔
      Registry.Permits (r.value op.name.bytes) op ∧
        (r.value op.name.bytes = none → sp.HasRoom op.name.bytes op.value.bytes) := by
  have hs := h.inv.sound
  have hval : ∀ name, sp.value name = r.value name := congrFun h.value
  -- a value that is not read-only is short
  have hshort : ∀ name w, r.value name = some w → startsWithRo name = false →
      w.bytes.length < propValueMax := by
    intro name w hw hro
    have hpol := (validateValueLen_eq_ok.mp (h.lawful name w hw)).2
    simpa [hro] using hpol
  cases op with
  | add name value =>
    change succeeded (SystemProperties.add name value sp) = true ↔
      validateValueLen name.bytes value.bytes = .ok () ∧ (r.value name.bytes = none → _)
    rw [hs.add_succeeds_iff, hval]
    cases hv : r.value name.bytes <;> simp [StoreOp.name, StoreOp.value]
  | set name value =>
    change succeeded (SystemProperties.set name value sp) = true ↔
      (match r.value name.bytes with | none => _ | some _ => _) ∧ (r.value name.bytes = none → _)
    cases hv : r.value name.bytes with
    | none =>
      rw [hs.set_succeeds_of_none value ((hval _).trans hv)]
      simp [StoreOp.name, StoreOp.value]
    | some w =>
      rw [hs.set_succeeds_of_some value ((hval _).trans hv)]
      simp only [reduceCtorEq, false_imp_iff, and_true]
      exact ⟨fun hr => ⟨hr.1, hr.2.1⟩, fun hr => ⟨hr.1, hr.2, hshort _ w hv hr.1⟩⟩
  | update name index value =>
    obtain ⟨hroute, v, hv, hoff⟩ := h.inv.handles _ hop
    obtain ⟨w, hw⟩ := Option.isSome_iff_exists.mp (hs.peek_clean hv).2
    have hrw : r.value name.bytes = some w := by
      rw [← hval, value_eq_peek, ← hroute, hv]
      exact hw
    change succeeded (SystemProperties.update index value sp) = true ↔
      ((r.value name.bytes).isSome = true ∧ _) ∧ (r.value name.bytes = none → _)
    rw [hs.update_succeeds_iff hv hoff hw, hrw]
    simp only [Option.isSome_some, true_and, reduceCtorEq, false_imp_iff, and_true]
    exact ⟨fun hr => ⟨hr.1, hr.2.1⟩, fun hr => ⟨hr.1, hr.2, hshort _ w hrw hr.1⟩⟩

/-- A failed operation changes nothing a client sees. -/
theorem StoreInv.run_error (h : StoreInv sp seen) {op : StoreOp} (hop : op.Admissible seen)
    {e : Error} {sp' : SystemProperties} (hrun : op.run sp = .error e sp') :
    sp'.value = sp.value ∧ sp'.contextSerial = sp.contextSerial := by
  have hspec := h.run_spec op hop
  rw [hrun] at hspec
  cases hspec with
  | failed hr _ hp hser => exact ⟨funext fun name => value_congr hr (by rw [hp]), hser⟩

/-- A successful one leaves its name with the value the registry says, and counts. -/
theorem StoreInv.run_ok (h : StoreInv sp seen) {op : StoreOp} (hop : op.Admissible seen)
    {sp' : SystemProperties} (hrun : op.run sp = .ok () sp') :
    sp'.value = Function.update sp.value op.name.bytes
        (some (Registry.written (sp.value op.name.bytes) op)) ∧
      sp'.contextSerial = (sp.contextSerial + 1) % 2 ^ 32 := by
  have hspec := h.run_spec op hop
  rw [hrun] at hspec
  cases hspec with
  | @kept _ v hk hr _ hv hp hser =>
    obtain ⟨name, value, rfl⟩ := hk
    have hv' : sp.peek (sp.contextIndexOf name.bytes) name.bytes = some v := hv
    obtain ⟨w, hw⟩ := Option.isSome_iff_exists.mp (h.sound.peek_clean hv').2
    have hold : sp.value name.bytes = some w := by rw [value_eq_peek, hv']; exact hw
    have hsame : sp'.value = sp.value := funext fun n => value_congr hr (by rw [hp])
    refine ⟨?_, hser⟩
    rw [hsame]
    exact (Function.update_eq_self_iff.mpr (by simp [Registry.written, StoreOp.name, hold])).symm
  | @written _ v hr _ hv hold hp hser =>
    refine ⟨funext fun n => ?_, hser⟩
    rw [Function.update_apply]
    split_ifs with hn
    · have hnew : Registry.written (sp.value op.name.bytes) op = op.value := by
        cases op with
        | set => rfl
        | update => rfl
        | add name value =>
          have hnone : sp.value name.bytes = none := by
            rw [value_eq_peek]
            rcases hold with hnone | ⟨hne, -⟩
            · exact congrArg (·.bind EntryView.value) hnone
            · exact absurd rfl (hne name value)
          simp [Registry.written, StoreOp.name, StoreOp.value, hnone]
      rw [hn, hnew]
      exact value_written_self hr hv hp
    · exact value_congr hr (peek_written_of_ne hn hp _)

/-- **One step** of the store is a step of the registry. -/
theorem Represents.step {st st' : SystemProperties × List (Str × PropertyIndex)} {x : StoreEvent}
    (h : Represents st r) (hs : StoreObserved st x st') :
    ∃ r', Registry.Step r x r' ∧ Represents st' r' := by
  cases hs with
  | @op sp seen op hop =>
    have hinv : StoreInv (finalState (op.run sp)) seen :=
      @StoreInv.step (sp, seen) (finalState (op.run sp), seen) h.inv (.op op hop)
    have hiff := h.succeeds_iff hop
    cases hrun : op.run sp with
    | error e sp' =>
      rw [hrun] at hinv
      obtain ⟨hval, hser⟩ := h.inv.run_error hop hrun
      exact ⟨r, .refused r op, hinv, hval.trans h.value, hser.trans h.serial, h.lawful⟩
    | ok _ sp' =>
      rw [hrun] at hinv hiff
      obtain ⟨hval, hser⟩ := h.inv.run_ok hop hrun
      have hstep : Registry.Step r (.op op true) (r.apply op) := .done (hiff.mp rfl).1
      refine ⟨_, hstep, hinv, ?_, ?_, h.lawful.step hstep⟩
      · have hold : sp.value = r.value := h.value
        rw [hold] at hval
        exact hval
      · have hold : sp.contextSerial = r.writes % 2 ^ 32 := h.serial
        rw [hold, Nat.mod_add_mod] at hser
        exact hser
  | @found sp seen name index hf =>
    have hval : sp.value name.bytes = r.value name.bytes := congrFun h.value _
    cases index with
    | none =>
      refine ⟨r, .found ?_, h⟩
      rw [← hval, h.inv.sound.value_isSome, find_eq_none hf]
      rfl
    | some index =>
      obtain ⟨hroute, v, hv, -⟩ := find_eq_some hf
      refine ⟨r, .found ?_, ?_, h.value, h.serial, h.lawful⟩
      · rw [← hval, h.inv.sound.value_isSome, ← hroute, hv]
        rfl
      · exact @StoreInv.step (sp, seen) (sp, (name, index) :: seen) h.inv (.find hf)
  | @findFailed sp seen name e hf =>
    have hval : sp.value name.bytes = r.value name.bytes := congrFun h.value _
    refine ⟨r, .findFailed ?_, h⟩
    -- a name with a value is found
    rw [← hval, Option.eq_none_iff_forall_ne_some]
    intro w hw
    obtain ⟨index, v, hok, -⟩ := find_of_value hw
    rw [hf] at hok
    cases hok
  | @got sp seen name =>
    have hval : (sp.getWithResult name).toOption = r.value name := congrFun h.value name
    exact ⟨r, hval ▸ .got r name, h⟩

theorem StoreRun.represents (h : StoreRun info H (sp, seen)) :
    ∃ r, Trace.Run (· = Registry.empty) Registry.Step H r ∧ Represents (sp, seen) r := by
  refine Trace.Run.simulates (fun st hst => ⟨.empty, rfl, ?_⟩) (fun st x st' r hr hs => hr.step hs) h
  obtain ⟨sp₀, seen₀⟩ := st
  obtain ⟨hnew, rfl⟩ := hst
  exact represents_newArea hnew

/-- **A store is a registry.** Whatever a client observes of a store (which of its operations succeed,
what `find` returns or that it fails, what `get_with_result` returns) it may observe of a registry. At the
end of the run the store reads the registry's values, and the global serial counts its writes. -/
theorem store_refines_registry (h : StoreRun info H (sp, seen)) :
    ∃ r, Trace.Run (· = Registry.empty) Registry.Step H r ∧ sp.value = r.value ∧
      sp.contextSerial = r.writes % 2 ^ 32 := by
  obtain ⟨r, hrun, hr⟩ := h.represents
  exact ⟨r, hrun, hr.value, hr.serial⟩

/-- **When an operation of a store succeeds**: the policy of the registry permits it and, if the name is
new, its context has an area with room for it. -/
theorem storeOp_succeeds_iff (h : StoreRun info H (sp, seen)) (op : StoreOp)
    (hop : op.Admissible seen) : succeeded (op.run sp) = true ↔
      Registry.Permits (sp.value op.name.bytes) op ∧
        (sp.value op.name.bytes = none → sp.HasRoom op.name.bytes op.value.bytes) := by
  obtain ⟨r, -, hr⟩ := h.represents
  have hval : sp.value = r.value := hr.value
  rw [hval]
  exact hr.succeeds_iff hop

/-- A `set` of a new property in a fresh store. -/
private def sampleSet : StoreOp := .set ⟨ascii "sys.boot", by decide⟩ ⟨ascii "done", by decide⟩

private theorem exists_sampleSet : ∃ sp, SystemProperties.newArea sampleInfo = .ok sp ∧
    StoreRun sampleInfo [] (sp, []) ∧ succeeded (sampleSet.run sp) = true := by
  have hcheck : ((SystemProperties.newArea sampleInfo).toOption.any fun sp =>
      succeeded (sampleSet.run sp)) = true := by
    decide +kernel
  cases hnew : SystemProperties.newArea sampleInfo with
  | error e =>
    rw [hnew] at hcheck
    cases hcheck
  | ok sp =>
    rw [hnew] at hcheck
    exact ⟨sp, rfl, .start ⟨hnew, rfl⟩, hcheck⟩

theorem store_refines_registry_sample : ∃ (sp : SystemProperties) (r : Registry),
    Trace.Run (· = Registry.empty) Registry.Step [.op sampleSet true] r ∧ sp.value = r.value ∧
      sp.contextSerial = r.writes % 2 ^ 32 := by
  obtain ⟨sp, -, hrun, hok⟩ := exists_sampleSet
  have hobs := hrun.snoc (.op sampleSet trivial)
  rw [hok] at hobs
  obtain ⟨r, hr⟩ := store_refines_registry hobs
  exact ⟨_, r, hr⟩

theorem storeOp_succeeds_iff_sample :
    ∃ sp, SystemProperties.newArea sampleInfo = .ok sp ∧ sp.HasRoom (ascii "sys.boot") (ascii "done") := by
  obtain ⟨sp, hnew, hrun, hok⟩ := exists_sampleSet
  have hnone : sp.value (ascii "sys.boot") = none := value_newArea hnew _
  exact ⟨sp, hnew, ((storeOp_succeeds_iff hrun sampleSet trivial).mp hok).2 hnone⟩

end Runs

end RsProperties
