import RsProperties.Store.View
import RsProperties.InfoTrie.Serializer

/-!
# Store operations are all-or-nothing

Each of `set`, `add` and `update` ends in one of three ways (`OpOutcome`): it fails and nothing
visible has changed, it succeeds and leaves an existing entry as it is (`add` only), or it succeeds
and exactly one name reads the new value. The two successes bump the global serial by one. A `ro.`
name with a value can only see the first two, so it keeps its value in every later state.
-/

namespace RsProperties

open ByteMem StateExcept

namespace SystemProperties

/-- The visible state of a name in the area of a slot. -/
def peek (sp : SystemProperties) (i : ℕ) (name : Bytes) : Option EntryView :=
  sp.contextNodes[i]?.join.bind fun node => node.propertyArea.peek name

/-- The value a client reads for a name. -/
def value (sp : SystemProperties) (name : Bytes) : Option Str := (sp.getWithResult name).toOption

/-- The serial word of the entry of a name in the area of a slot. -/
def entrySerial (sp : SystemProperties) (i : ℕ) (name : Bytes) : Option ℕ :=
  (sp.peek i name).map EntryView.serial

/-- Every mapped area is in good order. -/
def AllSound (sp : SystemProperties) : Prop :=
  ∀ (i : ℕ) (node : ContextNode), sp.contextNodes[i]? = some (some node) → node.propertyArea.Sound

section Observations

variable {sp : SystemProperties}

theorem contextNodeAt_eq_ok {i : ℕ} {what : String} {node : ContextNode} :
    sp.contextNodeAt i what = .ok node ↔ sp.contextNodes[i]? = some (some node) := by
  rw [contextNodeAt]
  rcases sp.contextNodes[i]? with _ | _ | node' <;> simp

theorem peek_of_slot {i : ℕ} {node : ContextNode} (h : sp.contextNodes[i]? = some (some node)) :
    sp.peek i = node.propertyArea.peek := by
  funext name
  rw [peek, h]
  rfl

/-- A name is read through the slot it is routed to. -/
theorem value_eq_peek (name : Bytes) :
    sp.value name = (sp.peek (sp.contextIndexOf name) name).bind EntryView.value := by
  rw [value, getWithResult, propAreaForName]
  cases hn : sp.contextNodeAt (sp.contextIndexOf name) s!"property {display name}" with
  | error e =>
    have hp : sp.peek (sp.contextIndexOf name) name = none := by
      rw [contextNodeAt] at hn
      rw [peek]
      rcases hs : sp.contextNodes[sp.contextIndexOf name]? with _ | _ | node
      · rfl
      · rfl
      · rw [hs] at hn
        cases hn
    rw [hp]
    rfl
  | ok node =>
    rw [peek_of_slot (contextNodeAt_eq_ok.mp hn), PropertyAreaMap.peek]
    simp only [bind, Except.bind, pure, Except.pure]
    cases hf : node.propertyArea.find name with
    | error e => rfl
    | ok off => rfl

theorem AllSound.peek_clean (h : sp.AllSound) {i : ℕ} {name : Bytes} {v : EntryView}
    (hv : sp.peek i name = some v) : serialDirty v.serial = false ∧ v.value.isSome = true := by
  obtain ⟨node, hn, hv⟩ := Option.bind_eq_some_iff.mp hv
  exact (h i node (Option.join_eq_some_iff.mp hn)).peek_clean hv

/-- Every area of a fresh store is empty. -/
theorem newArea_eq_ok {info : PropertyInfoArea} (h : newArea info = .ok sp) :
    sp.propertyInfo = info ∧ ∀ (i : ℕ) (node : ContextNode),
      sp.contextNodes[i]? = some (some node) → node.propertyArea = .newRw := by
  rw [newArea] at h
  obtain ⟨names, -, h⟩ := except_bind_eq_ok.mp h
  obtain rfl := Except.ok.inj h
  refine ⟨rfl, fun i node hn => ?_⟩
  rw [List.getElem?_map] at hn
  obtain ⟨slot, -, hn⟩ := Option.map_eq_some_iff.mp hn
  obtain ⟨filename, -, rfl⟩ := Option.map_eq_some_iff.mp hn
  rfl

theorem allSound_newArea {info : PropertyInfoArea} (h : newArea info = .ok sp) : sp.AllSound := by
  intro i node hn
  rw [(newArea_eq_ok h).2 i node hn]
  exact sound_newRw

/-- Nothing is visible in a fresh store. -/
theorem value_newArea {info : PropertyInfoArea} (h : newArea info = .ok sp) (name : Bytes) :
    sp.value name = none := by
  rw [value_eq_peek, peek]
  rcases hn : sp.contextNodes[sp.contextIndexOf name]? with _ | _ | node
  · rfl
  · rfl
  · have hpeek : PropertyAreaMap.newRw.peek name = none := by
      rw [areaInv_newRw.peek_eq, Shape.lookup_empty]
      rfl
    simp only [Option.join_some, Option.bind_some, (newArea_eq_ok h).2 _ node hn, hpeek,
      Option.bind_none]

end Observations

/-! ### The pieces of a write -/

section Pieces

variable {sp : SystemProperties} {α β : Type}

theorem inspect_ok {f : SystemProperties → Except Error α} {a : α} (h : f sp = .ok a) :
    inspect f sp = .ok a sp := by
  rw [inspect, h]

theorem inspect_error {f : SystemProperties → Except Error α} {e : Error} (h : f sp = .error e) :
    inspect f sp = .error e sp := by
  rw [inspect, h]

theorem setArea_peek {i : ℕ} {node : ContextNode} (h : sp.contextNodes[i]? = some (some node))
    (pa : PropertyAreaMap) : (sp.setArea i node pa).peek = Function.update sp.peek i pa.peek := by
  funext j
  by_cases hj : j = i
  · subst hj
    have hlt : j < sp.contextNodes.length := (List.getElem?_eq_some_iff.mp h).1
    rw [Function.update_self]
    have hslot : (sp.setArea j node pa).contextNodes[j]? =
        some (some { node with propertyArea := pa }) := List.getElem?_set_self hlt
    exact peek_of_slot hslot
  · rw [Function.update_of_ne hj]
    funext name
    rw [peek, setArea, List.getElem?_set_ne (Ne.symm hj), peek]

theorem AllSound.setArea (hs : sp.AllSound) (i : ℕ) (node : ContextNode) {pa : PropertyAreaMap}
    (h : pa.Sound) : (sp.setArea i node pa).AllSound := by
  intro j node' hn
  rw [SystemProperties.setArea, List.getElem?_set] at hn
  split_ifs at hn
  · obtain rfl := Option.some.inj (Option.some.inj hn)
    exact h
  · exact hs j node' hn

theorem update_peek_same {i : ℕ} {node : ContextNode} {pa : PropertyAreaMap}
    (h : sp.contextNodes[i]? = some (some node)) (hp : pa.peek = node.propertyArea.peek) :
    Function.update sp.peek i pa.peek = sp.peek := by
  rw [hp, ← peek_of_slot h, Function.update_eq_self]

theorem propAreaMutWithIndex_eq_ok {i : ℕ} {node : ContextNode}
    (h : sp.propAreaMutWithIndex i = .ok node) : sp.contextNodes[i]? = some (some node) := by
  obtain ⟨node', hn, h⟩ := except_bind_eq_ok.mp h
  rw [requireOpened] at h
  split_ifs at h
  cases h
  exact contextNodeAt_eq_ok.mp hn

theorem propAreaMutForName_eq_ok {name : Bytes} {node : ContextNode} {i : ℕ}
    (h : sp.propAreaMutForName name = .ok (node, i)) :
    i = sp.contextIndexOf name ∧ sp.contextNodes[i]? = some (some node) := by
  obtain ⟨node', hn, h⟩ := except_bind_eq_ok.mp h
  obtain ⟨node'', ho, h⟩ := except_bind_eq_ok.mp h
  cases h
  rw [requireOpened] at ho
  split_ifs at ho
  cases ho
  exact ⟨rfl, contextNodeAt_eq_ok.mp hn⟩

theorem propAreaForName_eq_ok {name : Bytes} {node : ContextNode} {i : ℕ}
    (h : sp.propAreaForName name = .ok (node, i)) :
    i = sp.contextIndexOf name ∧ sp.contextNodes[i]? = some (some node) := by
  obtain ⟨node', hn, h⟩ := except_bind_eq_ok.mp h
  cases h
  exact ⟨rfl, contextNodeAt_eq_ok.mp hn⟩

/-- `sp'` is `sp` after the area of the slot `i` became `pa` and the global serial was bumped. -/
structure Published (sp : SystemProperties) (i : ℕ) (node : ContextNode) (pa : PropertyAreaMap)
    (sp' : SystemProperties) : Prop where
  info : sp'.propertyInfo = sp.propertyInfo
  nodes : sp'.contextNodes = (sp.setArea i node pa).contextNodes
  serial : sp'.contextSerial = (sp.contextSerial + 1) % 2 ^ 32

/-- The tail `update` and `add` share, when the area's writer succeeds. -/
theorem publish_ok (sp : SystemProperties) (i : ℕ) {node : ContextNode} {op : AreaM Unit}
    {pa : PropertyAreaMap} (h : op node.propertyArea = .ok () pa) :
    ∃ sp', (onArea i node op >>= fun _ => bumpSerial) sp = .ok () sp' ∧
      sp.Published i node pa sp' := by
  have hrun : onArea i node op sp = .ok () (sp.setArea i node pa) := by rw [onArea, h]
  rw [bind_ok hrun]
  exact ⟨_, rfl, rfl, rfl, readU32_writeU32_of_lt (Nat.mod_lt _ (by decide))⟩

/-- The same tail when the writer fails: the serial stays. -/
theorem publish_error {i : ℕ} {node : ContextNode} {op : AreaM Unit} {pa : PropertyAreaMap}
    {e : Error} (h : op node.propertyArea = .error e pa) :
    (onArea i node op >>= fun _ => bumpSerial) sp = .error e (sp.setArea i node pa) := by
  have hrun : onArea i node op sp = .error e (sp.setArea i node pa) := by rw [onArea, h]
  exact bind_error hrun

theorem Published.peek_eq {i : ℕ} {node : ContextNode} {pa : PropertyAreaMap}
    {sp' : SystemProperties} (h : sp.Published i node pa sp')
    (hslot : sp.contextNodes[i]? = some (some node)) :
    sp'.peek = Function.update sp.peek i pa.peek := by
  rw [← setArea_peek hslot]
  funext j name
  rw [peek, h.nodes, peek]

theorem Published.allSound {i : ℕ} {node : ContextNode} {pa : PropertyAreaMap}
    {sp' : SystemProperties} (h : sp.Published i node pa sp') (hs : sp.AllSound)
    (hpa : pa.Sound) : sp'.AllSound := fun j n hn =>
  hs.setArea i node hpa j n (h.nodes ▸ hn)

end Pieces

/-! ### The three outcomes -/

/-- How an operation on `name` with `value` can end; `keeps` is whether it may succeed without
writing, `inPlace` whether it may write to an existing entry. -/
inductive OpOutcome (keeps inPlace : Prop) (sp : SystemProperties) (name value : Str) :
    EStateM.Result Error SystemProperties Unit → Prop
  /-- It failed, invisibly. -/
  | failed {e : Error} {sp' : SystemProperties} (hr : sp'.propertyInfo = sp.propertyInfo)
      (hs : sp'.AllSound) (hp : sp'.peek = sp.peek) (hser : sp'.contextSerial = sp.contextSerial) :
      OpOutcome keeps inPlace sp name value (.error e sp')
  /-- It met an existing entry and left it alone. -/
  | kept {sp' : SystemProperties} {v : EntryView} (hkeeps : keeps)
      (hr : sp'.propertyInfo = sp.propertyInfo) (hs : sp'.AllSound)
      (hv : sp.peek (sp.contextIndexOf name.bytes) name.bytes = some v) (hp : sp'.peek = sp.peek)
      (hser : sp'.contextSerial = (sp.contextSerial + 1) % 2 ^ 32) :
      OpOutcome keeps inPlace sp name value (.ok () sp')
  /-- It wrote the value: to a new entry, or in place if the name is not read-only. -/
  | written {sp' : SystemProperties} {v : EntryView} (hr : sp'.propertyInfo = sp.propertyInfo)
      (hs : sp'.AllSound) (hv : v.value = some value)
      (hold : sp.peek (sp.contextIndexOf name.bytes) name.bytes = none ∨
        inPlace ∧ startsWithRo name.bytes = false ∧
          ∃ old, sp.peek (sp.contextIndexOf name.bytes) name.bytes = some old ∧ old.off = v.off)
      (hp : sp'.peek = Function.update sp.peek (sp.contextIndexOf name.bytes)
        (Function.update (sp.peek (sp.contextIndexOf name.bytes)) name.bytes (some v)))
      (hser : sp'.contextSerial = (sp.contextSerial + 1) % 2 ^ 32) :
      OpOutcome keeps inPlace sp name value (.ok () sp')

section Outcomes

variable {sp : SystemProperties} {keeps inPlace : Prop}

theorem OpOutcome.untouched (hs : sp.AllSound) (name value : Str) (e : Error) :
    OpOutcome keeps inPlace sp name value (.error e sp) := .failed rfl hs rfl rfl

/-- **`add`**. -/
theorem AllSound.add_spec (hs : sp.AllSound) (name value : Str) :
    OpOutcome (sp.peek (sp.contextIndexOf name.bytes) name.bytes ≠ none) False sp name value
      (add name value sp) := by
  cases hval : validateValueLen name.bytes value.bytes with
  | error e =>
    rw [add, bind_error (inspect_error hval)]
    exact .untouched hs name value e
  | ok _ =>
    rw [add, bind_ok (inspect_ok hval)]
    cases hpa : sp.propAreaMutForName name.bytes with
    | error e =>
      rw [bind_error (inspect_error hpa)]
      exact .untouched hs name value e
    | ok r =>
      obtain ⟨node, i⟩ := r
      obtain ⟨rfl, hslot⟩ := propAreaMutForName_eq_ok hpa
      have hview := (hs _ node hslot).add name value (validateValueLen_eq_ok.mp hval).1
      rw [bind_ok (inspect_ok hpa)]
      change OpOutcome _ _ sp name value ((onArea (sp.contextIndexOf name.bytes) node
        (PropertyAreaMap.add name.bytes value.bytes) >>= fun _ => bumpSerial) sp)
      cases hres : PropertyAreaMap.add name.bytes value.bytes node.propertyArea with
      | error e pa =>
        rw [hres] at hview
        rw [publish_error hres]
        cases hview with
        | failed hsound hp =>
          refine .failed rfl (hs.setArea _ _ hsound) ?_ rfl
          rw [setArea_peek hslot, update_peek_same hslot hp]
      | ok _ pa =>
        rw [hres] at hview
        obtain ⟨sp', hrun, hpub⟩ := publish_ok sp (sp.contextIndexOf name.bytes) hres
        rw [hrun]
        cases hview with
        | @kept _ v hsound hv hp =>
          have hv' : sp.peek (sp.contextIndexOf name.bytes) name.bytes = some v := by
            rw [peek_of_slot hslot]
            exact hv
          refine .kept (by simp [hv']) hpub.info (hpub.allSound hs hsound) hv' ?_ hpub.serial
          rw [hpub.peek_eq hslot, update_peek_same hslot hp]
        | bound hsound hnone hv hp =>
          refine .written hpub.info (hpub.allSound hs hsound) hv (.inl ?_) ?_ hpub.serial
          · rw [peek_of_slot hslot]
            exact hnone
          · rw [hpub.peek_eq hslot, hp, peek_of_slot hslot]

/-- **`update`** through a handle that belongs to `name`. -/
theorem AllSound.update_spec (hs : sp.AllSound) (name value : Str) {index : PropertyIndex}
    (hroute : index.contextIndex = sp.contextIndexOf name.bytes) {old : EntryView}
    (hold : sp.peek index.contextIndex name.bytes = some old)
    (hoff : old.off = index.propertyIndex) :
    OpOutcome False True sp name value (update index value sp) := by
  rw [update]
  cases hpa : sp.propAreaMutWithIndex index.contextIndex with
  | error e =>
    rw [bind_error (inspect_error hpa)]
    exact .untouched hs name value e
  | ok node =>
    have hslot := propAreaMutWithIndex_eq_ok hpa
    cases hins : inspectForUpdate node.propertyArea index.propertyIndex value.bytes with
    | error e =>
      rw [bind_ok (inspect_ok hpa), bind_error (inspect_error hins)]
      exact .untouched hs name value e
    | ok backup =>
      rw [bind_ok (inspect_ok hpa), bind_ok (inspect_ok hins)]
      have hold' : node.propertyArea.peek name.bytes = some old := by
        rw [← peek_of_slot hslot]
        exact hold
      obtain ⟨hro, pa, v, hres, hsound, hvoff, hv, hp⟩ :=
        (hs _ node hslot).update hold' value (hoff ▸ hins)
      rw [hoff] at hres
      obtain ⟨sp', hrun, hpub⟩ := publish_ok sp index.contextIndex hres
      rw [hrun]
      refine .written hpub.info (hpub.allSound hs hsound) hv
        (.inr ⟨trivial, hro, old, hroute ▸ hold, hvoff.symm⟩) ?_ hpub.serial
      rw [hpub.peek_eq hslot, hp, ← hroute, peek_of_slot hslot]

/-- A handle `find` returns belongs to its name. -/
theorem find_eq_some {name : Bytes} {index : PropertyIndex} (h : sp.find name = .ok (some index)) :
    index.contextIndex = sp.contextIndexOf name ∧
      ∃ v, sp.peek index.contextIndex name = some v ∧ v.off = index.propertyIndex := by
  rw [find] at h
  split at h
  · cases h
  · cases h
  rename_i node i hpa
  obtain ⟨rfl, hslot⟩ := propAreaForName_eq_ok hpa
  split at h
  · rename_i off hf
    cases h
    obtain ⟨v, hv, ho⟩ := find_eq_ok_iff_peek.mp hf
    exact ⟨rfl, v, by rw [peek_of_slot hslot]; exact hv, ho⟩
  · cases h
  · cases h

/-- A name `find` does not know is not visible. -/
theorem find_eq_none {name : Bytes} (h : sp.find name = .ok none) :
    sp.peek (sp.contextIndexOf name) name = none := by
  rcases hn : sp.contextNodes[sp.contextIndexOf name]? with _ | _ | node
  · rw [peek, hn]
    rfl
  · rw [peek, hn]
    rfl
  · have hpa : sp.propAreaForName name = .ok (node, sp.contextIndexOf name) := by
      rw [propAreaForName, except_bind_ok (contextNodeAt_eq_ok.mpr hn)]
      rfl
    rw [find, hpa] at h
    rw [peek_of_slot hn, PropertyAreaMap.peek]
    cases hf : node.propertyArea.find name with
    | error e => rfl
    | ok off =>
      simp only [hf] at h
      cases h

theorem OpOutcome.mono {keeps' inPlace' : Prop} (hk' : keeps → keeps') (hi' : inPlace → inPlace')
    {name value : Str} {res : EStateM.Result Error SystemProperties Unit}
    (h : OpOutcome keeps inPlace sp name value res) :
    OpOutcome keeps' inPlace' sp name value res := by
  cases h with
  | failed hr hs hp hser => exact .failed hr hs hp hser
  | kept hk hr hs hv hp hser => exact .kept (hk' hk) hr hs hv hp hser
  | written hr hs hv hold hp hser => exact .written hr hs hv (hold.imp_right (And.imp_left hi')) hp hser

/-- **`set`**: it only takes the `add` path for a name that is not there, so a success writes. -/
theorem AllSound.set_spec (hs : sp.AllSound) (name value : Str) :
    OpOutcome False True sp name value (set name value sp) := by
  rw [set]
  cases hf : sp.find name.bytes with
  | error e =>
    rw [bind_error (inspect_error hf)]
    exact .untouched hs name value e
  | ok r =>
    rw [bind_ok (inspect_ok hf)]
    cases r with
    | some index =>
      obtain ⟨hroute, v, hv, ho⟩ := find_eq_some hf
      exact hs.update_spec name value hroute hv ho
    | none => exact (hs.add_spec name value).mono (fun hne => hne (find_eq_none hf)) False.elim

end Outcomes

end SystemProperties

/-! ### Whole runs -/

open SystemProperties

/-- The invariant of the runs: sound areas, and handles that still belong to their names. -/
structure StoreInv (sp : SystemProperties) (seen : List (Str × PropertyIndex)) : Prop where
  sound : sp.AllSound
  handles : ∀ p ∈ seen, p.2.contextIndex = sp.contextIndexOf p.1.bytes ∧
    ∃ v, sp.peek p.2.contextIndex p.1.bytes = some v ∧ v.off = p.2.propertyIndex

namespace StoreInv

variable {sp : SystemProperties} {seen : List (Str × PropertyIndex)}

/-- The one outcome lemma for all operations. -/
theorem run_spec (h : StoreInv sp seen) (op : StoreOp) (hop : op.Admissible seen) :
    OpOutcome (∃ name value, op = .add name value) (∀ name value, op ≠ .add name value) sp
      op.name op.value (op.run sp) := by
  cases op with
  | set name value => exact (h.sound.set_spec name value).mono False.elim fun _ _ _ => by simp
  | add name value => exact (h.sound.add_spec name value).mono (fun _ => ⟨name, value, rfl⟩) False.elim
  | update name index value =>
    obtain ⟨hroute, v, hv, ho⟩ := h.handles _ hop
    exact (h.sound.update_spec name value hroute hv ho).mono False.elim fun _ _ _ => by simp

end StoreInv

theorem contextIndexOf_congr {sp sp' : SystemProperties} (h : sp'.propertyInfo = sp.propertyInfo)
    (name : Bytes) : sp'.contextIndexOf name = sp.contextIndexOf name := by
  rw [contextIndexOf, h, contextIndexOf]

section OutcomeReads

variable {sp sp' : SystemProperties} {keeps inPlace : Prop} {name value : Str}

/-- Equal views read equal values. -/
theorem value_congr (hr : sp'.propertyInfo = sp.propertyInfo) {n : Bytes}
    (hp : sp'.peek (sp.contextIndexOf n) n = sp.peek (sp.contextIndexOf n) n) :
    sp'.value n = sp.value n := by
  rw [value_eq_peek, value_eq_peek, contextIndexOf_congr hr, hp]

/-- A write is invisible through any other name. -/
theorem peek_written_of_ne {v : EntryView} {i : ℕ} {n n' : Bytes} (hne : n' ≠ n)
    (hp : sp'.peek = Function.update sp.peek i (Function.update (sp.peek i) n (some v))) (j : ℕ) :
    sp'.peek j n' = sp.peek j n' := by
  rw [hp]
  by_cases hj : j = i
  · subst hj
    rw [Function.update_self, Function.update_of_ne hne]
  · rw [Function.update_of_ne hj]

theorem peek_written_self {v : EntryView} {i : ℕ} {n : Bytes}
    (hp : sp'.peek = Function.update sp.peek i (Function.update (sp.peek i) n (some v))) :
    sp'.peek i n = some v := by
  rw [hp, Function.update_self, Function.update_self]

theorem value_written_self {v : EntryView} {n : Bytes} {w : Str}
    (hr : sp'.propertyInfo = sp.propertyInfo) (hv : v.value = some w)
    (hp : sp'.peek = Function.update sp.peek (sp.contextIndexOf n)
      (Function.update (sp.peek (sp.contextIndexOf n)) n (some v))) : sp'.value n = some w := by
  rw [value_eq_peek, contextIndexOf_congr hr, peek_written_self hp]
  exact hv

/-- Handles stay valid: entries never move. -/
theorem SystemProperties.OpOutcome.handle_kept {res : EStateM.Result Error SystemProperties Unit}
    (h : OpOutcome keeps inPlace sp name value res) {n : Bytes} {v : EntryView}
    (hv : sp.peek (sp.contextIndexOf n) n = some v) :
    ∃ v', (finalState res).peek (sp.contextIndexOf n) n = some v' ∧ v'.off = v.off := by
  cases h with
  | failed _ _ hp => exact ⟨v, by rw [finalState, hp, hv], rfl⟩
  | kept _ _ _ _ hp => exact ⟨v, by rw [finalState, hp, hv], rfl⟩
  | @written sp' v' _ _ _ hold hp =>
    by_cases hn : n = name.bytes
    · subst hn
      rcases hold with hnone | ⟨-, -, old, ho, hoff⟩
      · rw [hnone] at hv
        cases hv
      · rw [ho] at hv
        obtain rfl := Option.some.inj hv
        exact ⟨v', peek_written_self hp, hoff.symm⟩
    · exact ⟨v, (peek_written_of_ne hn hp _).trans hv, rfl⟩

theorem SystemProperties.OpOutcome.info_eq {res : EStateM.Result Error SystemProperties Unit}
    (h : OpOutcome keeps inPlace sp name value res) : (finalState res).propertyInfo = sp.propertyInfo := by
  cases h with
  | failed hr => exact hr
  | kept _ hr => exact hr
  | written hr => exact hr

theorem SystemProperties.OpOutcome.allSound {res : EStateM.Result Error SystemProperties Unit}
    (h : OpOutcome keeps inPlace sp name value res) : (finalState res).AllSound := by
  cases h with
  | failed _ hs => exact hs
  | kept _ _ hs => exact hs
  | written _ hs => exact hs

/-- A read-only name with a value keeps it, whatever the operation. -/
theorem SystemProperties.OpOutcome.ro_kept {res : EStateM.Result Error SystemProperties Unit}
    (h : OpOutcome keeps inPlace sp name value res) {n : Bytes} {w : Str} (hro : startsWithRo n = true)
    (hw : sp.value n = some w) : (finalState res).value n = some w := by
  cases h with
  | failed hr _ hp => rw [finalState, value_congr hr (by rw [hp]), hw]
  | kept _ hr _ _ hp => rw [finalState, value_congr hr (by rw [hp]), hw]
  | @written sp' v' hr _ _ hold hp =>
    by_cases hn : n = name.bytes
    · subst hn
      rcases hold with hnone | ⟨-, hnot, -⟩
      · rw [value_eq_peek, hnone] at hw
        cases hw
      · rw [hnot] at hro
        cases hro
    · rw [finalState, value_congr hr (peek_written_of_ne hn hp _), hw]

/-- `add` gives an absent name its value, and leaves all other values alone. -/
theorem SystemProperties.AllSound.add_value (hs : sp.AllSound)
    (h : SystemProperties.add name value sp = .ok () sp') :
    sp'.AllSound ∧ sp'.propertyInfo = sp.propertyInfo ∧
      sp'.value name.bytes = some ((sp.value name.bytes).getD value) ∧
      ∀ n, n ≠ name.bytes → sp'.value n = sp.value n := by
  have hspec := hs.add_spec name value
  rw [h] at hspec
  cases hspec with
  | @kept _ v _ hr hs' hv hp =>
    have hsame : ∀ n, sp'.value n = sp.value n := fun n => value_congr hr (by rw [hp])
    refine ⟨hs', hr, ?_, fun n _ => hsame n⟩
    have hsome : (sp.value name.bytes).isSome = true := by
      rw [value_eq_peek, hv]
      exact (hs.peek_clean hv).2
    obtain ⟨w, hw⟩ := Option.isSome_iff_exists.mp hsome
    rw [hsame, hw, Option.getD_some]
  | @written _ v hr hs' hv hold hp =>
    refine ⟨hs', hr, ?_, fun n hn => value_congr hr (peek_written_of_ne hn hp _)⟩
    have hnone : sp.value name.bytes = none := by
      rw [value_eq_peek, hold.resolve_right fun hin => hin.1]
      rfl
    rw [value_written_self hr hv hp, hnone, Option.getD_none]

end OutcomeReads

theorem StoreInv.step {st st' : SystemProperties × List (Str × PropertyIndex)}
    (h : StoreInv st.1 st.2) (hstep : StoreStep st st') : StoreInv st'.1 st'.2 := by
  cases hstep with
  | find hf =>
    refine ⟨h.sound, fun p hp => ?_⟩
    rcases List.mem_cons.mp hp with rfl | hp
    · exact find_eq_some hf
    · exact h.handles p hp
  | op op hop =>
    have hspec := h.run_spec op hop
    refine ⟨hspec.allSound, fun p hp => ?_⟩
    obtain ⟨hroute, v, hv, ho⟩ := h.handles p hp
    rw [hroute] at hv ⊢
    obtain ⟨v', hv', ho'⟩ := hspec.handle_kept hv
    exact ⟨(contextIndexOf_congr hspec.info_eq _).symm, v', hv', ho'.trans ho⟩

theorem StoreInv.steps {st st' : SystemProperties × List (Str × PropertyIndex)}
    (h : StoreInv st.1 st.2) (hrun : Relation.ReflTransGen StoreStep st st') :
    StoreInv st'.1 st'.2 := by
  induction hrun with
  | refl => exact h
  | tail _ hstep ih => exact ih.step hstep

theorem StoreReachable.storeInv {info : PropertyInfoArea} {sp : SystemProperties}
    {seen : List (Str × PropertyIndex)} (h : StoreReachable info (sp, seen)) : StoreInv sp seen := by
  obtain ⟨sp0, hnew, hrun⟩ := h
  have hinit : StoreInv sp0 [] := ⟨allSound_newArea hnew, by simp⟩
  exact @StoreInv.steps (sp0, []) _ hinit hrun

/-- Read-only values survive whole runs. -/
theorem StoreInv.ro_steps {st st' : SystemProperties × List (Str × PropertyIndex)}
    (h : StoreInv st.1 st.2) (hrun : Relation.ReflTransGen StoreStep st st') {n : Bytes} {w : Str}
    (hro : startsWithRo n = true) (hw : st.1.value n = some w) : st'.1.value n = some w := by
  induction hrun with
  | refl => exact hw
  | tail hpre hstep ih =>
    have hinv := h.steps hpre
    cases hstep with
    | find => exact ih
    | op op hop => exact (hinv.run_spec op hop).ro_kept hro ih

/-- **Store operations are all-or-nothing.** From every reachable state, for every operation: a
failure leaves every value read, every entry's serial word and the global serial as they were, with
no dirty entry; a success adds one to the global serial and changes no other name, `set` and `update`
make the name read the value, `add` does so for an absent name and leaves an existing one alone. A
`ro.` name that has a value keeps it in every later state. -/
theorem store_all_or_nothing {info : PropertyInfoArea} {sp : SystemProperties}
    {seen : List (Str × PropertyIndex)} (h : StoreReachable info (sp, seen)) :
    (∀ op : StoreOp, op.Admissible seen → ∀ e sp', op.run sp = .error e sp' →
      (∀ name, sp'.value name = sp.value name) ∧
      (∀ i name, sp'.entrySerial i name = sp.entrySerial i name) ∧
      sp'.contextSerial = sp.contextSerial ∧
      ∀ i name s, sp'.entrySerial i name = some s → serialDirty s = false) ∧
    (∀ op : StoreOp, op.Admissible seen → ∀ sp', op.run sp = .ok () sp' →
      sp'.contextSerial = (sp.contextSerial + 1) % 2 ^ 32 ∧
      (∀ name, name ≠ op.name.bytes → sp'.value name = sp.value name) ∧
      (match op with
        | .set name value => sp'.value name.bytes = some value
        | .update name _ value => sp'.value name.bytes = some value
        | .add name value =>
          sp'.value name.bytes = some ((sp.value name.bytes).getD value))) ∧
    ∀ name value, startsWithRo name = true → sp.value name = some value →
      ∀ sp' seen', Relation.ReflTransGen StoreStep (sp, seen) (sp', seen') →
        sp'.value name = some value := by
  have hinv := h.storeInv
  refine ⟨fun op hop e sp' hrun => ?_, fun op hop sp' hrun => ?_,
    fun name value hro hv sp' seen' hsteps => ?_⟩
  · have hspec := hinv.run_spec op hop
    rw [hrun] at hspec
    cases hspec with
    | failed hr hs hp hser =>
      refine ⟨fun name => value_congr hr (by rw [hp]), fun i name => ?_, hser,
        fun i name s hes => ?_⟩
      · rw [entrySerial, hp, entrySerial]
      · obtain ⟨v, hv, rfl⟩ := Option.map_eq_some_iff.mp hes
        exact (hs.peek_clean hv).1
  · have hspec := hinv.run_spec op hop
    rw [hrun] at hspec
    cases hspec with
    | @kept _ v hk hr _ hv hp hser =>
      obtain ⟨name, value, rfl⟩ := hk
      have hsame : ∀ n, sp'.value n = sp.value n := fun n => value_congr hr (by rw [hp])
      refine ⟨hser, fun n _ => hsame n, ?_⟩
      have hsome : (sp.value name.bytes).isSome = true := by
        rw [value_eq_peek, show sp.peek (sp.contextIndexOf name.bytes) name.bytes = some v from hv]
        exact (hinv.sound.peek_clean hv).2
      obtain ⟨w, hw⟩ := Option.isSome_iff_exists.mp hsome
      simp only [hsame, hw, Option.getD_some]
    | @written _ v hr _ hv hold hp hser =>
      have hself : sp'.value op.name.bytes = some op.value := value_written_self hr hv hp
      refine ⟨hser, fun n hn => value_congr hr (peek_written_of_ne hn hp _), ?_⟩
      cases op with
      | set name value => exact hself
      | update name index value => exact hself
      | add name value =>
        have hnone : sp.value name.bytes = none := by
          rcases hold with hnone | ⟨hne, -⟩
          · rw [value_eq_peek]
            exact congrArg (·.bind EntryView.value) hnone
          · exact absurd rfl (hne name value)
        simp only [hnone, Option.getD_none]
        exact hself
  · exact @StoreInv.ro_steps (sp, seen) _ hinv hsteps _ _ hro hv

theorem valid_sampleContext : Utf8.valid (ascii "c") = true := by decide

/-- A `property_info` with one context for every name. -/
def sampleInfo : PropertyInfoArea :=
  ((buildTrie [] ⟨ascii "c", valid_sampleContext⟩ ⟨[], Utf8.valid_nil⟩).toOption.bind PropertyInfoArea.new).getD
    ⟨fun _ => 0, infoHeaderSize, le_rfl⟩

/-- The first write to a fresh store. -/
theorem store_all_or_nothing_sample :
    ∃ sp sp', SystemProperties.newArea sampleInfo = .ok sp ∧
      (StoreOp.add ⟨ascii "ro.a", by decide⟩ ⟨ascii "1", by decide⟩).run sp = .ok () sp' ∧
      sp'.contextSerial = 1 ∧ sp'.value (ascii "ro.a") = some ⟨ascii "1", by decide⟩ := by
  have hcheck : ((SystemProperties.newArea sampleInfo).toOption.any fun sp =>
      succeeded ((StoreOp.add ⟨ascii "ro.a", by decide⟩ ⟨ascii "1", by decide⟩).run sp) &&
        (sp.value (ascii "ro.a")).isNone && sp.contextSerial == 0) = true := by
    decide +kernel
  cases hnew : SystemProperties.newArea sampleInfo with
  | error e =>
    rw [hnew] at hcheck
    cases hcheck
  | ok sp =>
    rw [hnew] at hcheck
    simp only [Except.toOption, Option.any_some, Bool.and_eq_true, Option.isNone_iff_eq_none,
      beq_iff_eq] at hcheck
    obtain ⟨⟨hok, hnone⟩, hser⟩ := hcheck
    cases hrun : (StoreOp.add ⟨ascii "ro.a", by decide⟩ ⟨ascii "1", by decide⟩).run sp with
    | error e sp' =>
      rw [hrun] at hok
      cases hok
    | ok u sp' =>
      have hreach : StoreReachable sampleInfo (sp, []) := ⟨sp, hnew, .refl⟩
      obtain ⟨hser', -, hval⟩ := (store_all_or_nothing hreach).2.1 (.add _ _) trivial sp' hrun
      rw [hser] at hser'
      simp only [hnone, Option.getD_none] at hval
      exact ⟨sp, sp', rfl, hrun, hser', hval⟩

end RsProperties
