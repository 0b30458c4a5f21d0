import RsProperties.Shared.Protocol
import RsProperties.Seqlock.Watcher

/-!
# What a shared area holds

The contents of a shared area are its shape, with the values the entries have now, and a counter for
each entry (`Contents`). Reads see the entries through the seqlock (`Seqlock.WriterInv`), and that
invariant has to survive what the writer does besides: an `add` grows the shape (`entries_grow`), and an
`update` gives one entry another value (`updateStep`).

Between two calls the invariant of the writers holds of the memory. While an update is under way, it holds
of the memory as it was before the entry became dirty (`Behind`).
-/

namespace RsProperties

open ByteMem PropertyAreaMap PropertyInfo Process Publish
open Seqlock (Writer WriterInv IsShort IsLong GoodValue writerStep)

/-! ### Values by offset -/

/-- The value of the entry at an offset. -/
noncomputable def Shape.valueAt (g : Shape) (off : ℕ) : Bytes :=
  Classical.epsilon fun v => ∃ n e, g.entry n = some e ∧ e.off = off ∧ e.value = v

section Values

variable {g g' : Shape} {used used' n off : ℕ} {e : Entry} {value : Bytes}

theorem Shape.Wf.valueAt_eq (hw : g.Wf used) (he : g.entry n = some e) :
    g.valueAt e.off = e.value := by
  obtain ⟨n', e', he', ho, hv⟩ := Classical.epsilon_spec
    (p := fun v => ∃ n e', g.entry n = some e' ∧ e'.off = e.off ∧ e'.value = v)
    ⟨e.value, n, e, he, rfl, rfl⟩
  obtain rfl := hw.entry_injective he' he ho
  rw [he] at he'
  obtain rfl := Option.some.inj he'
  exact hv.symm

/-- An entry that takes another short value stays short. -/
theorem isShort_revalue (he : g.entry n = some e) (hs : e.value.length < propValueMax)
    (hv : value.length < propValueMax) :
    IsShort (g.bindEntry n ⟨e.off, value⟩) off ↔ IsShort g off := by
  constructor
  · rintro ⟨k, e', he', rfl, hl⟩
    simp only [Shape.bindEntry, Function.update_apply] at he'
    split_ifs at he' with hk
    · obtain rfl := Option.some.inj he'
      exact ⟨n, e, he, rfl, hs⟩
    · exact ⟨k, e', he', rfl, hl⟩
  · rintro ⟨k, e', he', rfl, hl⟩
    by_cases hk : k = n
    · subst hk
      obtain rfl := Option.some.inj (he.symm.trans he')
      exact ⟨k, ⟨e.off, value⟩, Function.update_self _ _ _, rfl, hv⟩
    · exact ⟨k, e', (Function.update_of_ne hk _ _).trans he', rfl, hl⟩

/-- A long entry keeps its value. -/
theorem isLong_revalue (he : g.entry n = some e) (hs : e.value.length < propValueMax) {v : Bytes}
    (h : IsLong g off v) : IsLong (g.bindEntry n ⟨e.off, value⟩) off v := by
  obtain ⟨k, e', he', rfl, rfl, hl⟩ := h
  have hk : k ≠ n := by
    rintro rfl
    obtain rfl := Option.some.inj (he.symm.trans he')
    omega
  exact ⟨k, e', (Function.update_of_ne hk _ _).trans he', rfl, rfl, hl⟩

/-- The values after one entry has taken another one. -/
theorem valueAt_revalue (hw : g.Wf used) (hw' : (g.bindEntry n ⟨e.off, value⟩).Wf used')
    (he : g.entry n = some e) (hoff : ∃ k e', g.entry k = some e' ∧ e'.off = off) :
    (g.bindEntry n ⟨e.off, value⟩).valueAt off = Function.update g.valueAt e.off value off := by
  obtain ⟨k, e', he', rfl⟩ := hoff
  by_cases hk : k = n
  · subst hk
    obtain rfl := Option.some.inj (he.symm.trans he')
    have hself : (g.bindEntry k ⟨e.off, value⟩).entry k = some ⟨e.off, value⟩ :=
      Function.update_self _ _ _
    rw [Function.update_self]
    exact hw'.valueAt_eq hself
  · have hne : e'.off ≠ e.off := fun ho => hk (hw.entry_injective he' he ho)
    have hother : (g.bindEntry n ⟨e.off, value⟩).entry k = some e' :=
      (Function.update_of_ne hk _ _).trans he'
    rw [Function.update_of_ne hne, hw.valueAt_eq he', hw'.valueAt_eq hother]

end Values

namespace Shared

/-! ### Contents -/

/-- Published contents with the counters of the entries. -/
structure Contents extends Published where
  count : ℕ → ℕ

/-- Contents have grown: a short entry whose counter is as it was has its value still, and a long entry
has it always. -/
structure Follows (c c' : Contents) : Prop where
  spreads : c.shape.Spreads c'.shape
  short : ∀ off, IsShort c.shape off → IsShort c'.shape off
  count : ∀ off, IsShort c.shape off → c.count off ≤ c'.count off
  value : ∀ off, IsShort c.shape off → c'.count off = c.count off →
    c'.shape.valueAt off = c.shape.valueAt off
  long : ∀ off v, IsLong c.shape off v → IsLong c'.shape off v

instance : Preorder Contents where
  le := Follows
  le_refl c := ⟨Shape.Grows.spreads (.refl _), fun _ => id, fun _ _ => le_rfl, fun _ _ _ => rfl,
    fun _ _ => id⟩
  le_trans c c' c'' h h' := by
    refine ⟨h.spreads.trans h'.spreads, fun off ho => h'.short off (h.short off ho),
      fun off ho => (h.count off ho).trans (h'.count off (h.short off ho)), fun off ho hc => ?_,
      fun off v hl => h'.long off v (h.long off v hl)⟩
    have h1 := h.count off ho
    have h2 := h'.count off (h.short off ho)
    rw [h'.value off (h.short off ho) (by omega), h.value off ho (by omega)]

/-! ### Entries beside an `add` -/

section Entries

variable {g g' : Shape} {used used' : ℕ} {v : ℕ → Bytes} {k : ℕ → ℕ} {m m' : Mem}

open Classical in
/-- The counters when the shape has grown: a new entry counts from its first serial. -/
noncomputable def extendCount (g : Shape) (k : ℕ → ℕ) (m' : Mem) : ℕ → ℕ := fun off =>
  if IsShort g off then k off else serial m' (off + 128)

theorem extendCount_of_short {off : ℕ} (h : IsShort g off) : extendCount g k m' off = k off :=
  if_pos h

/-- New entries are clean, and the others are as they were. -/
theorem entries_grow (h : WriterInv g v k m .idle) (hw : g.Wf used) (hw' : g'.Wf used')
    (hrep : Rep m' g') (hkept : Kept g m m')
    (hvalid : ∀ n e, g'.entry n = some e → Utf8.valid e.value = true) :
    WriterInv g' g'.valueAt (extendCount g k m') m' .idle := by
  refine ⟨?_, ?_, fun n e he _ => hrep.entry n e he, trivial⟩
  · rintro off ⟨n, e, he, rfl, hl⟩
    rw [hw'.valueAt_eq he]
    exact ⟨hw'.entry_value n e he, hl, hvalid n e he⟩
  · rintro off ⟨n, e, he, rfl, hl⟩ -
    obtain ⟨hclean, hslot⟩ := (hrep.entry n e he).short hl
    rw [hw'.valueAt_eq he]
    refine ⟨hclean, ?_, hslot⟩
    by_cases hold : IsShort g e.off
    · rw [extendCount_of_short hold]
      have hq := (h.quiet _ hold (by simp [Writer.dirtyAt])).count
      obtain ⟨n₀, e₀, he₀, ho, -⟩ := hold
      have hge := entryExtent_ge (joinDot (g.path n₀))
      have hsame := hkept.block _ (hw.entry_block n₀ e₀ he₀) (by simp)
      simp only [Block.stop, Obj.extent, ho] at hsame
      have hser : serial m (e.off + 128) = serial m' (e.off + 128) :=
        readU32_congr (hsame.mono le_rfl (by omega))
      rw [← hser]
      exact hq
    · rw [extendCount, if_neg hold]

/-- Contents that an `add` has grown. -/
theorem follows_grow (hw : g.Wf used) (hw' : g'.Wf used') (hg : g.Grows g') {c c' : Contents}
    (hc : c.shape = g) (hc' : c'.shape = g') (hk : c'.count = extendCount g c.count m') :
    c ≤ c' := by
  subst hc hc'
  refine ⟨hg.spreads, ?_, fun off ho => ?_, ?_, ?_⟩
  · rintro off ⟨n, e, he, rfl, hl⟩
    exact ⟨n, e, hg.entry n e he, rfl, hl⟩
  · rw [hk, extendCount_of_short ho]
  · rintro off ⟨n, e, he, rfl, hl⟩ -
    rw [hw.valueAt_eq he, hw'.valueAt_eq (hg.entry n e he)]
  · rintro off v ⟨n, e, he, rfl, rfl, hl⟩
    exact ⟨n, e, hg.entry n e he, rfl, rfl, hl⟩

end Entries

/-! ### Entries beside an `update` -/

/-- The memory `m₀` is what `m` was before the writer's entry became dirty. -/
structure Behind (m₀ m : Mem) (w : Writer) : Prop where
  clean : w.dirtyAt = none → m₀ = m
  dirty : ∀ off, w.dirtyAt = some off →
    ∀ x y, y ≤ off + 128 ∨ off + 224 ≤ x → SameOn m₀ m x y

/-- One step of `update` is silent and leaves the shape alone, or it is the clean serial and gives the
entry its new value. -/
inductive UpdateStep (pa : PropertyAreaMap) (g : Shape) (m : Mem) (w : Writer) : Prop
  | silent {m₁ : Mem} (hx : (writerStep m w).2.2 = .tau) (hinv : AreaInv (pa.withData m₁) g)
      (hb : Behind m₁ (writerStep m w).1 (writerStep m w).2.1)
  | commit {n : ℕ} {e : Entry} {value : Bytes} (he : g.entry n = some e)
      (hl : e.value.length < propValueMax) (hv : GoodValue value)
      (hx : (writerStep m w).2.2 = .commit e.off value) (hidle : (writerStep m w).2.1 = .idle)
      (hinv : AreaInv (pa.withData (writerStep m w).1) (g.bindEntry n ⟨e.off, value⟩))

section Update

variable {pa : PropertyAreaMap} {g : Shape} {v : ℕ → Bytes} {k : ℕ → ℕ} {m₀ m : Mem} {w : Writer}

/-- Before the dirty serial, the writer touches the backup slot only. -/
theorem Behind.backup (h : AreaInv (pa.withData m₀) g) (hb : Behind m₀ m w) {m' : Mem} {w' : Writer}
    (hd : w.dirtyAt = none) (hd' : w'.dirtyAt = none)
    (hs : ∀ x y, y ≤ 148 ∨ 240 ≤ x → SameOn m m' x y) :
    AreaInv (pa.withData m') g ∧ Behind m' m' w' := by
  obtain rfl := hb.clean hd
  have hinv : AreaInv ((pa.withData m₀).withData m') g := h.of_backup hs
  refine ⟨hinv, fun _ => rfl, fun off ho => ?_⟩
  rw [hd'] at ho
  cases ho

/-- From then on, it touches the entry only. -/
theorem Behind.entry (hb : Behind m₀ m w) {m' : Mem} {w' : Writer} {off : ℕ}
    (hd : w.dirtyAt = none ∨ w.dirtyAt = some off) (hd' : w'.dirtyAt = some off)
    (hs : ∀ x y, y ≤ off + 128 ∨ off + 224 ≤ x → SameOn m m' x y) : Behind m₀ m' w' := by
  refine ⟨fun h0 => ?_, fun off' ho x y hxy => ?_⟩
  · rw [hd'] at h0
    cases h0
  · obtain rfl := Option.some.inj (hd'.symm.trans ho)
    rcases hd with hd | hd
    · exact hb.clean hd ▸ hs x y hxy
    · exact (hb.dirty off hd x y hxy).trans (hs x y hxy)

/-- The clean serial completes the entry. -/
theorem Behind.commit (h : AreaInv (pa.withData m₀) g) {off current : ℕ} {value : Bytes}
    (hb : Behind m₀ m (.publish off value current))
    (hw : WriterInv g v k m (.publish off value current)) :
    UpdateStep pa g m (.publish off value current) := by
  have hcommit := WriterInv.commit h.wf hw
  obtain ⟨hso, hgood, -, -⟩ := hw.phase
  obtain ⟨hclean, -, hslot⟩ := hcommit.quiet off hso (by simp [Writer.dirtyAt])
  rw [Function.update_self] at hclean hslot
  obtain ⟨n, e, he, rfl, hl⟩ := hso
  have hs : ∀ x y, y ≤ e.off + 128 ∨ e.off + 224 ≤ x → SameOn m₀
      (writeU32 m (e.off + 128) (nextSerial value.length current)) x y := fun x y hxy =>
    (hb.dirty e.off rfl x y hxy).trans (sameOn_writeU32 (by omega)).symm
  have hname := (h.rep.entry n e he).name_at
  refine .commit he hl hgood rfl rfl (h.rewriteEntry he hgood.nul hgood.len hs ?_)
  refine ⟨hname.congr (hs _ _ (.inr (by omega))), fun _ => ⟨hclean, hslot⟩, fun hlong => ?_⟩
  have := hgood.len
  omega

/-- **One step of `update`**. -/
theorem updateStep (h : AreaInv (pa.withData m₀) g) (hb : Behind m₀ m w)
    (hw : WriterInv g v k m w) : UpdateStep pa g m w := by
  -- a step that stores nothing
  have still : ∀ w', w.dirtyAt = none → w'.dirtyAt = none → writerStep m w = (m, w', .tau) →
      UpdateStep pa g m w := by
    intro w' hd hd' hstep
    obtain ⟨hinv, hb'⟩ := hb.backup h hd hd' fun _ _ _ => .refl _ _ _
    exact .silent (by rw [hstep]) hinv (by rw [hstep]; exact hb')
  cases w with
  | idle => exact still _ rfl rfl rfl
  | check off value =>
    simp only [writerStep] at still
    split_ifs at still <;> exact still _ rfl rfl rfl
  | scan off value buf =>
    simp only [writerStep] at still
    split_ifs at still <;> exact still _ rfl rfl rfl
  | loadSerial off value =>
    simp only [writerStep] at still
    split_ifs at still <;> exact still _ rfl rfl rfl
  | backup off value old i =>
    obtain ⟨hso, -, rfl, hi, -⟩ := hw.phase
    have hlen := (hw.good off hso).len
    rw [propValueMax] at hlen
    have hs : ∀ b : UInt8, ∀ x y, y ≤ 148 ∨ 240 ≤ x → SameOn m (writeBytes m (148 + i) [b]) x y := by
      intro b x y hxy
      exact (sameOn_writeBytes (by rw [List.length_singleton]; omega)).symm
    cases hget : (v off)[i]? with
    | some b =>
      obtain ⟨hinv, hb'⟩ := @Behind.backup pa g m₀ m _ h hb _ (.backup off value (v off) (i + 1))
        rfl rfl (hs b)
      exact .silent (by simp only [writerStep, hget]) hinv (by simp only [writerStep, hget]; exact hb')
    | none =>
      obtain ⟨hinv, hb'⟩ := @Behind.backup pa g m₀ m _ h hb _ (.loadSerial off value) rfl rfl (hs 0)
      exact .silent (by simp only [writerStep, hget]) hinv (by simp only [writerStep, hget]; exact hb')
  | setDirty off value current =>
    have hs : ∀ x y, y ≤ off + 128 ∨ off + 224 ≤ x →
        SameOn m (writeU32 m (off + 128) (dirtySerial current)) x y := by
      intro x y hxy
      exact (sameOn_writeU32 (by omega)).symm
    exact .silent rfl h (hb.entry (.inl rfl) rfl hs)
  | store off value current i =>
    obtain ⟨-, hgood, -, hi, -⟩ := hw.phase
    have hlen := hgood.len
    rw [propValueMax] at hlen
    have hs : ∀ b : UInt8, ∀ x y, y ≤ off + 128 ∨ off + 224 ≤ x →
        SameOn m (writeBytes m (off + 132 + i) [b]) x y := by
      intro b x y hxy
      exact (sameOn_writeBytes (by rw [List.length_singleton]; omega)).symm
    cases hget : value[i]? with
    | some b =>
      refine .silent (by simp only [writerStep, hget]) h ?_
      simp only [writerStep, hget]
      exact hb.entry (.inr rfl) rfl (hs b)
    | none =>
      refine .silent (by simp only [writerStep, hget]) h ?_
      simp only [writerStep, hget]
      exact hb.entry (.inr rfl) rfl (hs 0)
  | publish off value current => exact hb.commit h hw

/-- The entry under way meets no node, so lookups do not see the update. -/
theorem Behind.linked (h : AreaInv (pa.withData m₀) g) (hb : Behind m₀ m w)
    (hw : WriterInv g v k m w) : Linked m g := by
  have hrep : Rep m₀ g := h.rep
  cases hd : w.dirtyAt with
  | none =>
    obtain rfl := hb.clean hd
    exact ⟨hrep.children, hrep.prop, hrep.tree⟩
  | some off =>
    have hs := hb.dirty off hd
    have hso := hw.isShort_of_dirtyAt hd
    have hblock : ∀ b ∈ g.blocks, b.off ≠ off → SameOn m₀ m (b.off + 128) (b.stop + 128) := by
      intro b hmem hne
      rcases hso.disjoint h.wf hmem hne with hlt | hlt
      · exact hs _ _ (.inl (by omega))
      · exact hs _ _ (.inr (by omega))
    obtain ⟨n, e, he, rfl, -⟩ := hso
    have hentry := h.wf.entry_block n e he
    have hne : ∀ j, g.IsNode j → e.off ≠ j := fun j hj => h.wf.entry_ne_node hj hentry (by simp)
    have hnode : ∀ j, g.IsNode j → SameOn m₀ m (j + 128) (j + 148) := by
      intro j hj
      have hge := entryExtent_ge (joinDot (g.path n))
      rcases h.wf.node_block_apart hj hentry (hne j hj) with hlt | hlt
      · simp only [Block.stop, Obj.extent] at hlt
        exact hs _ _ (.inr (by omega))
      · exact hs _ _ (.inl (by simp only at hlt; omega))
    refine ⟨fun j hj => ?_, fun j hj => ?_, fun j => ?_⟩
    · rw [linkAt_congr (hnode j hj), hrep.children j hj]
    · rw [linkAt_congr (hnode j hj), hrep.prop j hj]
    · refine (hrep.tree j).congr (fun p hp hat => ?_) fun p hp => ?_
      · have hsame := hblock _ (h.wf.kid_block j p hp) (hne p.2 (h.wf.isNode_kid hp)).symm
        have hge := nodeExtent_ge p.1
        simp only [Block.stop, Obj.extent] at hsame
        exact hat.congr (hsame.mono le_rfl (by omega)) (hsame.mono (by omega) (by omega))
      · have hsame := hnode p.2 (h.wf.isNode_kid hp)
        exact ⟨linkAt_congr hsame, linkAt_congr hsame⟩

end Update

/-! ### After an `update` -/

/-- The entries when one of them has taken a new value. -/
theorem entries_revalue {g : Shape} {used used' n : ℕ} {e : Entry} {value : Bytes} {k : ℕ → ℕ} {m : Mem}
    (hw : g.Wf used) (hw' : (g.bindEntry n ⟨e.off, value⟩).Wf used') (he : g.entry n = some e)
    (hs : e.value.length < propValueMax) (hv : value.length < propValueMax)
    (h : WriterInv g (Function.update g.valueAt e.off value) k m .idle) :
    WriterInv (g.bindEntry n ⟨e.off, value⟩) (g.bindEntry n ⟨e.off, value⟩).valueAt k m .idle := by
  have hval : ∀ off, IsShort g off → (g.bindEntry n ⟨e.off, value⟩).valueAt off =
      Function.update g.valueAt e.off value off := by
    rintro off ⟨j, e', he', rfl, -⟩
    exact valueAt_revalue hw hw' he ⟨j, e', he', rfl⟩
  refine ⟨fun off hso => ?_, fun off hso hd => ?_, fun j e' he' hl => ?_, trivial⟩
  · rw [isShort_revalue he hs hv] at hso
    rw [hval off hso]
    exact h.good off hso
  · rw [isShort_revalue he hs hv] at hso
    rw [hval off hso]
    exact h.quiet off hso hd
  · have hj : j ≠ n := by
      rintro rfl
      have hself : (g.bindEntry j ⟨e.off, value⟩).entry j = some ⟨e.off, value⟩ :=
        Function.update_self _ _ _
      obtain rfl := Option.some.inj (hself.symm.trans he')
      exact absurd hl (by simp only; omega)
    exact h.long j e' ((Function.update_of_ne hj _ _).symm.trans he') hl

/-- The contents when one entry has taken a new value. -/
theorem follows_revalue {c c' : Contents} {used : ℕ} {n : ℕ} {e : Entry} {value : Bytes}
    (hw' : (c.shape.bindEntry n ⟨e.off, value⟩).Wf used) (he : c.shape.entry n = some e)
    (hs : e.value.length < propValueMax) (hv : value.length < propValueMax)
    (hc : c'.shape = c.shape.bindEntry n ⟨e.off, value⟩)
    (hk : c'.count = Function.update c.count e.off (c.count e.off + 2)) : c ≤ c' := by
  refine ⟨?_, fun off hso => ?_, fun off hso => ?_, fun off hso hcount => ?_, fun off v hl => ?_⟩
  · rw [hc]
    exact .revalue he value
  · rw [hc, isShort_revalue he hs hv]
    exact hso
  · rw [hk, Function.update_apply]
    split_ifs with ho
    · rw [ho]
      omega
    · exact le_rfl
  · have hne : off ≠ e.off := by
      rintro rfl
      rw [hk, Function.update_self] at hcount
      omega
    obtain ⟨j, e', he', rfl, -⟩ := hso
    rw [hc, valueAt_revalue c.wf hw' he ⟨j, e', he', rfl⟩, Function.update_of_ne hne]
  · rw [hc]
    exact isLong_revalue he hs hl

end Shared

end RsProperties
