import RsProperties.PropertyArea.Find

/-!
# Writing entries

The stores that create an entry (`new_prop_info`) and the seqlock write that updates a short one
(`apply_write`, with the backup store before it), each brought to what it leaves in memory:
`EntryAt` for the entry concerned, and a frame for everything else.
-/

namespace RsProperties

open ByteMem StateExcept PropertyAreaMap

namespace PropertyInfo

variable {m : Mem} {a : ℕ}

/-- The long header stays inside the entry. -/
theorem sameOn_initWithLongOffset {rel x y : ℕ} (h : y ≤ a ∨ a + 64 ≤ x) :
    SameOn m (initWithLongOffset m a rel) x y := by
  have hlen : (errorBytesPadded longLegacyErrorBufferSize longLegacyError).length = 56 := by decide
  have h1 : SameOn (writeU32 m a (longLegacyError.length <<< 24 ||| longFlag)) m x y :=
    sameOn_writeU32 (by omega)
  refine (SameOn.trans ?_ h1).symm
  refine (sameOn_writeU32 ?_).trans (sameOn_writeBytes (by rw [hlen]; omega))
  rw [longLegacyErrorBufferSize]
  omega

/-- What the long header holds. -/
theorem initWithLongOffset_fields {rel : ℕ} (h : rel < 2 ^ 32) :
    serial (initWithLongOffset m a rel) a = longSerial ∧
    Holds (initWithLongOffset m a rel) (a + 4)
      (errorBytesPadded longLegacyErrorBufferSize longLegacyError) ∧
    readU32 (initWithLongOffset m a rel) (a + 4 + longLegacyErrorBufferSize) = rel := by
  have hlen : (errorBytesPadded longLegacyErrorBufferSize longLegacyError).length = 56 := by decide
  refine ⟨?_, ?_, readU32_writeU32_of_lt h⟩
  · rw [serial, initWithLongOffset, readU32_writeU32_of_disjoint (by omega),
      readU32_congr (sameOn_writeBytes (by omega))]
    exact readU32_writeU32_of_lt (by decide)
  · refine (holds_writeBytes _ _ _).congr (sameOn_writeU32 ?_).symm
    rw [hlen, longLegacyErrorBufferSize]
    omega

theorem writeValue_of_lt {value : Bytes} (h : value.length < propValueMax) :
    writeValue m a value = writeBytes m (a + 4) (value ++ [0]) := by
  have h' : min value.length (propValueMax - 1) = value.length := by
    rw [propValueMax] at h ⊢
    omega
  rw [writeValue, h', List.take_length]

/-- Storing a short value stays inside the slot. -/
theorem sameOn_writeValue {value : Bytes} (h : value.length < propValueMax) {x y : ℕ}
    (hxy : y ≤ a + 4 ∨ a + 96 ≤ x) : SameOn m (writeValue m a value) x y := by
  rw [writeValue_of_lt h]
  rw [propValueMax] at h
  refine (sameOn_writeBytes ?_).symm
  rw [List.length_append, List.length_singleton]
  omega

theorem sameOn_initWithValue {value : Bytes} (h : value.length < propValueMax) {x y : ℕ}
    (hxy : y ≤ a ∨ a + 96 ≤ x) : SameOn m (initWithValue m a value) x y :=
  (sameOn_writeU32 (by omega)).symm.trans (sameOn_writeValue h (by omega))

theorem initWithValue_fields {value : Bytes} (h : value.length < propValueMax) :
    CleanSerial (serial (initWithValue m a value) a) value.length ∧
    Holds (initWithValue m a value) (a + 4) (value ++ [0]) := by
  have h91 : min value.length (propValueMax - 1) = value.length := by
    rw [propValueMax] at h ⊢
    omega
  refine ⟨?_, ?_⟩
  · have hs : serial (initWithValue m a value) a = value.length <<< 24 := by
      rw [serial, initWithValue, ← readU32_congr (sameOn_writeValue h (.inl le_rfl)), h91]
      refine readU32_writeU32_of_lt ?_
      rw [Nat.shiftLeft_eq]
      rw [propValueMax] at h
      omega
    rw [hs]
    exact initSerial_clean
  · rw [initWithValue, writeValue_of_lt h]
    exact holds_writeBytes _ _ _

end PropertyInfo

/-! ### A new entry -/

section NewPropInfo

variable {pa : PropertyAreaMap} {name value : Bytes}

/-- The name stored last completes an entry whose header and value are in place. -/
private theorem entryAt_of_named {m : Mem} {off : ℕ}
    (hshort : value.length < propValueMax →
      PropertyInfo.CleanSerial (PropertyInfo.serial m (off + 128)) value.length ∧
        Holds m (off + 128 + 4) (value ++ [0]))
    (hlong : propValueMax ≤ value.length → PropertyInfo.serial m (off + 128) = longSerial ∧
      Holds m (off + 128 + 4)
        (PropertyInfo.errorBytesPadded longLegacyErrorBufferSize longLegacyError) ∧
      readU32 m (off + 128 + 4 + longLegacyErrorBufferSize) = entryExtent name ∧
      Holds m (off + entryExtent name + 128) (value ++ [0])) :
    EntryAt (writeBytes m (off + 96 + 128) (name ++ [0])) off name value := by
  have hge := entryExtent_ge name
  have hsame : ∀ x y, y ≤ off + 96 + 128 ∨ off + 96 + 128 + name.length + 1 ≤ x →
      SameOn m (writeBytes m (off + 96 + 128) (name ++ [0])) x y := fun x y hxy =>
    (sameOn_writeBytes (by rw [List.length_append, List.length_singleton]; omega)).symm
  have hser : PropertyInfo.serial (writeBytes m (off + 96 + 128) (name ++ [0])) (off + 128) =
      PropertyInfo.serial m (off + 128) := (readU32_congr (hsame _ _ (by omega))).symm
  refine ⟨holds_writeBytes _ _ _, fun hv => ?_, fun hv => ?_⟩
  · obtain ⟨h1, h2⟩ := hshort hv
    rw [propValueMax] at hv
    refine ⟨hser ▸ h1, h2.congr (hsame _ _ ?_)⟩
    rw [List.length_append, List.length_singleton]
    omega
  · obtain ⟨h1, h2, h3, h4⟩ := hlong hv
    have hlen : (PropertyInfo.errorBytesPadded longLegacyErrorBufferSize
      longLegacyError).length = 56 := by decide
    refine ⟨hser.trans h1, h2.congr (hsame _ _ (by rw [hlen]; omega)), ?_,
      h4.congr (hsame _ _ (by omega))⟩
    rw [← h3]
    refine (readU32_congr (hsame _ _ ?_)).symm
    rw [longLegacyErrorBufferSize]
    omega

/-- The in-line branch on a freshly allocated entry. -/
private theorem writeShortValue_run (h : pa.Basic) (value : Bytes) {off : ℕ} (hm : off % 4 = 0)
    (hb : off + 96 ≤ 130944) : writeShortValue off value pa =
      .ok () (pa.withData (PropertyInfo.initWithValue pa.mmap.data (off + 128) value)) := by
  rw [writeShortValue, bind_ok (look_ok (propertyInfoMut_eq_ok h hm hb))]
  rfl

/-- The out-of-line branch on a freshly allocated entry that ends at `bytes_used`. -/
private theorem writeLongValue_spec (h : pa.Basic) (value : Bytes) {off : ℕ} (hm : off % 4 = 0)
    (hb : off + 96 ≤ pa.bytesUsed) :
    (∃ e : Error, AllocFailure e pa.bytesUsed (longExtent value) ∧
      writeLongValue off value pa = .error e pa) ∨
    (∃ pa', Grown pa pa' (pa.bytesUsed + longExtent value) ∧
      writeLongValue off value pa = .ok () (pa'.withData (PropertyInfo.initWithLongOffset
        pa'.mmap.data (off + 128) (pa.bytesUsed - off))) ∧
      Holds pa'.mmap.data (pa.bytesUsed + 128) (value ++ [0])) := by
  rcases allocateObj_spec h (value.length + 1) with ⟨e, he, hr⟩ | ⟨hfit, hr⟩
  · exact .inl ⟨e, he, by rw [writeLongValue, bind_error hr]⟩
  refine .inr ?_
  have hg := allocateObj_grown h hfit
  generalize pa.withData (writeU32 pa.mmap.data 0
    (pa.bytesUsed + bionicAlign (value.length + 1) 4)) = pa1 at hr hg
  have hge := longExtent_ge value
  have hlx : longExtent value = bionicAlign (value.length + 1) 4 := rfl
  have hhigh := h.used_high
  have hd : pa1.mmap.dataMut pa.bytesUsed pa1.dataOffset (value.length + 1) =
      .ok (pa.bytesUsed + 128) := by
    rw [hg.basic.dataOffset]
    exact MemoryMap.dataMut_eq_ok hg.basic.writable hg.basic.size_le (by rw [hg.basic.size]; omega)
  have hg2 := hg.store (sameOn_writeBytes (.inl le_rfl)).symm
    (m := writeBytes pa1.mmap.data (pa.bytesUsed + 128) (value ++ [0]))
  have hobj := propertyInfoMut_eq_ok hg2.basic hm (by omega)
  refine ⟨_, hg2, ?_, holds_writeBytes _ _ _⟩
  rw [writeLongValue, bind_ok hr, bind_ok (look_ok hd), bind_ok (modifyData_run _ _),
    if_neg (by omega), bind_ok (look_ok hobj)]
  rfl

/-- The trailing name of a freshly allocated entry. -/
private theorem nameEntry_run {pa' : PropertyAreaMap} {used : ℕ} (hg : Grown pa pa' used)
    (name : Bytes) (hb : pa.bytesUsed + 96 + name.length + 1 ≤ 130944) :
    writeTrailingName pa.bytesUsed propertyInfoSize name pa' = .ok () (pa'.withData
      (writeBytes pa'.mmap.data (pa.bytesUsed + 96 + 128) (name ++ [0]))) ∧
    Grown pa (pa'.withData
      (writeBytes pa'.mmap.data (pa.bytesUsed + 96 + 128) (name ++ [0]))) used := by
  refine ⟨writeTrailingName_run hg.basic pa.bytesUsed propertyInfoSize name hb, hg.store ?_⟩
  exact (sameOn_writeBytes (.inl (by omega))).symm

/-- **`new_prop_info`** fails without a trace, or leaves only its entry block allocated when the
long value does not fit, or leaves an unlinked entry at the old `bytes_used`. -/
theorem newPropInfo_spec (h : pa.Basic) (name value : Bytes) :
    (∃ e : Error, AllocFailure e pa.bytesUsed (entryExtent name) ∧
      newPropInfo name value pa = .error e pa) ∨
    (propValueMax ≤ value.length ∧ ∃ (e : Error) (pa' : PropertyAreaMap),
      AllocFailure e (pa.bytesUsed + entryExtent name) (longExtent value) ∧
      newPropInfo name value pa = .error e pa' ∧
      Grown pa pa' (pa.bytesUsed + entryExtent name)) ∨
    (∃ pa', newPropInfo name value pa = .ok pa.bytesUsed pa' ∧
      Grown pa pa' (pa.bytesUsed + entryExtent name +
        if propValueMax ≤ value.length then longExtent value else 0) ∧
      EntryAt pa'.mmap.data pa.bytesUsed name value) := by
  rcases allocateObj_spec h (propertyInfoSize + name.length + 1) with ⟨e, he, hr⟩ | ⟨hfit, hr⟩
  · exact .inl ⟨e, he, by rw [newPropInfo, bind_error hr]⟩
  refine .inr ?_
  have hg := allocateObj_grown h hfit
  have hex : entryExtent name = bionicAlign (propertyInfoSize + name.length + 1) 4 := rfl
  have hge := entryExtent_ge name
  have hmod := h.used_mod
  rw [← hex] at hg hr hfit
  generalize pa.withData (writeU32 pa.mmap.data 0 (pa.bytesUsed + entryExtent name)) = pa1 at hr hg
  have hused := hg.used_eq
  by_cases hv : value.length ≥ propValueMax
  · rcases writeLongValue_spec hg.basic value hmod (by omega) with
      ⟨e, he, hlong⟩ | ⟨pa2, hg2, hlong, hval⟩
    · refine .inl ⟨hv, e, pa1, hused ▸ he, ?_, hg⟩
      rw [newPropInfo, bind_ok hr, if_pos hv, bind_error hlong]
    refine .inr ?_
    rw [hused] at hg2 hval
    have hhigh : pa.bytesUsed + entryExtent name + longExtent value ≤ 130944 :=
      hg2.used_eq ▸ hg2.basic.used_high
    have hrel : pa1.bytesUsed - pa.bytesUsed = entryExtent name := by omega
    rw [hrel] at hlong
    have hgh := (hg.trans hg2).store (PropertyInfo.sameOn_initWithLongOffset (.inl le_rfl))
      (m := PropertyInfo.initWithLongOffset pa2.mmap.data (pa.bytesUsed + 128) (entryExtent name))
    obtain ⟨hname, hgn⟩ := nameEntry_run hgh name (by omega)
    rw [if_pos hv]
    refine ⟨_, ?_, hgn, ?_⟩
    · rw [newPropInfo, bind_ok hr, if_pos hv, bind_ok hlong]
      exact bind_ok hname
    · refine entryAt_of_named (fun hs => by omega) fun _ => ?_
      obtain ⟨h1, h2, h3⟩ := PropertyInfo.initWithLongOffset_fields
        (m := pa2.mmap.data) (a := pa.bytesUsed + 128) (show entryExtent name < 2 ^ 32 by omega)
      exact ⟨h1, h2, h3, hval.congr (PropertyInfo.sameOn_initWithLongOffset (.inr (by omega)))⟩
  · refine .inr ?_
    have hv' : value.length < propValueMax := by omega
    have hrun := writeShortValue_run hg.basic value hmod (by omega)
    have hgh := hg.store (PropertyInfo.sameOn_initWithValue hv' (.inl le_rfl))
      (m := PropertyInfo.initWithValue pa1.mmap.data (pa.bytesUsed + 128) value)
    obtain ⟨hname, hgn⟩ := nameEntry_run hgh name (by omega)
    rw [if_neg (show ¬ propValueMax ≤ value.length by omega), Nat.add_zero]
    refine ⟨_, ?_, hgn, ?_⟩
    · rw [newPropInfo, bind_ok hr, if_neg hv, bind_ok hrun]
      exact bind_ok hname
    · exact entryAt_of_named (fun _ => PropertyInfo.initWithValue_fields hv') fun hl => by omega

end NewPropInfo

end RsProperties
