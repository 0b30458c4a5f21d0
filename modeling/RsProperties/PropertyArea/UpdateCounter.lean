import RsProperties.PropertyArea.PropertyInfo

/-!
# The update counter of an entry

The serial of a short entry counts its updates in bits 0 to 23, without bit 16. `apply_write` computes
the increment on the whole word and masks it afterwards, so the carry into bit 16 is lost and the bits
above it never change: the counter repeats after `2 ^ 15` updates.
-/

namespace RsProperties

open ByteMem

namespace PropertyInfo

/-- Updates of one entry, one after another. -/
def applyWrites (m : Mem) (a : ℕ) : List Bytes → Except Error Mem
  | [] => .ok m
  | value :: values =>
    match applyWrite m a value with
    | .error e => .error e
    | .ok (_, m) => applyWrites m a values

/-- The word after a write is the serial it returned. -/
theorem serial_applyWrite {m m' : Mem} {a s : ℕ} {value : Bytes}
    (h : applyWrite m a value = .ok (s, m')) :
    s = nextSerial value.length (serial m a) ∧ serial m' a = s ∧ serial m a &&& longFlag = 0 := by
  simp only [applyWrite] at h
  split_ifs at h with hlong hlen
  cases h
  have hmax : propValueMax = 92 := rfl
  exact ⟨rfl, readU32_writeU32_of_lt (nextSerial_lt (by omega)), by simpa using hlong⟩

theorem applyWrite_ok {m : Mem} {a : ℕ} {value : Bytes} (hlong : serial m a &&& longFlag = 0)
    (hlen : value.length < propValueMax) : ∃ s m', applyWrite m a value = .ok (s, m') := by
  simp only [applyWrite]
  rw [if_neg (by simpa using hlong), if_neg (by omega)]
  exact ⟨_, _, rfl⟩

/-- A clean short serial, whatever length it declares. -/
theorem cleanSerial_of {s : ℕ} (hdirty : serialDirty s = false) (hlong : s &&& longFlag = 0) :
    CleanSerial s (s / 2 ^ 24) := by
  rw [serialDirty_eq, decide_eq_false_iff_not] at hdirty
  rw [and_longFlag] at hlong
  exact ⟨by omega, by omega, rfl⟩

/-- After `n` updates the counter stands `2 * n` further in its low part, and as before in its high
part. -/
theorem applyWrites_counter {m m' : Mem} {a : ℕ} {values : List Bytes}
    (hdirty : serialDirty (serial m a) = false) (hlong : serial m a &&& longFlag = 0)
    (h : applyWrites m a values = .ok m') :
    serial m' a % 2 ^ 16 = (serial m a + 2 * values.length) % 2 ^ 16 ∧
      serial m' a / 2 ^ 17 % 2 ^ 7 = serial m a / 2 ^ 17 % 2 ^ 7 := by
  induction values generalizing m with
  | nil =>
    cases h
    simp
  | cons value values ih =>
    rw [applyWrites] at h
    cases hw : applyWrite m a value with
    | error e =>
      rw [hw] at h
      cases h
    | ok r =>
      obtain ⟨s, m₁⟩ := r
      rw [hw] at h
      obtain ⟨rfl, hs, -⟩ := serial_applyWrite hw
      have hclean := cleanSerial_of hdirty hlong
      have hnext := nextSerial_clean hclean value.length
      obtain ⟨hlow, hhigh⟩ := ih (hs ▸ hnext.not_dirty) (hs ▸ hnext.not_long) h
      have h1 := nextSerial_low hclean value.length
      have h2 := nextSerial_high hclean value.length
      rw [hs] at hlow hhigh
      rw [List.length_cons]
      omega

theorem applyWrites_ok {m : Mem} {a : ℕ} {values : List Bytes}
    (hdirty : serialDirty (serial m a) = false) (hlong : serial m a &&& longFlag = 0)
    (hvalues : ∀ v ∈ values, v.length < propValueMax) : ∃ m', applyWrites m a values = .ok m' := by
  induction values generalizing m with
  | nil => exact ⟨m, rfl⟩
  | cons value values ih =>
    obtain ⟨s, m₁, hw⟩ := applyWrite_ok hlong (hvalues value List.mem_cons_self)
    obtain ⟨rfl, hs, -⟩ := serial_applyWrite hw
    have hnext := nextSerial_clean (cleanSerial_of hdirty hlong) value.length
    obtain ⟨m', hm'⟩ := @ih m₁ (hs ▸ hnext.not_dirty) (hs ▸ hnext.not_long)
      fun v hv => hvalues v (List.mem_cons_of_mem _ hv)
    exact ⟨m', by rw [applyWrites, hw]; exact hm'⟩

/-- **The counter repeats after `2 ^ 15` updates.** From a clean short serial, the counter bits after a
sequence of updates differ from those at its start exactly if its length is no multiple of `2 ^ 15`. -/
theorem applyWrites_counter_ne_iff {m m' : Mem} {a : ℕ} {values : List Bytes}
    (hdirty : serialDirty (serial m a) = false) (hlong : serial m a &&& longFlag = 0)
    (h : applyWrites m a values = .ok m') :
    serial m' a &&& serialCounterMask ≠ serial m a &&& serialCounterMask ↔
      ¬ 2 ^ 15 ∣ values.length := by
  obtain ⟨hlow, hhigh⟩ := applyWrites_counter hdirty hlong h
  rw [and_serialCounterMask, and_serialCounterMask]
  omega

theorem applyWrites_counter_ne_iff_single :
    ∃ m', applyWrites (fun _ => 0) 0 [ascii "1"] = .ok m' ∧
      serial m' 0 &&& serialCounterMask ≠ 0 := by
  obtain ⟨m', h⟩ := @applyWrites_ok (fun _ => 0) 0 [ascii "1"] (by decide) (by decide) (by decide)
  exact ⟨m', h, (applyWrites_counter_ne_iff (by decide) (by decide) h).mpr (by decide)⟩

/-- The counter does not use the bits above `longFlag`: `2 ^ 15` updates of a fresh entry bring it
back, although the mask leaves room for `2 ^ 22`. -/
theorem applyWrites_counter_repeats :
    ¬ ∀ (m m' : Mem) (a : ℕ) (values : List Bytes), serialDirty (serial m a) = false →
      serial m a &&& longFlag = 0 → 1 ≤ values.length → values.length < 2 ^ 22 →
      applyWrites m a values = .ok m' →
      serial m' a &&& serialCounterMask ≠ serial m a &&& serialCounterMask := by
  intro hall
  have hvalues : ∀ v ∈ List.replicate (2 ^ 15) ([] : Bytes), v.length < propValueMax := by
    intro v hv
    rw [List.eq_of_mem_replicate hv]
    decide
  have hlen : (List.replicate (2 ^ 15) ([] : Bytes)).length = 2 ^ 15 := List.length_replicate
  obtain ⟨m', h⟩ := @applyWrites_ok (fun _ => 0) 0 _ (by decide) (by decide) hvalues
  obtain ⟨hlow, hhigh⟩ := applyWrites_counter (by decide) (by decide) h
  refine hall _ m' 0 _ (by decide) (by decide) (by omega) (by omega) h ?_
  rw [and_serialCounterMask, and_serialCounterMask]
  omega

end PropertyInfo

end RsProperties
