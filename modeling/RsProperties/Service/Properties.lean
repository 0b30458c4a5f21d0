import RsProperties.Service.Handler
import RsProperties.Store.AllOrNothing

/-!
# The properties service

The actor that owns the store. `handle` processes one forwarded message: the name and value policy of
`wire.rs` first, then `set`; its reply is whether the property was set.
-/

namespace RsProperties

open ByteMem

namespace Service

/-- `PropertiesService::handle`: the reply and the store afterwards. -/
def handle (message : PropertyMessage) (sp : SystemProperties) : Bool × SystemProperties :=
  match validatePropertyName message.name.bytes with
  | .error _ => (false, sp)
  | .ok _ =>
    match validateValueLen message.name.bytes message.value.bytes with
    | .error _ => (false, sp)
    | .ok _ =>
      match SystemProperties.set message.name message.value sp with
      | .ok _ sp => (true, sp)
      | .error _ sp => (false, sp)

/-- A message inside the policy is decided by `set`. -/
theorem handle_of_valid {m : PropertyMessage} (hn : validatePropertyName m.name.bytes = .ok ())
    (hv : validateValueLen m.name.bytes m.value.bytes = .ok ()) (sp : SystemProperties) :
    handle m sp = (succeeded (SystemProperties.set m.name m.value sp),
      finalState (SystemProperties.set m.name m.value sp)) := by
  rw [handle, hn, hv]
  cases SystemProperties.set m.name m.value sp <;> rfl

section Effects

variable {m : PropertyMessage} {sp : SystemProperties}

/-- The two ways a message is processed: refused by the policy with the store untouched, or passed to
`set`, whose success is the reply. -/
theorem handle_cases (m : PropertyMessage) (sp : SystemProperties) :
    handle m sp = (false, sp) ∨
      handle m sp = (succeeded (SystemProperties.set m.name m.value sp),
        finalState (SystemProperties.set m.name m.value sp)) := by
  cases hn : validatePropertyName m.name.bytes with
  | error e => exact .inl (by rw [handle, hn])
  | ok _ =>
    cases hv : validateValueLen m.name.bytes m.value.bytes with
    | error e => exact .inl (by rw [handle, hn, hv])
    | ok _ => exact .inr (handle_of_valid hn hv sp)

theorem handle_allSound (hs : sp.AllSound) (m : PropertyMessage) : (handle m sp).2.AllSound := by
  rcases handle_cases m sp with h | h
  · rw [h]
    exact hs
  · rw [h]
    exact (hs.set_spec m.name m.value).allSound

/-- A refused message changes no value. -/
theorem handle_false (hs : sp.AllSound) (h : (handle m sp).1 = false) (name : Bytes) :
    (handle m sp).2.value name = sp.value name := by
  rcases handle_cases m sp with hc | hc
  · rw [hc]
  · have hspec := hs.set_spec m.name m.value
    rw [hc] at h ⊢
    generalize SystemProperties.set m.name m.value sp = res at hspec h ⊢
    cases hspec with
    | failed hr _ hp => exact value_congr hr (by rw [hp])
    | kept => cases h
    | written => cases h

/-- An applied message is what the name reads afterwards, and a read-only name had no value before. -/
theorem handle_true (hs : sp.AllSound) (h : (handle m sp).1 = true) :
    (handle m sp).2.value m.name.bytes = some m.value ∧
      (startsWithRo m.name.bytes = true → sp.value m.name.bytes = none) := by
  rcases handle_cases m sp with hc | hc
  · rw [hc] at h
    cases h
  · have hspec := hs.set_spec m.name m.value
    rw [hc] at h ⊢
    generalize SystemProperties.set m.name m.value sp = res at hspec h ⊢
    cases hspec with
    | failed => cases h
    | kept hk => exact hk.elim
    | written hr _ hv hold hp =>
      refine ⟨?_, fun hro => ?_⟩
      · exact value_written_self hr hv hp
      · rcases hold with hnone | ⟨-, hnot, -⟩
        · rw [SystemProperties.value_eq_peek, hnone]
          rfl
        · rw [hnot] at hro
          cases hro

/-- No message changes a read-only value. -/
theorem handle_ro (hs : sp.AllSound) (m : PropertyMessage) {name : Bytes} {w : Str}
    (hro : startsWithRo name = true) (hw : sp.value name = some w) :
    (handle m sp).2.value name = some w := by
  rcases handle_cases m sp with hc | hc
  · rw [hc, hw]
  · rw [hc]
    exact (hs.set_spec m.name m.value).ro_kept hro hw

end Effects

end Service

end RsProperties
