import RsProperties.Shared.Gets

/-!
# A reader left alone

The writer may stop anywhere, in the middle of an `add` or with an entry dirty: a reader that is left alone
from there finishes its get, and what it returns is what `get_with_result` computes from the memory as it
stands (`goes_get`). It takes one more iteration at most, since the serial does not move any more, and the
bytes of a dirty entry come from the backup.
-/

namespace RsProperties

open ByteMem StateExcept PropertyAreaMap PropertyInfo Process Publish
open Seqlock (backupLen slotByte backupByte)

namespace Shared

variable {s s' : State} {x : Event} {i off ser : ℕ} {name : Bytes} {g g' : Getting}

def State.setReader (s : State) (i : ℕ) (g : Getting) : State :=
  { s with reader := Function.update s.reader i g }

@[simp] theorem setReader_self : (s.setReader i g).reader i = g := Function.update_self _ _ _

@[simp] theorem setReader_setReader : (s.setReader i g).setReader i g' = s.setReader i g' := by
  rw [State.setReader, State.setReader, Function.update_idem]
  rfl

/-- The events of a get between its call and its return. -/
def Inner (i : ℕ) (x : Event) : Prop :=
  x = .tau ∨ (∃ off, x = .load i off) ∨ ∃ off, x = .agreed i off

/-- A step of the reader inside a get: it changes nothing but its control state. -/
def StepOf (i : ℕ) (s : State) (x : Event) (s' : State) : Prop :=
  Step s x s' ∧ Inner i x ∧ ∃ g, s' = s.setReader i g

/-- The runs of the reader alone. -/
abbrev RunOf (i : ℕ) (s : State) : List Event → State → Prop := Trace.Run (· = s) (StepOf i)

/-- Left alone, the reader gets to the control state. -/
def Goes (i : ℕ) (s : State) (g : Getting) : Prop := ∃ L, RunOf i s L (s.setReader i g)

theorem Goes.here (h : s.reader i = g) : Goes i s g := by
  refine ⟨[], .start ?_⟩
  rw [← h, State.setReader, Function.update_eq_self]

theorem Goes.head (hs : StepOf i s x (s.setReader i g)) (h : Goes i (s.setReader i g) g') : Goes i s g' := by
  obtain ⟨L, hL⟩ := h
  rw [setReader_setReader] at hL
  have hstart : RunOf i s [] s := .start rfl
  exact ⟨_, (hstart.snoc hs).append hL⟩

/-! ### The read -/

section Read

variable {long : Option Bytes} {buf : Bytes}

/-- A step of `read_with_callback`. -/
theorem step_read {rd : Seqlock.Reader} (hr : s.reader i = .reading name rd)
    (h : readStep s.mem i name rd = (g, x)) : StepOf i s x (s.setReader i g) := by
  have hs := Step.read hr
  have hx := readStep_event s.mem i name rd
  rw [h] at hs hx
  exact ⟨hs, hx, g, rfl⟩

/-- The copy of the backup. -/
theorem goes_copy (hr : s.reader i = .reading name (.copy off long ser buf))
    (hlt : buf.length < backupLen ser) : Goes i s (.reading name
      (.check off long ser (buf ++ slice s.mem (148 + buf.length) (backupLen ser - buf.length)))) := by
  obtain ⟨k, hk⟩ : ∃ k, backupLen ser - buf.length = k + 1 := ⟨backupLen ser - buf.length - 1, by omega⟩
  induction k generalizing s buf with
  | zero =>
    have hstep : readStep s.mem i name (.copy off long ser buf) =
        (.reading name (.check off long ser (buf ++ [backupByte s.mem buf.length])), .tau) := by
      simp only [readStep, Seqlock.readerStep, List.length_append, List.length_singleton]
      rw [if_neg (by omega)]
    refine Goes.head (step_read hr hstep) (.here ?_)
    rw [setReader_self, hk, slice_succ]
    rfl
  | succ k ih =>
    have hstep : readStep s.mem i name (.copy off long ser buf) =
        (.reading name (.copy off long ser (buf ++ [backupByte s.mem buf.length])), .tau) := by
      simp only [readStep, Seqlock.readerStep, List.length_append, List.length_singleton]
      rw [if_pos (by omega)]
    refine Goes.head (step_read hr hstep) ?_
    have hlen : (buf ++ [backupByte s.mem buf.length]).length = buf.length + 1 := by simp
    have hnext := ih (s := s.setReader i
      (.reading name (.copy off long ser (buf ++ [backupByte s.mem buf.length])))) setReader_self
      (by rw [hlen]; omega) (by rw [hlen]; omega)
    have hrest : backupLen ser - (buf.length + 1) = k + 1 := by omega
    rw [hlen, hrest, List.append_assoc] at hnext
    rw [hk, slice_succ]
    exact hnext

/-- The scan ends at a NUL. -/
theorem goes_scan_nul (hr : s.reader i = .reading name (.scan off ser buf))
    (hb : slotByte s.mem off buf.length = 0) :
    Goes i s (.reading name (.check off none ser buf)) := by
  have hstep : readStep s.mem i name (.scan off ser buf) =
      (.reading name (.check off none ser buf), .tau) := by
    simp only [readStep, Seqlock.readerStep]
    rw [if_pos hb]
  exact Goes.head (step_read hr hstep) (.here setReader_self)

/-- The scan of the value slot. -/
theorem goes_scan (hr : s.reader i = .reading name (.scan off ser buf))
    (hlt : buf.length < propValueMax) : Goes i s (.reading name (.check off none ser
      (buf ++ scan s.mem (off + 132 + buf.length) (propValueMax - buf.length)))) := by
  obtain ⟨k, hk⟩ : ∃ k, propValueMax - buf.length = k + 1 := ⟨propValueMax - buf.length - 1, by omega⟩
  induction k generalizing s buf with
  | zero =>
    rw [hk, scan]
    by_cases hb : slotByte s.mem off buf.length = 0
    · have hnul := goes_scan_nul hr hb
      rw [slotByte] at hb
      rwa [if_pos hb, List.append_nil]
    · -- the slot is full
      have hstep : readStep s.mem i name (.scan off ser buf) =
          (.reading name (.check off none ser (buf ++ [slotByte s.mem off buf.length])), .tau) := by
        simp only [readStep, Seqlock.readerStep]
        rw [if_neg hb, if_neg (by omega)]
      rw [slotByte] at hb
      rw [if_neg hb]
      exact Goes.head (step_read hr hstep) (.here setReader_self)
  | succ k ih =>
    rw [hk, scan]
    by_cases hb : slotByte s.mem off buf.length = 0
    · have hnul := goes_scan_nul hr hb
      rw [slotByte] at hb
      rwa [if_pos hb, List.append_nil]
    · have hstep : readStep s.mem i name (.scan off ser buf) =
          (.reading name (.scan off ser (buf ++ [slotByte s.mem off buf.length])), .tau) := by
        simp only [readStep, Seqlock.readerStep]
        rw [if_neg hb, if_pos (by omega)]
      have hlen : (buf ++ [slotByte s.mem off buf.length]).length = buf.length + 1 := by simp
      have hnext := ih (s := s.setReader i
        (.reading name (.scan off ser (buf ++ [slotByte s.mem off buf.length])))) setReader_self
        (by rw [hlen]; omega) (by rw [hlen]; omega)
      have hrest : propValueMax - (buf.length + 1) = k + 1 := by omega
      rw [hlen, hrest, List.append_assoc] at hnext
      rw [slotByte] at hb
      rw [if_neg hb]
      exact Goes.head (step_read hr hstep) hnext

/-- What the callback makes of the bytes. -/
def decoded (bs : Bytes) : Except Error Str :=
  match fromUtf8 bs with
  | some str => .ok str
  | none => .error .utf8

/-- The bytes an iteration gathers when nothing changes. -/
def gathered (m : Mem) (off : ℕ) (long : Option Bytes) : Bytes :=
  if serialDirty (serial m (off + 128)) then slice m 148 (backupLen (serial m (off + 128)))
  else long.getD (shortValueBytes m (off + 128))

/-- The second load, when the serial is as it was. -/
theorem goes_check (hr : s.reader i = .reading name (.check off long ser buf))
    (hser : serial s.mem (off + 128) = ser) : Goes i s (.done name (decoded buf)) := by
  have hstep : readStep s.mem i name (.check off long ser buf) =
      (.done name (decoded buf), .agreed i off) := by
    rw [readStep, if_pos hser, decoded]
    cases fromUtf8 buf <;> rfl
  exact Goes.head (step_read hr hstep) (.here setReader_self)

theorem Goes.trans (h : Goes i s g) (h' : Goes i (s.setReader i g) g') : Goes i s g' := by
  obtain ⟨L, hL⟩ := h
  obtain ⟨L', hL'⟩ := h'
  rw [setReader_setReader] at hL'
  exact ⟨L ++ L', hL.append hL'⟩

/-- **One iteration is enough.** -/
theorem goes_load (hr : s.reader i = .reading name (.load off long)) :
    Goes i s (.done name (decoded (gathered s.mem off long))) := by
  refine Goes.head (step_read hr rfl) ?_
  rw [gathered, Seqlock.afterLoad.eq_def]
  split_ifs with hd h0
  · -- dirty, with nothing to copy
    rw [h0]
    exact goes_check setReader_self rfl
  · have hcopy := goes_copy (s := s.setReader i (.reading name
      (.copy off long (serial s.mem (off + 128)) []))) setReader_self (Nat.pos_of_ne_zero h0)
    exact hcopy.trans (goes_check setReader_self rfl)
  · cases long with
    | some bytes => exact goes_check setReader_self rfl
    | none =>
      have hscan := goes_scan (s := s.setReader i (.reading name
        (.scan off (serial s.mem (off + 128)) []))) setReader_self (by decide)
      exact hscan.trans (goes_check setReader_self rfl)

/-- What a read makes of the memory as it stands. -/
def readAlone (m : Mem) (off : ℕ) : Except Error Str := do
  let long ← if isLong m (off + 128) then some <$> (readerMap.withData m).longPropertyValue off
    else .ok none
  decoded (gathered m off long)

/-- It is `read_with_callback`. -/
theorem readWithCallback_eq_readAlone (m : Mem)
    (hinfo : readerMap.propertyInfo off = .ok (off + 128)) :
    (readerMap.withData m).readWithCallback off = readAlone m off := by
  have hinfo' : (readerMap.withData m).propertyInfo off = .ok (off + 128) := hinfo
  -- the loop, behind the resolution of the long bytes
  have hloop : ∀ long : Option Bytes, (do
      let bytes ← if serialDirty (serial m (off + 128)) then
          (readerMap.withData m).readDirtyBackup
            (min (serial m (off + 128) >>> 24) (propValueMax - 1))
        else long.elim (.ok (shortValueBytes m (off + 128))) .ok
      decoded bytes) = decoded (gathered m off long) := by
    intro long
    rw [gathered]
    split_ifs with hd
    · have hlt : min (serial m (off + 128) >>> 24) (propValueMax - 1) < 92 := by
        rw [propValueMax]
        omega
      rw [readDirtyBackup_eq hlt]
      rfl
    · cases long <;> rfl
  rw [PropertyAreaMap.readWithCallback, readAlone, except_bind_ok hinfo', withData_data]
  simp only [← hloop]
  split_ifs
  all_goals
    refine bind_congr fun long => ?_
    cases long <;> rfl

/-- **A read left alone.** -/
theorem goes_start (hr : s.reader i = .reading name (.start off)) :
    Goes i s (.done name (readAlone s.mem off)) := by
  rw [readAlone]
  by_cases hlong : isLong s.mem (off + 128) = true
  · rw [if_pos hlong]
    cases hv : (readerMap.withData s.mem).longPropertyValue off with
    | ok bytes =>
      have hstep : readStep s.mem i name (.start off) =
          (.reading name (.load off (some bytes)), .tau) := by
        rw [readStep, if_pos hlong, hv]
      exact Goes.head (step_read hr hstep) (goes_load setReader_self)
    | error e =>
      have hstep : readStep s.mem i name (.start off) = (.done name (.error e), .tau) := by
        rw [readStep, if_pos hlong, hv]
      exact Goes.head (step_read hr hstep) (.here setReader_self)
  · have hstep : readStep s.mem i name (.start off) = (.reading name (.load off none), .tau) := by
      rw [readStep, if_neg hlong]
    rw [if_neg hlong]
    exact Goes.head (step_read hr hstep) (goes_load setReader_self)

end Read

/-! ### The get -/

section Get

variable {c : Contents} {p : Process Access Access.Ans (Except Error ℕ)}

/-- A lookup left alone ends as it ends undisturbed. -/
theorem goes_find (hl : Linked s.mem c.shape) (hr : s.reader i = .finding name p)
    (hobs : Observes Access.act Skeletal (fun k => Found name k.shape) ⟨c.toPublished⟩ p) :
    Goes i s (.finding name (.done (Process.run Access.act p s.mem).1)) := by
  induction p generalizing s with
  | done r => exact .here hr
  | perform o next ih =>
    obtain ⟨hmem, hnext⟩ := hobs.step (show Skeletal ⟨c.toPublished⟩ s.mem from hl)
    have hs : StepOf i s .tau (s.setReader i (.finding name (next (o.act s.mem).1))) := by
      have hlook := Step.look hr
      rw [hmem] at hlook
      exact ⟨hlook, .inl rfl, _, rfl⟩
    have hrest := ih _ (s := s.setReader i (.finding name (next (o.act s.mem).1))) hl setReader_self
      hnext
    rw [Process.run, hmem]
    exact Goes.head hs hrest

/-- What `read_with` does with the result of the lookup. -/
theorem goes_found {r : Except Error ℕ} (hr : s.reader i = .finding name (.done r))
    (hf : Found name c.shape r) : Goes i s (.done name (do
      let off ← r
      (readerMap.withData s.mem).readWithCallback off)) := by
  refine Goes.head ⟨Step.found hr, .inl rfl, _, rfl⟩ ?_
  cases r with
  | error e => exact .here setReader_self
  | ok off =>
    have hinfo : readerMap.propertyInfo off = .ok (off + 128) := BoundAt.propertyInfo (c := c) hf
    have hafter : afterFind name (.ok off) = .reading name (.start off) := by
      rw [afterFind, hinfo]
    have hself : (s.setReader i (afterFind name (.ok off))).reader i = .reading name (.start off) :=
      setReader_self.trans hafter
    rw [except_bind_ok rfl, readWithCallback_eq_readAlone s.mem hinfo]
    exact goes_start hself

/-- **A get left alone** is `get_with_result` on the memory as it stands. -/
theorem goes_get (h : World c s)
    (hr : s.reader i = .finding name (Publish.find readerMap name).run) :
    Goes i s (.done name (getAlone s.mem name)) := by
  have hobs := observes_find sized_readerMap ⟨c.toPublished⟩ name
  have halone := @find_alone readerMap s.mem name
  have hf := (hobs.run (show Skeletal ⟨c.toPublished⟩ s.mem from h.linked)).1
  have hfind := goes_find h.linked hr hobs
  change Process.run Access.act (Publish.find readerMap name).run s.mem = _ at halone
  rw [halone] at hfind hf
  exact hfind.trans (goes_found setReader_self hf)

end Get

/-! ### Gets under way -/

/-- A read that has begun is inside its loop. -/
def Live : Getting → Prop
  | .reading _ rd => rd ≠ .idle ∧ rd ≠ .called
  | _ => True

theorem live_afterFind (name : Bytes) (r : Except Error ℕ) : Live (afterFind name r) := by
  cases r with
  | error e => trivial
  | ok off =>
    rw [afterFind]
    split
    · exact ⟨by simp, by simp⟩
    · trivial

theorem live_readStep {rd : Seqlock.Reader} (m : Mem) (h : rd ≠ .idle ∧ rd ≠ .called) :
    Live (readStep m i name rd).1 := by
  cases rd with
  | idle => exact absurd rfl h.1
  | called => exact absurd rfl h.2
  | start off =>
    simp only [readStep]
    split_ifs
    · split
      · exact ⟨by simp, by simp⟩
      · trivial
    · exact ⟨by simp, by simp⟩
  | load off long =>
    simp only [readStep, Seqlock.afterLoad.eq_def]
    split_ifs
    · exact ⟨by simp, by simp⟩
    · exact ⟨by simp, by simp⟩
    · cases long <;> exact ⟨by simp, by simp⟩
  | copy off long ser buf =>
    simp only [readStep, Seqlock.readerStep]
    split_ifs <;> exact ⟨by simp, by simp⟩
  | scan off ser buf =>
    simp only [readStep, Seqlock.readerStep]
    split_ifs <;> exact ⟨by simp, by simp⟩
  | check off long ser buf =>
    simp only [readStep]
    split_ifs
    · split <;> trivial
    · exact ⟨by simp, by simp⟩

/-- Every reader of every run is idle or inside a get. -/
theorem Run.live {H : List Event} (h : Run H s) (i : ℕ) : Live (s.reader i) := by
  induction h with
  | start hs =>
    rw [hs.2.2.2 i]
    trivial
  | @snoc H s s' x _ hs ih =>
    have set : ∀ j g, (i = j → Live g) → Live (Function.update s.reader j g i) := by
      intro j g hg
      rw [Function.update_apply]
      split_ifs with hj
      · exact hg hj
      · exact ih
    cases hs with
    | add => exact ih
    | store => exact ih
    | added => exact ih
    | update => exact ih
    | write => exact ih
    | get => exact set _ _ fun _ => trivial
    | look => exact set _ _ fun _ => trivial
    | found => exact set _ _ fun _ => live_afterFind _ _
    | @read j name rd hr =>
      refine set _ _ fun hj => ?_
      subst hj
      rw [hr] at ih
      exact live_readStep _ ih
    | got => exact set _ _ fun _ => trivial

/-- A read under way that is left alone ends. -/
theorem goes_reading {rd : Seqlock.Reader} (hr : s.reader i = .reading name rd)
    (hlive : rd ≠ .idle ∧ rd ≠ .called) : ∃ r, Goes i s (.done name r) := by
  -- from a second load: the read ends there, or in the next iteration
  have check : ∀ off long ser buf, ∃ r,
      Goes i (s.setReader i (.reading name (.check off long ser buf))) (.done name r) := by
    intro off long ser buf
    by_cases hser : serial s.mem (off + 128) = ser
    · exact ⟨_, goes_check setReader_self hser⟩
    · have hstep : readStep s.mem i name (.check off long ser buf) =
          (.reading name (.load off long), .tau) := by
        rw [readStep, if_neg hser]
      exact ⟨_, Goes.head (step_read setReader_self hstep) (goes_load setReader_self)⟩
  cases rd with
  | idle => exact absurd rfl hlive.1
  | called => exact absurd rfl hlive.2
  | start off => exact ⟨_, goes_start hr⟩
  | load off long => exact ⟨_, goes_load hr⟩
  | check off long ser buf =>
    obtain ⟨r, h⟩ := check off long ser buf
    exact ⟨r, (Goes.here hr).trans h⟩
  | copy off long ser buf =>
    by_cases hlt : buf.length < backupLen ser
    · obtain ⟨r, h⟩ := check off long ser _
      exact ⟨r, (goes_copy hr hlt).trans h⟩
    · have hstep : readStep s.mem i name (.copy off long ser buf) =
          (.reading name (.check off long ser (buf ++ [backupByte s.mem buf.length])), .tau) := by
        simp only [readStep, Seqlock.readerStep, List.length_append, List.length_singleton]
        rw [if_neg (by omega)]
      obtain ⟨r, h⟩ := check off long ser _
      exact ⟨r, Goes.head (step_read hr hstep) h⟩
  | scan off ser buf =>
    by_cases hlt : buf.length < propValueMax
    · obtain ⟨r, h⟩ := check off none ser _
      exact ⟨r, (goes_scan hr hlt).trans h⟩
    · have hstep : ∃ buf', readStep s.mem i name (.scan off ser buf) =
          (.reading name (.check off none ser buf'), .tau) := by
        simp only [readStep, Seqlock.readerStep]
        split_ifs
        · exact ⟨_, rfl⟩
        · omega
        · exact ⟨_, rfl⟩
      obtain ⟨buf', hstep⟩ := hstep
      obtain ⟨r, h⟩ := check off none ser buf'
      exact ⟨r, Goes.head (step_read hr hstep) h⟩

/-- A get under way that is left alone ends. -/
theorem World.goes {c : Contents} (h : World c s) (hlive : Live (s.reader i))
    (hr : s.reader i ≠ .idle) : ∃ name r, Goes i s (.done name r) := by
  -- behind the lookup, which may have ended long ago
  have found : ∀ name r, ∃ r',
      Goes i (s.setReader i (.finding name (.done r))) (.done name r') := by
    intro name r
    have hs : StepOf i (s.setReader i (.finding name (.done r))) .tau
        ((s.setReader i (.finding name (.done r))).setReader i (afterFind name r)) :=
      ⟨Step.found setReader_self, .inl rfl, _, rfl⟩
    cases r with
    | error e => exact ⟨_, Goes.head hs (.here setReader_self)⟩
    | ok off =>
      rw [afterFind] at hs
      cases hinfo : readerMap.propertyInfo off with
      | ok a =>
        rw [hinfo] at hs
        obtain ⟨r', h'⟩ := goes_reading (s := (s.setReader i (.finding name (.done (.ok off)))).setReader i
          (.reading name (.start off))) setReader_self ⟨by simp, by simp⟩
        exact ⟨r', Goes.head hs h'⟩
      | error e =>
        rw [hinfo] at hs
        exact ⟨_, Goes.head hs (.here setReader_self)⟩
  cases hg : s.reader i with
  | idle => exact absurd hg hr
  | finding name p =>
    cases p with
    | done r =>
      obtain ⟨r', h'⟩ := found name r
      exact ⟨name, r', (Goes.here hg).trans h'⟩
    | perform o next =>
      obtain ⟨r', h'⟩ := found name _
      exact ⟨name, r', (goes_find h.linked hg (h.finding i name o next hg)).trans h'⟩
  | reading name rd =>
    rw [hg] at hlive
    obtain ⟨r, h'⟩ := goes_reading hg hlive
    exact ⟨name, r, h'⟩
  | done name r => exact ⟨name, r, .here hg⟩

end Shared

end RsProperties
