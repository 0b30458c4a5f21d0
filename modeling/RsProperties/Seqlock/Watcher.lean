import RsProperties.Seqlock.Consistency

/-!
# Watching an entry

A watcher takes the serial of an entry with `SystemProperties::serial` and then calls `wait` again and
again, each time with the serial the last call returned. `serial` never returns a dirty serial: it
waits for the update under way, so that one update is one transition to its caller. `wait` compares
whatever it loads: a load that falls between the dirty and the clean store of an update returns the
dirty serial, and the next call returns the clean one.

The watcher is a process of its own beside the area's writer and readers. Every load is one step, and
so is every move of the futex; expired slices, interrupts and spurious wakes may come at any time.
`overlapped` remembers whether a load of `wait` ever fell into an update of the entry. The main result is
that the watcher sees each update at most once, and no dirty serial, exactly as long as that has not
happened.
-/

namespace RsProperties

open ByteMem PropertyAreaMap PropertyInfo

namespace Seqlock

/-! ### The watcher -/

/-- Where `futex_wait` stands: before the system call, in it, or behind it. -/
inductive Futex
  | enter
  | asleep
  | woken
  deriving DecidableEq

/-- What `futex_wait` returns; no call fails here. -/
inductive FutexWaitOutcome
  | changed (serial : ℕ)
  | timedOut
  deriving DecidableEq

/-- The steps of `futex_wait` on `value`, when the word reads `word`. -/
inductive FutexStep (word value : ℕ) : Futex → Futex ⊕ FutexWaitOutcome → Prop
  | expired : FutexStep word value .enter (.inr .timedOut)
  | sleep (h : word = value) : FutexStep word value .enter (.inl .asleep)
  | again (h : word ≠ value) : FutexStep word value .enter (.inl .woken)
  | wake : FutexStep word value .asleep (.inl .woken)
  | interrupted : FutexStep word value .asleep (.inl .enter)
  | timedOut : FutexStep word value .asleep (.inr .timedOut)
  | changed (h : word ≠ value) : FutexStep word value .woken (.inr (.changed word))
  | same (h : word = value) : FutexStep word value .woken (.inl .enter)

/-- The control state of the watcher, inside `serial` and then inside `wait`. -/
inductive Watcher
  /-- At the top of the loop of `serial`. -/
  | serialLoad
  /-- `serial` waits for the end of an update. -/
  | serialWait (dirty : ℕ) (f : Futex)
  /-- At the top of the loop of `wait`. -/
  | check (old : ℕ)
  /-- `wait` sleeps on its old serial. -/
  | wait (old : ℕ) (f : Futex)
  deriving DecidableEq

/-- What a step of the watcher brings. -/
inductive WatchOutcome
  | silent
  /-- `serial` returns the first serial. -/
  | took
  /-- `wait` returns `Some`. -/
  | returned (serial : ℕ)
  deriving DecidableEq

/-- The steps of the watcher, when the serial word of its entry reads `word`. Each call of `wait` gets
the serial the last call returned. -/
inductive WatcherStep (word : ℕ) : Watcher → WatchOutcome → Watcher → Prop
  | serialLoadClean (h : serialDirty word = false) :
      WatcherStep word .serialLoad .took (.check word)
  | serialLoadDirty (h : serialDirty word = true) :
      WatcherStep word .serialLoad .silent (.serialWait word .enter)
  | serialFutex {dirty : ℕ} {f f' : Futex} (h : FutexStep word dirty f (.inl f')) :
      WatcherStep word (.serialWait dirty f) .silent (.serialWait dirty f')
  | serialChanged {dirty s : ℕ} {f : Futex} (h : FutexStep word dirty f (.inr (.changed s)))
      (hs : serialDirty s = false) :
      WatcherStep word (.serialWait dirty f) .took (.check s)
  | serialStill {dirty s : ℕ} {f : Futex} (h : FutexStep word dirty f (.inr (.changed s)))
      (hs : serialDirty s = true) :
      WatcherStep word (.serialWait dirty f) .silent .serialLoad
  | serialSlice {dirty : ℕ} {f : Futex} (h : FutexStep word dirty f (.inr .timedOut)) :
      WatcherStep word (.serialWait dirty f) .silent .serialLoad
  | checkChanged {old : ℕ} (h : word ≠ old) :
      WatcherStep word (.check old) (.returned word) (.check word)
  | checkSame {old : ℕ} (h : word = old) :
      WatcherStep word (.check old) .silent (.wait old .enter)
  | futex {old : ℕ} {f f' : Futex} (h : FutexStep word old f (.inl f')) :
      WatcherStep word (.wait old f) .silent (.wait old f')
  | changed {old s : ℕ} {f : Futex} (h : FutexStep word old f (.inr (.changed s))) :
      WatcherStep word (.wait old f) (.returned s) (.check s)
  | slice {old : ℕ} {f : Futex} (h : FutexStep word old f (.inr .timedOut)) :
      WatcherStep word (.wait old f) .silent (.check old)

/-- The next step is a load of `wait`. -/
def Watcher.loads : Watcher → Bool
  | .check _ => true
  | .wait _ .woken => true
  | _ => false

/-! ### The system -/

/-- The area with its writer and readers, the watcher, and the history of the watch: the serials
`wait` has returned, the updates of the entry started since the first serial was taken, and whether a
load of `wait` fell into an update. -/
structure WatchState where
  area : State
  watcher : Watcher
  returned : List ℕ
  started : ℕ
  overlapped : Bool

/-- An update of the entry is between its dirty and its clean store. -/
def State.updating (s : State) (off : ℕ) : Bool := s.writer.dirtyAt == some off

def WatchState.record (s : WatchState) : WatchOutcome → WatchState
  | .silent => s
  | .took => { s with started := 0 }
  | .returned serial => { s with returned := s.returned ++ [serial] }

inductive WatchStep (pa : PropertyAreaMap) (off : ℕ) : WatchState → WatchState → Prop
  | area {s : WatchState} {x : Event} {area' : State} (h : Step pa s.area x area') :
      WatchStep pa off s { s with
        area := area'
        -- the dirty store begins an update
        started := s.started + if !s.area.updating off && area'.updating off then 1 else 0 }
  | watch {s : WatchState} {o : WatchOutcome} {w : Watcher}
      (h : WatcherStep (serial s.area.mem (off + 128)) s.watcher o w) :
      WatchStep pa off s { s.record o with
        watcher := w
        overlapped := s.overlapped || (s.watcher.loads && s.area.updating off) }

/-- A watcher about to take its first serial, anywhere in a run of the area. -/
def WatchReaches (pa : PropertyAreaMap) (off : ℕ) (s : WatchState) : Prop :=
  ∃ area, Init pa area ∧
    Relation.ReflTransGen (WatchStep pa off) ⟨area, .serialLoad, [], 0, false⟩ s

/-! ### The serial word of one entry -/

section Word

variable {pa : PropertyAreaMap} {g : Shape} {v : ℕ → Bytes} {k : ℕ → ℕ} {m : Mem} {w : Writer}
  {n : ℕ} {e : Entry}

/-- The serial last published for an entry: during an update, the one from before it. -/
def published (m : Mem) (w : Writer) (off : ℕ) : ℕ :=
  if w.dirtyAt = some off then serial m (off + 128) - 1 else serial m (off + 128)

theorem published_of_dirtyAt {off : ℕ} (hd : w.dirtyAt = some off) :
    published m w off = serial m (off + 128) - 1 := if_pos hd

theorem published_of_not_dirtyAt {off : ℕ} (hd : w.dirtyAt ≠ some off) :
    published m w off = serial m (off + 128) := if_neg hd

/-- Only short entries are updated. -/
theorem WriterInv.isShort_of_dirtyAt (h : WriterInv g v k m w) {off : ℕ}
    (hd : w.dirtyAt = some off) : IsShort g off := by
  have hp := h.phase
  cases w with
  | store off' value current i =>
    obtain rfl : off' = off := Option.some.inj hd
    exact hp.1
  | publish off' value current =>
    obtain rfl : off' = off := Option.some.inj hd
    exact hp.1
  | _ => cases hd

/-- Outside its updates the serial of an entry is clean, inside it is the dirty form of the one
published before. -/
theorem WriterInv.published_spec (hw : g.Wf pa.bytesUsed) (h : WriterInv g v k m w)
    (he : g.entry n = some e) :
    serialDirty (published m w e.off) = false ∧
      (w.dirtyAt = some e.off → serial m (e.off + 128) = published m w e.off + 1) := by
  by_cases hv : e.value.length < propValueMax
  · obtain ⟨S, hclean, -, ⟨hd, hs, -⟩ | ⟨hd, hs, -⟩⟩ := h.serial_cases ⟨n, e, he, rfl, hv⟩
    · rw [published, if_neg hd, hs]
      exact ⟨hclean.not_dirty, fun hd' => absurd hd' hd⟩
    · rw [published, if_pos hd, hs]
      exact ⟨hclean.not_dirty, fun _ => rfl⟩
  · have hl : propValueMax ≤ e.value.length := by omega
    have hlong := ((h.long n e he hl).long hl).1
    have hd : w.dirtyAt ≠ some e.off := fun hd =>
      IsLong.not_short hw ⟨n, e, he, rfl, rfl, hl⟩ (h.isShort_of_dirtyAt hd)
    rw [published, if_neg hd, hlong]
    exact ⟨by decide, fun hd' => absurd hd' hd⟩

/-- A store outside the entry keeps its serial word. -/
theorem serial_of_apart (hw : g.Wf pa.bytesUsed) (he : g.entry n = some e) {off : ℕ} {m' : Mem}
    (hso : IsShort g off) (hne : off ≠ e.off)
    (hs : ∀ x y, y ≤ off + 128 ∨ off + 224 ≤ x → SameOn m m' x y) :
    serial m' (e.off + 128) = serial m (e.off + 128) := by
  have hb := hw.entry_block n e he
  have hge := entryExtent_ge (joinDot (g.path n))
  refine (readU32_congr ?_).symm
  rcases hso.disjoint hw hb hne.symm with hd | hd
  · simp only [Block.stop, Obj.extent] at hd
    exact hs _ _ (.inl (by omega))
  · have hd' : off + 96 ≤ e.off := hd
    exact hs _ _ (.inr (by omega))

/-- **One step of the writer, seen from an entry**: the published serial stays, or an update of the
entry ends. -/
theorem WriterInv.published_step (hw : g.Wf pa.bytesUsed) (h : WriterInv g v k m w)
    (he : g.entry n = some e) :
    (w.dirtyAt = some e.off ∧ (writerStep m w).2.1.dirtyAt ≠ some e.off) ∨
      (w.dirtyAt = some e.off → (writerStep m w).2.1.dirtyAt = some e.off) ∧
      published (writerStep m w).1 (writerStep m w).2.1 e.off = published m w e.off := by
  have hlow := hw.layout.low _ (hw.entry_block n e he)
  have hlow' : 112 ≤ e.off := hlow
  -- a step between two phases in which the entry is not dirty
  have hclean : ∀ m' w', w.dirtyAt ≠ some e.off → w'.dirtyAt ≠ some e.off →
      serial m' (e.off + 128) = serial m (e.off + 128) →
      (w.dirtyAt = some e.off → w'.dirtyAt = some e.off) ∧
        published m' w' e.off = published m w e.off := by
    intro m' w' hd hd' hser
    rw [published_of_not_dirtyAt hd, published_of_not_dirtyAt hd']
    exact ⟨fun h => absurd h hd, hser⟩
  have hnone : (none : Option ℕ) ≠ some e.off := (Option.some_ne_none _).symm
  cases w with
  | idle => exact .inr ⟨id, rfl⟩
  | check off value =>
    simp only [writerStep]
    split_ifs <;> exact .inr (hclean _ _ hnone hnone rfl)
  | scan off value buf =>
    simp only [writerStep]
    split_ifs <;> exact .inr (hclean _ _ hnone hnone rfl)
  | backup off value old i =>
    obtain ⟨hso, hgood, rfl, hi, hb⟩ := h.phase
    have hlen := (h.good off hso).len
    rw [propValueMax] at hlen
    have hser : ∀ b : UInt8, serial (writeBytes m (148 + i) [b]) (e.off + 128) =
        serial m (e.off + 128) := fun b =>
      readU32_congr (sameOn_writeBytes (.inr (by rw [List.length_singleton]; omega)))
    simp only [writerStep]
    cases (v off)[i]? with
    | some b => exact .inr (hclean _ _ hnone hnone (hser b))
    | none => exact .inr (hclean _ _ hnone hnone (hser 0))
  | loadSerial off value =>
    simp only [writerStep]
    split_ifs <;> exact .inr (hclean _ _ hnone hnone rfl)
  | setDirty off value current =>
    obtain ⟨hso, -, -, hcur⟩ := h.phase
    by_cases heq : off = e.off
    · subst heq
      have hser : serial (writeU32 m (e.off + 128) (dirtySerial current)) (e.off + 128) =
        current + 1 := (h.setDirty_step hw).phase.2.2.1.serial_eq
      have hd : (Writer.setDirty e.off value current).dirtyAt ≠ some e.off := hnone
      have hold := (published_of_not_dirtyAt (m := m) hd).trans hcur.symm
      have hnew : published (writeU32 m (e.off + 128) (dirtySerial current))
          (.store e.off value current 0) e.off = current := by
        rw [published_of_dirtyAt rfl, hser, Nat.add_sub_cancel]
      exact .inr ⟨fun hd' => absurd hd' hd, hnew.trans hold.symm⟩
    · refine .inr (hclean _ _ hnone (fun hd => heq (Option.some.inj hd)) ?_)
      exact serial_of_apart hw he hso heq fun x y hxy => (sameOn_writeU32 (by omega)).symm
  | store off value current i =>
    obtain ⟨hso, hgood, hbusy, hi, -⟩ := h.phase
    have hlen := hgood.len
    rw [propValueMax] at hlen
    have hser : ∀ b : UInt8, serial (writeBytes m (off + 132 + i) [b]) (e.off + 128) =
        serial m (e.off + 128) := by
      intro b
      by_cases heq : off = e.off
      · subst heq
        exact readU32_congr (sameOn_writeBytes (.inl (by omega)))
      · exact serial_of_apart hw he hso heq fun x y hxy =>
          (sameOn_writeBytes (by rw [List.length_singleton]; omega)).symm
    have hkeep : ∀ (b : UInt8) (w' : Writer), w'.dirtyAt = some off →
        published (writeBytes m (off + 132 + i) [b]) w' e.off =
          published m (.store off value current i) e.off := by
      intro b w' hd
      rw [published, published, hser, hd]
      rfl
    simp only [writerStep]
    cases value[i]? with
    | some b => exact .inr ⟨id, hkeep b _ rfl⟩
    | none => exact .inr ⟨id, hkeep 0 _ rfl⟩
  | publish off value current =>
    obtain ⟨hso, -, -, -⟩ := h.phase
    by_cases heq : off = e.off
    · exact .inl ⟨congrArg some heq, hnone⟩
    · refine .inr (hclean _ _ (fun hd => heq (Option.some.inj hd)) hnone ?_)
      exact serial_of_apart hw he hso heq fun x y hxy => (sameOn_writeU32 (by omega)).symm

end Word

/-! ### What the watcher sees -/

/-- The serial the current call of `wait` compares with. -/
def Watcher.old : Watcher → Option ℕ
  | .check old => some old
  | .wait old _ => some old
  | _ => none

/-- As long as no load of `wait` fell into an update: what was returned is clean, and there were no more
returns than completed updates; if there were as many, nothing has been published since the last one. -/
structure Tracking (off : ℕ) (s : WatchState) (old : ℕ) : Prop where
  clean : ∀ r ∈ s.returned, serialDirty r = false
  old_clean : serialDirty old = false
  count : s.returned.length + (if s.area.updating off then 1 else 0) ≤ s.started
  latest : s.returned.length + (if s.area.updating off then 1 else 0) = s.started →
    old = published s.area.mem s.area.writer off

structure WatchInv (pa : PropertyAreaMap) (off : ℕ) (s : WatchState) : Prop where
  run : ∃ H, Run pa H s.area
  fresh : s.watcher.old = none → s.returned = [] ∧ s.overlapped = false
  tracking : ∀ old, s.watcher.old = some old → s.overlapped = false → Tracking off s old
  broken : s.overlapped = true → ∃ r ∈ s.returned, serialDirty r = true

section Watch

variable {pa : PropertyAreaMap} {g : Shape} {n : ℕ} {e : Entry} {s : WatchState}

theorem updating_iff {s : State} {off : ℕ} :
    s.updating off = true ↔ s.writer.dirtyAt = some off := beq_iff_eq

/-- The area moves on: an update of the entry ends, or its published serial stays. -/
theorem Tracking.area {off old : ℕ} (h : Tracking off s old) {area' : State}
    (hs : (s.area.updating off = true ∧ area'.updating off = false) ∨
      (s.area.updating off = true → area'.updating off = true) ∧
        published area'.mem area'.writer off = published s.area.mem s.area.writer off) :
    Tracking off { s with
      area := area'
      started := s.started + if !s.area.updating off && area'.updating off then 1 else 0 } old := by
  have hcount := h.count
  rcases hs with ⟨hu, hu'⟩ | ⟨hu, hp⟩
  · -- one update more than was returned is complete now
    rw [hu, if_pos rfl] at hcount
    refine ⟨h.clean, h.old_clean, ?_, fun hlast => ?_⟩
    · simp only [hu, hu', Bool.and_false, Bool.false_eq_true, if_false]
      omega
    · simp only [hu, hu', Bool.and_false, Bool.false_eq_true, if_false] at hlast
      omega
  · have hlatest := h.latest
    refine ⟨h.clean, h.old_clean, ?_, fun hlast => ?_⟩
    · cases hb : s.area.updating off <;> cases hb' : area'.updating off <;>
        simp_all
    · rw [hp]
      refine hlatest ?_
      cases hb : s.area.updating off <;> cases hb' : area'.updating off <;>
        simp_all

/-- A step of the area. -/
theorem WatchInv.area_step (hinv : AreaInv pa g) (he : g.entry n = some e)
    (hutf8 : ∀ n e, g.entry n = some e → Utf8.valid e.value = true)
    (h : WatchInv pa e.off s) {x : Event} {area' : State} (hs : Step pa s.area x area') :
    WatchInv pa e.off { s with
      area := area'
      started := s.started + if !s.area.updating e.off && area'.updating e.off then 1 else 0 } := by
  obtain ⟨H, hrun⟩ := h.run
  have hwr := (sysInv_run hinv hutf8 hrun).writer
  refine ⟨⟨_, hrun.snoc hs⟩, h.fresh, fun old hold hov => ?_, h.broken⟩
  refine (h.tracking old hold hov).area ?_
  simp only [updating_iff, ← Bool.not_eq_true]
  cases hs with
  | update hw =>
    have hd : s.area.writer.dirtyAt ≠ some e.off := by
      rw [hw]
      exact (Option.some_ne_none _).symm
    refine .inr ⟨fun hd' => absurd hd' hd, ?_⟩
    rw [published_of_not_dirtyAt hd]
    exact published_of_not_dirtyAt (Option.some_ne_none _).symm
  | begin => exact .inr ⟨id, rfl⟩
  | read => exact .inr ⟨id, rfl⟩
  | write hw => exact hwr.published_step hinv.wf he

theorem FutexStep.of_changed {word value t : ℕ} {f : Futex}
    (h : FutexStep word value f (.inr (.changed t))) : f = .woken ∧ t = word ∧ word ≠ value := by
  cases h with
  | changed hne => exact ⟨rfl, rfl, hne⟩

/-- `futex_wait` goes on past a load only if the word has not changed. -/
theorem FutexStep.of_inl {word value : ℕ} {f f' : Futex} (h : FutexStep word value f (.inl f'))
    (hf : f = .woken) : word = value := by
  cases h with
  | same heq => exact heq
  | _ => cases hf

/-- What a load of the serial tells: outside an update the published serial, inside a dirty one. -/
theorem WatchInv.word_spec (hinv : AreaInv pa g) (he : g.entry n = some e)
    (hutf8 : ∀ n e, g.entry n = some e → Utf8.valid e.value = true) (h : WatchInv pa e.off s) :
    (s.area.updating e.off = false →
      serial s.area.mem (e.off + 128) = published s.area.mem s.area.writer e.off ∧
        serialDirty (serial s.area.mem (e.off + 128)) = false) ∧
    (s.area.updating e.off = true → serialDirty (serial s.area.mem (e.off + 128)) = true) := by
  obtain ⟨H, hrun⟩ := h.run
  obtain ⟨hclean, hdirty⟩ := (sysInv_run hinv hutf8 hrun).writer.published_spec hinv.wf he
  refine ⟨fun hu => ?_, fun hu => ?_⟩
  · rw [← Bool.not_eq_true, updating_iff] at hu
    have hp := published_of_not_dirtyAt (m := s.area.mem) hu
    rw [← hp]
    exact ⟨rfl, hclean⟩
  · rw [hdirty (updating_iff.mp hu), serialDirty_eq, decide_eq_true_eq]
    rw [serialDirty_eq, decide_eq_false_iff_not] at hclean
    omega

section WatchSteps

variable (hinv : AreaInv pa g) (he : g.entry n = some e)
  (hutf8 : ∀ n e, g.entry n = some e → Utf8.valid e.value = true) (h : WatchInv pa e.off s)

include hinv he hutf8 h

/-- `serial` returns: the watch begins at the published serial. -/
theorem WatchInv.took {t : ℕ} (hold : s.watcher.old = none) (hl : s.watcher.loads = false)
    (ht : t = serial s.area.mem (e.off + 128)) (hclean : serialDirty t = false) :
    WatchInv pa e.off { s.record .took with
      watcher := .check t
      overlapped := s.overlapped || (s.watcher.loads && s.area.updating e.off) } := by
  subst ht
  obtain ⟨hret, hov⟩ := h.fresh hold
  obtain ⟨hquiet, hdirty⟩ := h.word_spec hinv he hutf8
  have hu : s.area.updating e.off = false := by
    cases hu : s.area.updating e.off
    · rfl
    · rw [hdirty hu] at hclean
      cases hclean
  refine ⟨h.run, fun hn => (by cases hn), fun old ho _ => ?_, fun hb => ?_⟩
  · cases ho
    refine ⟨?_, hclean, ?_, fun _ => (hquiet hu).1⟩
    · simp [WatchState.record, hret]
    · simp [WatchState.record, hret, hu]
  · simp [hl, hov] at hb

/-- A step that returns nothing, and that goes past a load only if the word is the old one. -/
theorem WatchInv.silent {w : Watcher} (hold : w.old = s.watcher.old)
    (hl : s.watcher.loads = true → s.watcher.old = some (serial s.area.mem (e.off + 128))) :
    WatchInv pa e.off { s.record .silent with
      watcher := w
      overlapped := s.overlapped || (s.watcher.loads && s.area.updating e.off) } := by
  -- a load inside an update would have differed from the clean old serial
  have hov : (s.overlapped || (s.watcher.loads && s.area.updating e.off)) = s.overlapped := by
    cases hb : s.overlapped
    · cases hload : s.watcher.loads
      · rfl
      · cases hu : s.area.updating e.off
        · rfl
        · have ht := h.tracking _ (hl hload) hb
          have hd := (h.word_spec hinv he hutf8).2 hu
          rw [ht.old_clean] at hd
          cases hd
    · rfl
  rw [hov]
  refine ⟨h.run, fun hn => h.fresh (hold ▸ hn), fun old ho hb => ?_, h.broken⟩
  have ht := h.tracking old (hold ▸ ho) hb
  exact ⟨ht.clean, ht.old_clean, ht.count, ht.latest⟩

/-- `wait` returns what it loaded. -/
theorem WatchInv.returned {t old : ℕ} (hold : s.watcher.old = some old)
    (hl : s.watcher.loads = true) (ht : t = serial s.area.mem (e.off + 128)) (hne : t ≠ old) :
    WatchInv pa e.off { s.record (.returned t) with
      watcher := .check t
      overlapped := s.overlapped || (s.watcher.loads && s.area.updating e.off) } := by
  subst ht
  obtain ⟨hquiet, hdirty⟩ := h.word_spec hinv he hutf8
  rw [hl, Bool.true_and]
  refine ⟨h.run, fun hn => (by cases hn), fun old' ho hb => ?_, fun hb => ?_⟩
  · cases ho
    obtain ⟨hb, hu⟩ := Bool.or_eq_false_iff.mp hb
    obtain ⟨hpub, hclean⟩ := hquiet hu
    have htr := h.tracking old hold hb
    have hcount := htr.count
    have hlatest := htr.latest
    rw [hu] at hcount hlatest
    simp only [Bool.false_eq_true, if_false, Nat.add_zero] at hcount hlatest
    -- with as many returns as updates, the word would still be the old one
    have hlt : s.returned.length ≠ s.started := fun heq => hne (hpub.trans (hlatest heq).symm)
    refine ⟨fun r hr => ?_, hclean, ?_, fun _ => hpub⟩
    · rcases List.mem_append.mp hr with hr | hr
      · exact htr.clean r hr
      · rw [List.mem_singleton.mp hr]
        exact hclean
    · simp only [WatchState.record, hu, List.length_append, List.length_singleton,
        Bool.false_eq_true, if_false]
      omega
  · rcases Bool.or_eq_true_iff.mp hb with hb | hu
    · obtain ⟨r, hr, hd⟩ := h.broken hb
      exact ⟨r, List.mem_append_left _ hr, hd⟩
    · exact ⟨_, List.mem_append_right _ (List.mem_singleton_self _), hdirty hu⟩

/-- **One step of the watcher.** -/
theorem WatchInv.watch_step {o : WatchOutcome} {w : Watcher}
    (hs : WatcherStep (serial s.area.mem (e.off + 128)) s.watcher o w) :
    WatchInv pa e.off { s.record o with
      watcher := w
      overlapped := s.overlapped || (s.watcher.loads && s.area.updating e.off) } := by
  generalize hw : s.watcher = w₀ at hs
  have hold : s.watcher.old = w₀.old := congrArg _ hw
  have hload : s.watcher.loads = w₀.loads := congrArg _ hw
  -- inside `serial` there is no load of `wait`
  have hnone : ∀ {P : Prop}, w₀.loads = false → s.watcher.loads = true → P := by
    intro P hf hl
    rw [hload, hf] at hl
    cases hl
  cases hs with
  | serialLoadClean hc => exact hw ▸ h.took hinv he hutf8 hold hload rfl hc
  | serialLoadDirty hd => exact hw ▸ h.silent hinv he hutf8 hold.symm (hnone rfl)
  | serialFutex hf => exact hw ▸ h.silent hinv he hutf8 hold.symm (hnone rfl)
  | serialChanged hf hc =>
    obtain ⟨rfl, rfl, -⟩ := hf.of_changed
    exact hw ▸ h.took hinv he hutf8 hold hload rfl hc
  | serialStill hf hd => exact hw ▸ h.silent hinv he hutf8 hold.symm (hnone rfl)
  | serialSlice hf => exact hw ▸ h.silent hinv he hutf8 hold.symm (hnone rfl)
  | checkChanged hne => exact hw ▸ h.returned hinv he hutf8 hold hload rfl hne
  | checkSame heq => exact hw ▸ h.silent hinv he hutf8 hold.symm (fun _ => hold.trans (by rw [heq]; rfl))
  | futex hf =>
    refine hw ▸ h.silent hinv he hutf8 hold.symm fun hl => ?_
    rw [hload] at hl
    rename_i f f'
    cases f with
    | woken => exact hold.trans (by rw [hf.of_inl rfl]; rfl)
    | _ => cases hl
  | changed hf =>
    obtain ⟨rfl, rfl, hne⟩ := hf.of_changed
    exact hw ▸ h.returned hinv he hutf8 hold hload rfl hne
  | slice hf =>
    refine hw ▸ h.silent hinv he hutf8 hold.symm (hnone ?_)
    cases hf <;> rfl

end WatchSteps

/-- The invariant along every run. -/
theorem WatchReaches.watchInv (hinv : AreaInv pa g) (he : g.entry n = some e)
    (hutf8 : ∀ n e, g.entry n = some e → Utf8.valid e.value = true)
    (h : WatchReaches pa e.off s) : WatchInv pa e.off s := by
  obtain ⟨area, hinit, hrun⟩ := h
  induction hrun with
  | refl =>
    exact ⟨⟨[], .start hinit⟩, fun _ => ⟨rfl, rfl⟩, fun old ho => (by cases ho), fun hb => (by cases hb)⟩
  | tail _ hs ih =>
    cases hs with
    | area hs => exact ih.area_step hinv he hutf8 hs
    | watch hs => exact ih.watch_step hinv he hutf8 hs

end Watch

/-- **When one update is one change to a watcher.** In every state of every run of a watcher beside the
writer and the readers of an area: `wait` has returned at most as often as updates of the entry have
been started since the first serial was taken, and only clean serials, exactly if no load of `wait` fell
into an update of the entry. -/
theorem watch_counts_iff {pa : PropertyAreaMap} {M : Bytes → Option Bytes}
    {seen : List (Bytes × ℕ)} (harea : AreaRun pa M seen)
    (hstr : ∀ name v, M name = some v → Utf8.valid v = true) {name : Bytes} {off : ℕ}
    (hf : pa.find name = .ok off) {s : WatchState} (h : WatchReaches pa off s) :
    (s.returned.length ≤ s.started ∧ ∀ r ∈ s.returned, serialDirty r = false) ↔
      s.overlapped = false := by
  obtain ⟨g, hinv, rfl, -⟩ := harea.exists_shape
  have hutf8 : ∀ n e, g.entry n = some e → Utf8.valid e.value = true := by
    intro n e he
    have hl := hinv.wf.lookup_eq_some_iff.mpr ⟨n, he, rfl⟩
    exact hstr _ _ (by rw [Shape.toMap, hl]; rfl)
  obtain ⟨e, hl, rfl⟩ := hinv.find_eq_ok_iff.mp hf
  obtain ⟨n, he, -⟩ := hinv.wf.lookup_eq_some_iff.mp hl
  have hwatch := h.watchInv hinv he hutf8
  constructor
  · rintro ⟨-, hclean⟩
    by_contra hb
    obtain ⟨r, hr, hd⟩ := hwatch.broken (Bool.of_not_eq_false hb)
    rw [hclean r hr] at hd
    cases hd
  · intro hb
    cases hold : s.watcher.old with
    | none =>
      rw [(hwatch.fresh hold).1]
      exact ⟨Nat.zero_le _, by simp⟩
    | some old =>
      have ht := hwatch.tracking old hold hb
      exact ⟨le_trans (Nat.le_add_right _ _) ht.count, ht.clean⟩

/-! ### A watcher that meets an update -/

/-- `k` steps of the writer. -/
def writerRun (m : Mem) (w : Writer) : ℕ → Mem × Writer
  | 0 => (m, w)
  | k + 1 =>
    let r := writerRun m w k
    ((writerStep r.1 r.2).1, (writerStep r.1 r.2).2.1)

/-- The watcher stands still while the writer works. -/
theorem WatchReaches.writerRun {pa : PropertyAreaMap} {off : ℕ} {s : WatchState}
    (h : WatchReaches pa off s) {k : ℕ}
    (hk : ∀ j < k, (writerRun s.area.mem s.area.writer j).2 ≠ .idle) :
    ∃ started, WatchReaches pa off { s with
      area := { s.area with
        mem := (Seqlock.writerRun s.area.mem s.area.writer k).1
        writer := (Seqlock.writerRun s.area.mem s.area.writer k).2 }
      started := started } := by
  induction k with
  | zero => exact ⟨s.started, h⟩
  | succ k ih =>
    obtain ⟨started, area, hinit, hrun⟩ := ih fun j hj => hk j (by omega)
    exact ⟨_, area, hinit, hrun.tail (.area (.write (hk k (by omega))))⟩

/-- The area of the run below: one entry. -/
def watchedArea : PropertyAreaMap := finalState (PropertyAreaMap.add (ascii "a") (ascii "x") newRw)

theorem watchedArea_run : ∃ M seen, AreaRun watchedArea M seen ∧
    ∀ name v, M name = some v → Utf8.valid v = true := by
  have harea := AreaRun.add .init (ascii "a") (show 0 ∉ ascii "x" by decide)
  have hok : succeeded (PropertyAreaMap.add (ascii "a") (ascii "x") newRw) = true := by
    decide +kernel
  rw [hok] at harea
  refine ⟨_, _, harea, fun name v hv => ?_⟩
  simp only [mapAdd, Option.isNone_none, Bool.and_self, if_true, Function.update_apply] at hv
  split_ifs at hv
  obtain rfl := Option.some.inj hv
  decide

/-- The watcher takes its first serial, and the writer goes up to the dirty store of an update. -/
theorem exists_watch_begun :
    ∃ started, WatchReaches watchedArea 136
      ⟨⟨(writerRun watchedArea.mmap.data (.check 136 (ascii "y")) 7).1,
        (writerRun watchedArea.mmap.data (.check 136 (ascii "y")) 7).2, fun _ => .idle⟩,
        .check (1 <<< 24), [], started, false⟩ := by
  have hser : serial watchedArea.mmap.data (136 + 128) = 1 <<< 24 := by decide +kernel
  have htook : WatcherStep (serial watchedArea.mmap.data (136 + 128)) .serialLoad .took
      (.check (1 <<< 24)) := by
    rw [hser]
    exact .serialLoadClean (by decide)
  have hf : watchedArea.find (ascii "a") = .ok 136 := by decide +kernel
  have hinit : Init watchedArea ⟨watchedArea.mmap.data, .idle, fun _ => .idle⟩ :=
    ⟨rfl, rfl, fun _ => rfl⟩
  have h0 : Relation.ReflTransGen (WatchStep watchedArea 136)
      ⟨⟨watchedArea.mmap.data, .idle, fun _ => .idle⟩, .serialLoad, [], 0, false⟩
      ⟨⟨watchedArea.mmap.data, .idle, fun _ => .idle⟩, .serialLoad, [], 0, false⟩ := .refl
  have h1 := h0.tail (.watch htook)
  have hv : validateShortValueLen (⟨ascii "y", by decide⟩ : Str).bytes = .ok () := by decide
  have h2 := h1.tail (.area (.update rfl hf hv))
  have hreach : WatchReaches watchedArea 136 _ := ⟨_, hinit, h2⟩
  have hbusy : ∀ j < 7, (writerRun watchedArea.mmap.data (.check 136 (ascii "y")) j).2 ≠ .idle := by
    decide +kernel
  exact hreach.writerRun hbusy

/-- The hypotheses of the main result hold of a watcher before its first load inside the update. -/
theorem watch_counts_iff_begun :
    ∃ s, WatchReaches watchedArea 136 s ∧ s.watcher = .check (1 <<< 24) ∧
      s.returned.length ≤ s.started := by
  obtain ⟨M, seen, harea, hstr⟩ := watchedArea_run
  have hf : watchedArea.find (ascii "a") = .ok 136 := by decide +kernel
  obtain ⟨started, h⟩ := exists_watch_begun
  exact ⟨_, h, rfl, ((watch_counts_iff harea hstr hf h).mpr rfl).1⟩

/-- A load of `wait` between the dirty and the clean store returns the dirty serial. -/
theorem watch_returns_dirty :
    ¬ ∀ (pa : PropertyAreaMap) (M : Bytes → Option Bytes) (seen : List (Bytes × ℕ)),
      AreaRun pa M seen → (∀ name v, M name = some v → Utf8.valid v = true) →
      ∀ name off, pa.find name = .ok off → ∀ s, WatchReaches pa off s →
        s.returned.length ≤ s.started ∧ ∀ r ∈ s.returned, serialDirty r = false := by
  intro hall
  obtain ⟨M, seen, harea, hstr⟩ := watchedArea_run
  have hf : watchedArea.find (ascii "a") = .ok 136 := by decide +kernel
  obtain ⟨started, area, hinit, hrun⟩ := exists_watch_begun
  have hser : serial (writerRun watchedArea.mmap.data (.check 136 (ascii "y")) 7).1 (136 + 128) =
      1 <<< 24 + 1 := by
    decide +kernel
  have hsees := hrun.tail (.watch (.checkChanged (by rw [hser]; decide)))
  obtain ⟨-, hclean⟩ := hall _ M seen harea hstr _ 136 hf _ ⟨area, hinit, hsees⟩
  have hdirty := hclean _ (List.mem_singleton_self _)
  rw [hser] at hdirty
  revert hdirty
  decide

end Seqlock

end RsProperties
