import RsProperties.Seqlock.Watcher
import RsProperties.Store.AllOrNothing

/-!
# Waiting for any change

`wait` without an index waits on the global serial. A writer that has changed a value bumps the serial
with an atomic add and then wakes every thread that sleeps on it; a waiter compares the serial it was
given, or the one it samples, with the word and sleeps only as long as the two agree. Any number of writers
and waiters run, one access at a time, and the word wraps at `2 ^ 32`.

Between its bump and its wake a writer owes the sleepers a wake. That debt is the only reason why a sleeper
may be behind the word (`Inv.asleep`), so no wake is lost.
-/

namespace RsProperties.GlobalWait

open Seqlock (Futex FutexWaitOutcome FutexStep)

/-! ### The system -/

/-- Where `update` or `add` is: between calls, before the bump of the serial, before the wake. -/
inductive Writer
  | idle
  | changed
  | bumped
  deriving DecidableEq

/-- Where `wait(None, …)` is: between calls, before its load, in `futex_wait` on a serial, before its
return. -/
inductive Waiter
  | idle
  | calling (old : Option ℕ)
  | waiting (old : ℕ) (f : Futex)
  | returning (old : ℕ) (r : Option ℕ)

structure State where
  word : ℕ
  writer : ℕ → Writer
  waiter : ℕ → Waiter

inductive Event
  /-- `update` or `add` has succeeded in its area. -/
  | change (i : ℕ)
  | bump (i : ℕ)
  | wake (i : ℕ)
  /-- `futex_wake` fails, which is only logged. -/
  | wakeFails (i : ℕ)
  | call (j : ℕ) (old : Option ℕ)
  | returned (j old : ℕ) (r : Option ℕ)
  | tau

/-- The load at the beginning of `wait`: a serial that has moved already is returned. -/
def afterLoad (word : ℕ) : Option ℕ → Waiter
  | some old => if old ≠ word then .returning old (some word) else .waiting old .enter
  | none => .waiting word .enter

/-- What `wait` makes of the outcome of `futex_wait`. -/
def result : FutexWaitOutcome → Option ℕ
  | .changed n => some n
  | .timedOut => none

/-- A wake of everybody. -/
def Waiter.awake : Waiter → Waiter
  | .waiting old .asleep => .waiting old .woken
  | w => w

/-- The steps of the system; those of `futex_wait` itself are `FutexStep`. -/
inductive Step : State → Event → State → Prop
  | change {s : State} {i : ℕ} (hw : s.writer i = .idle) :
      Step s (.change i) { s with writer := Function.update s.writer i .changed }
  | bump {s : State} {i : ℕ} (hw : s.writer i = .changed) :
      Step s (.bump i) { s with
        word := (s.word + 1) % 2 ^ 32, writer := Function.update s.writer i .bumped }
  | wake {s : State} {i : ℕ} (hw : s.writer i = .bumped) :
      Step s (.wake i) { s with
        writer := Function.update s.writer i .idle, waiter := fun j => (s.waiter j).awake }
  | wakeFails {s : State} {i : ℕ} (hw : s.writer i = .bumped) :
      Step s (.wakeFails i) { s with writer := Function.update s.writer i .idle }
  | call {s : State} {j : ℕ} (hr : s.waiter j = .idle) (old : Option ℕ) :
      Step s (.call j old) { s with waiter := Function.update s.waiter j (.calling old) }
  | load {s : State} {j : ℕ} {old : Option ℕ} (hr : s.waiter j = .calling old) :
      Step s .tau { s with waiter := Function.update s.waiter j (afterLoad s.word old) }
  | futex {s : State} {j old : ℕ} {f f' : Futex} (hr : s.waiter j = .waiting old f)
      (h : FutexStep s.word old f (.inl f')) :
      Step s .tau { s with waiter := Function.update s.waiter j (.waiting old f') }
  | futexEnd {s : State} {j old : ℕ} {f : Futex} {o : FutexWaitOutcome}
      (hr : s.waiter j = .waiting old f) (h : FutexStep s.word old f (.inr o)) :
      Step s .tau { s with waiter := Function.update s.waiter j (.returning old (result o)) }
  /-- An unexpected error of the system call. -/
  | failed {s : State} {j old : ℕ} (hr : s.waiter j = .waiting old .enter) :
      Step s .tau { s with waiter := Function.update s.waiter j (.returning old none) }
  | returned {s : State} {j old : ℕ} {r : Option ℕ} (hr : s.waiter j = .returning old r) :
      Step s (.returned j old r) { s with waiter := Function.update s.waiter j .idle }

/-- A new serial area. -/
def Init (s : State) : Prop := s.word = 0 ∧ (∀ i, s.writer i = .idle) ∧ ∀ j, s.waiter j = .idle

/-- The runs of the system, with their histories. -/
abbrev Run : List Event → State → Prop := Trace.Run Init Step

/-- The runs that go on from a state. -/
abbrev RunFrom (s : State) : List Event → State → Prop := Trace.Run (· = s) Step

/-- What `update` and `add` make of the serial word of the store is a bump. -/
theorem Step.of_published {sp sp' : SystemProperties} {slot i : ℕ} {node : ContextNode}
    {pa : PropertyAreaMap} {s : State} (h : sp.Published slot node pa sp')
    (hword : s.word = sp.contextSerial) (hw : s.writer i = .changed) :
    ∃ s', Step s (.bump i) s' ∧ s'.word = sp'.contextSerial := by
  refine ⟨_, .bump hw, ?_⟩
  rw [h.serial, ← hword]

def isBump : Event → Bool
  | .bump _ => true
  | _ => false

/-- The serial after a history: it counts the bumps, modulo the size of the word. -/
def serialAfter (H : List Event) : ℕ := H.countP isBump % 2 ^ 32

/-! ### The invariant -/

/-- A serial that `wait` is about to return differs from the one compared with, and was the serial at
some moment since the call. -/
def Fresh (H : List Event) (j old n : ℕ) : Prop :=
  n ≠ old ∧ ∃ H₁ H₂, H = H₁ ++ H₂ ∧ n = serialAfter H₁ ∧ ∀ o, .call j o ∉ H₂

structure Inv (H : List Event) (s : State) : Prop where
  word : s.word = serialAfter H
  /-- A sleeper is up to date, or somebody owes it a wake. -/
  asleep : ∀ j old, s.waiter j = .waiting old .asleep →
    old = s.word ∨ (∃ i, s.writer i = .bumped) ∨ ∃ i, .wakeFails i ∈ H
  fresh : ∀ j old n, s.waiter j = .returning old (some n) → Fresh H j old n

variable {H : List Event} {s s' : State} {x : Event} {j : ℕ}

theorem serialAfter_snoc (hx : isBump x = false) : serialAfter (H ++ [x]) = serialAfter H := by
  rw [serialAfter, serialAfter, List.countP_append]
  simp [hx]

theorem Fresh.snoc {old n : ℕ} (h : Fresh H j old n) (hx : ∀ o, x ≠ .call j o) :
    Fresh (H ++ [x]) j old n := by
  obtain ⟨hne, H₁, H₂, rfl, hn, hcall⟩ := h
  refine ⟨hne, H₁, H₂ ++ [x], List.append_assoc _ _ _, hn, fun o hm => ?_⟩
  rcases List.mem_append.mp hm with hm | hm
  · exact hcall o hm
  · exact hx o (List.mem_singleton.mp hm).symm

theorem exists_wakeFails_snoc (h : ∃ i, .wakeFails i ∈ H) : ∃ i, .wakeFails i ∈ H ++ [x] :=
  h.imp fun _ hi => List.mem_append_left _ hi

/-- The word as it stands is fresh for everybody. -/
theorem Inv.now (h : Inv H s) {old : ℕ} (hne : s.word ≠ old) (hc : ∀ o, x ≠ .call j o) :
    Fresh (H ++ [x]) j old s.word := by
  have hnow : Fresh H j old s.word := ⟨hne, H, [], (List.append_nil H).symm, h.word, by simp⟩
  exact hnow.snoc hc

/-- A step of one waiter, which leaves the word and the writers alone. -/
theorem Inv.of_waiter (h : Inv H s) {w : Waiter} (hx : isBump x = false)
    (hcall : ∀ k o, x = .call k o → k = j)
    (hasleep : ∀ old, w = .waiting old .asleep → old = s.word)
    (hfresh : ∀ old n, w = .returning old (some n) → Fresh (H ++ [x]) j old n) :
    Inv (H ++ [x]) { s with waiter := Function.update s.waiter j w } := by
  refine ⟨h.word.trans (serialAfter_snoc hx).symm, fun k old hk => ?_, fun k old n hk => ?_⟩
  · simp only [Function.update_apply] at hk
    split_ifs at hk with hkj
    · exact .inl (hasleep old hk)
    · exact (h.asleep k old hk).imp_right fun hd => hd.imp_right exists_wakeFails_snoc
  · simp only [Function.update_apply] at hk
    split_ifs at hk with hkj
    · subst hkj
      exact hfresh old n hk
    · exact (h.fresh k old n hk).snoc fun o ho => hkj (hcall k o ho)

/-- A step of a writer that leaves the waiters alone. -/
theorem Inv.of_writer (h : Inv H s) {word : ℕ} {writer : ℕ → Writer}
    (hword : word = serialAfter (H ++ [x])) (hc : ∀ k o, x ≠ .call k o)
    (hdebt : ∀ old, old = s.word ∨ (∃ i, s.writer i = .bumped) ∨ (∃ i, .wakeFails i ∈ H) →
      old = word ∨ (∃ i, writer i = .bumped) ∨ ∃ i, .wakeFails i ∈ H ++ [x]) :
    Inv (H ++ [x]) ⟨word, writer, s.waiter⟩ :=
  ⟨hword, fun k old hk => hdebt old (h.asleep k old hk),
    fun k old n hk => (h.fresh k old n hk).snoc (hc k)⟩

/-- **One step.** -/
theorem Inv.step (h : Inv H s) (hs : Step s x s') : Inv (H ++ [x]) s' := by
  cases hs with
  | @change i hw =>
    refine h.of_writer (h.word.trans (serialAfter_snoc rfl).symm) (by simp) fun old hd => ?_
    refine hd.imp_right fun hd => hd.imp ?_ exists_wakeFails_snoc
    rintro ⟨k, hk⟩
    have hne : k ≠ i := by
      rintro rfl
      rw [hw] at hk
      cases hk
    exact ⟨k, (Function.update_of_ne hne _ _).trans hk⟩
  | @bump i hw =>
    -- every sleeper may have fallen behind; this writer owes the wake
    refine h.of_writer ?_ (by simp) fun old hd => .inr (.inl ⟨i, Function.update_self _ _ _⟩)
    rw [h.word, serialAfter, serialAfter, List.countP_append]
    simp [isBump]
  | @wake i hw =>
    -- nobody sleeps any more
    refine ⟨h.word.trans (serialAfter_snoc rfl).symm, fun k old hk => ?_, fun k old n hk => ?_⟩
    · simp only [Waiter.awake] at hk
      split at hk
      · cases hk
      · rename_i hne
        exact absurd hk (hne old)
    · have hk' : s.waiter k = .returning old (some n) := by
        simp only [Waiter.awake] at hk
        split at hk
        · cases hk
        · exact hk
      exact (h.fresh k old n hk').snoc (by simp)
  | @wakeFails i hw =>
    exact h.of_writer (h.word.trans (serialAfter_snoc rfl).symm) (by simp)
      fun old _ => .inr (.inr ⟨i, by simp⟩)
  | @call k hr old =>
    refine h.of_waiter rfl ?_ (by simp) (by simp)
    rintro _ _ ⟨⟩
    rfl
  | @load k old hr =>
    refine h.of_waiter rfl (by simp) (fun o ho => ?_) fun o n ho => ?_
    · cases old with
      | none => cases ho
      | some old =>
        rw [afterLoad] at ho
        split_ifs at ho
        cases ho
    · cases old with
      | none => cases ho
      | some old =>
        rw [afterLoad] at ho
        split_ifs at ho with hne
        injection ho with ho hn
        obtain rfl := Option.some.inj hn
        subst ho
        exact h.now (Ne.symm hne) (by simp)
  | @futex k old f f' hr hf =>
    refine h.of_waiter rfl (by simp) (fun o ho => ?_) (by simp)
    injection ho with ho hf'
    subst ho hf'
    cases hf with
    -- the system call compares and sleeps in one step
    | sleep heq => exact heq.symm
  | @futexEnd k old f o hr hf =>
    refine h.of_waiter rfl (by simp) (by simp) fun o' n ho => ?_
    injection ho with ho hres
    subst ho
    cases hf with
    | expired => cases hres
    | timedOut => cases hres
    | changed hne =>
      obtain rfl := Option.some.inj hres
      exact h.now hne (by simp)
  | failed hr => exact h.of_waiter rfl (by simp) (by simp) (by simp)
  | returned hr => exact h.of_waiter rfl (by simp) (by simp) (by simp)

/-- The invariant holds along every run. -/
theorem Run.inv (h : Run H s) : Inv H s := by
  refine Trace.Run.invariant (fun s h0 => ?_) (fun _ _ _ _ h' hs => h'.step hs) h
  obtain ⟨hword, -, hwaiter⟩ := h0
  exact ⟨hword, fun j old hj => by simp [hwaiter] at hj, fun j old n hj => by simp [hwaiter] at hj⟩

/-! ### No wake is lost -/

/-- Awake and behind the word, a waiter returns the word. -/
theorem exists_return {old : ℕ} {f : Futex} (hr : s.waiter j = .waiting old f) (hf : f ≠ .asleep)
    (hne : s.word ≠ old) : ∃ L s', RunFrom s L s' ∧ (∀ x ∈ L, x = .tau) ∧
      s'.waiter j = .returning old (some s.word) := by
  have hstart : RunFrom s [] s := .start rfl
  cases f with
  | asleep => exact absurd rfl hf
  | woken =>
    exact ⟨_, _, hstart.snoc (.futexEnd hr (.changed hne)), by simp, Function.update_self _ _ _⟩
  | enter =>
    have hagain := hstart.snoc (.futex hr (.again hne))
    refine ⟨_, _, hagain.snoc (.futexEnd (Function.update_self _ _ _) (.changed hne)), by simp, ?_⟩
    exact Function.update_self _ _ _

/-- **No wake is lost.** In every run in which no `futex_wake` failed:
whoever sleeps when no writer stands between its bump and its wake has compared with the current serial;
a waiter behind the serial can always get to return it, after the wake of such a writer if it sleeps; and
a serial that `wait` returns differs from the one it compared with and was the serial at some moment since
the call. -/
theorem no_lost_wakeup (h : Run H s) (hwake : ∀ i, .wakeFails i ∉ H) :
    (∀ j old, s.waiter j = .waiting old .asleep → (∀ i, s.writer i ≠ .bumped) →
      old = serialAfter H) ∧
    (∀ j old f, s.waiter j = .waiting old f → old ≠ serialAfter H → ∃ L s', RunFrom s L s' ∧
      (∀ x ∈ L, x = .tau ∨ ∃ i, x = .wake i) ∧
      s'.waiter j = .returning old (some (serialAfter H))) ∧
    (∀ j old n, s.waiter j = .returning old (some n) → Fresh H j old n) := by
  have hinv := h.inv
  refine ⟨fun j old hj hidle => ?_, fun j old f hj hne => ?_, hinv.fresh⟩
  · rcases hinv.asleep j old hj with ho | ⟨i, hi⟩ | ⟨i, hi⟩
    · exact ho.trans hinv.word
    · exact absurd hi (hidle i)
    · exact absurd hi (hwake i)
  · rw [← hinv.word] at hne ⊢
    by_cases hf : f = .asleep
    · subst hf
      rcases hinv.asleep j old hj with ho | ⟨i, hi⟩ | ⟨i, hi⟩
      · exact absurd ho hne
      · -- the wake that is owed comes first
        have hstart : RunFrom s [] s := .start rfl
        have hwoken := hstart.snoc (.wake hi)
        have hj' : (s.waiter j).awake = .waiting old .woken := by rw [hj, Waiter.awake]
        obtain ⟨L, s', hL, htau, hs'⟩ := @exists_return
          ⟨s.word, Function.update s.writer i .idle, fun j => (s.waiter j).awake⟩ j old .woken hj'
          (by simp) (Ne.symm hne)
        refine ⟨_, s', hwoken.append hL, fun x hx => ?_, hs'⟩
        rcases List.mem_append.mp hx with hx | hx
        · exact .inr ⟨i, by simpa using hx⟩
        · exact .inl (htau x hx)
      · exact absurd hi (hwake i)
    · obtain ⟨L, s', hL, htau, hs'⟩ := exists_return hj hf (Ne.symm hne)
      exact ⟨L, s', hL, fun x hx => .inl (htau x hx), hs'⟩

/-- A waiter without a serial sleeps, and a writer has bumped the serial but woken nobody yet. -/
theorem no_lost_wakeup_sample : ∃ H s, Run H s ∧ s.waiter 0 = .waiting 0 .asleep ∧
    ∃ L s', RunFrom s L s' ∧ (∀ x ∈ L, x = .tau ∨ ∃ i, x = .wake i) ∧
      s'.waiter 0 = .returning 0 (some 1) := by
  have hinit : Run [] ⟨0, fun _ => .idle, fun _ => .idle⟩ :=
    .start ⟨rfl, fun _ => rfl, fun _ => rfl⟩
  have hcall := hinit.snoc (.call (j := 0) rfl none)
  have hload := hcall.snoc (.load (Function.update_self _ _ _))
  have hsleep := hload.snoc (.futex (Function.update_self _ _ _) (.sleep rfl))
  have hchange := hsleep.snoc (.change (i := 0) rfl)
  have hbump := hchange.snoc (.bump (Function.update_self _ _ _))
  exact ⟨_, _, hbump, rfl,
    (no_lost_wakeup hbump (by simp)).2.1 0 0 .asleep rfl (by decide)⟩

end RsProperties.GlobalWait
