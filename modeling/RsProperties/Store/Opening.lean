import RsProperties.Errors
import RsProperties.Library.RwLock
import RsProperties.Library.Trace

/-!
# Opening a context's area

`ContextNode` keeps the area of a context behind a reader–writer lock and maps its file when it is first
needed: read-write in `open`, read-only on the first read. Any number of threads share the node. The read
path looks under a read lock, then fills the slot under the write lock, and takes a read lock again for the
guard it returns; each is a step, and other threads may come in between.

What the guards rely on is that a filled slot is never emptied or refilled. So a guard is always one of a
mapped area, all guards ever handed out are guards of the same mapping, and the file is mapped at most once:
a reader that comes first takes the node away from writers for good.
-/

namespace RsProperties.Opening

open ByteMem RwLock

/-! ### The node -/

/-- What a context node is created with. -/
structure ContextNode where
  accessRw : Bool
  filename : Bytes

namespace ContextNode

variable (node : ContextNode)

def openDenied : Error :=
  .permissionDenied s!"open() requires access_rw == true: \"{display node.filename}\""

def alreadyReadOnly : Error :=
  .alreadyInitialized s!"property area already mapped read-only: \"{display node.filename}\""

def notOpened : Error :=
  .permissionDenied s!"property area not opened read-write: \"{display node.filename}\""

end ContextNode

/-- `lock_err("write")` of a poisoned lock. -/
def lockErr : Error :=
  .lock "Failed to acquire write lock on property area: poisoned lock: another task failed inside"

/-- A mapping of the area file; `id` tells the mappings of a node apart. -/
structure Mapping where
  id : ℕ
  writable : Bool
  deriving DecidableEq

/-- Where a thread is. -/
inductive Phase
  | idle
  /-- In `property_area`: at the read lock of the fast path, and with it. -/
  | reading
  | probing
  /-- At the write lock of the slow path, with it, and in `new_ro`. -/
  | missed
  | filling
  | mappingRo
  /-- At the second read lock, and with it. -/
  | filled
  | wrapping
  /-- The caller has a `PropertyAreaGuard`. -/
  | guard
  /-- In `open`: at the write lock, with it, in `new_rw`, and behind it. -/
  | opening
  | openHeld
  | mappingRw
  | openDone
  /-- In `property_area_mut`: at the write lock, and with it. -/
  | mutating
  | checking
  /-- The caller has a `PropertyAreaMutGuard`. -/
  | mutGuard
  /-- A guard was taken of an empty slot. -/
  | crashed
  deriving DecidableEq

/-- The lock a thread holds. -/
def Phase.mode : Phase → Option Mode
  | .probing | .wrapping | .guard => some .read
  | .filling | .mappingRo | .openHeld | .mappingRw | .openDone | .checking | .mutGuard => some .write
  | _ => none

/-- A node in use; `created` counts its mappings. -/
structure State where
  slot : Option Mapping
  poisoned : Bool
  created : ℕ
  threads : ℕ → Phase

namespace State

def holder (s : State) : ℕ → Option Mode := fun i => (s.threads i).mode

def setPhase (s : State) (i : ℕ) (p : Phase) : State :=
  { s with threads := Function.update s.threads i p }

end State

inductive Call
  | propertyArea
  | openRw
  | propertyAreaMut
  deriving DecidableEq

/-- How a call ends. -/
inductive Outcome
  | guard
  | mutGuard
  | opened
  | failed (e : Error)
  deriving DecidableEq

inductive Event
  | call (i : ℕ) (c : Call)
  | mapped (i : ℕ) (m : Mapping)
  | returned (i : ℕ) (o : Outcome)
  /-- The caller uses the area behind its guard. -/
  | used (i : ℕ) (m : Mapping)
  | usedMut (i : ℕ) (m : Mapping)
  | panicked (i : ℕ)
  | tau
  deriving DecidableEq

/-! ### Steps -/

/-- The moves of a thread that leave the slot alone. The read path ignores the poison of a lock. -/
inductive Move (node : ContextNode) (s : State) (i : ℕ) : Phase → Event → Phase → Prop
  | callArea : Move node s i .idle (.call i .propertyArea) .reading
  | probe (h : Granted s.holder .read) : Move node s i .reading .tau .probing
  | hit {m : Mapping} (h : s.slot = some m) : Move node s i .probing (.returned i .guard) .guard
  | miss (h : s.slot = none) : Move node s i .probing .tau .missed
  | fill (h : Granted s.holder .write) : Move node s i .missed .tau .filling
  | fillAlready {m : Mapping} (h : s.slot = some m) : Move node s i .filling .tau .filled
  | fillNew (h : s.slot = none) : Move node s i .filling .tau .mappingRo
  | fillFails (e : Error) : Move node s i .mappingRo (.returned i (.failed e)) .idle
  | reread (h : Granted s.holder .read) : Move node s i .filled .tau .wrapping
  | wrap {m : Mapping} (h : s.slot = some m) : Move node s i .wrapping (.returned i .guard) .guard
  | wrapEmpty (h : s.slot = none) : Move node s i .wrapping (.panicked i) .crashed
  | use {m : Mapping} (h : s.slot = some m) : Move node s i .guard (.used i m) .guard
  | useEmpty (h : s.slot = none) : Move node s i .guard (.panicked i) .crashed
  | drop : Move node s i .guard .tau .idle
  | callOpen : Move node s i .idle (.call i .openRw) .opening
  | openDenied (h : node.accessRw = false) :
      Move node s i .opening (.returned i (.failed node.openDenied)) .idle
  | openPoisoned (h : node.accessRw = true) (hg : Granted s.holder .write) (hp : s.poisoned = true) :
      Move node s i .opening (.returned i (.failed lockErr)) .idle
  | openLock (h : node.accessRw = true) (hg : Granted s.holder .write) (hp : s.poisoned = false) :
      Move node s i .opening .tau .openHeld
  | openAlready {m : Mapping} (h : s.slot = some m) (hw : m.writable = true) :
      Move node s i .openHeld (.returned i .opened) .idle
  | openReadOnly {m : Mapping} (h : s.slot = some m) (hw : m.writable = false) :
      Move node s i .openHeld (.returned i (.failed node.alreadyReadOnly)) .idle
  | openNew (h : s.slot = none) : Move node s i .openHeld .tau .mappingRw
  | openFails (e : Error) : Move node s i .mappingRw (.returned i (.failed e)) .idle
  | openReturns : Move node s i .openDone (.returned i .opened) .idle
  | callMut : Move node s i .idle (.call i .propertyAreaMut) .mutating
  | mutPoisoned (hg : Granted s.holder .write) (hp : s.poisoned = true) :
      Move node s i .mutating (.returned i (.failed lockErr)) .idle
  | mutLock (hg : Granted s.holder .write) (hp : s.poisoned = false) :
      Move node s i .mutating .tau .checking
  | mutOk {m : Mapping} (h : s.slot = some m) (hw : m.writable = true) :
      Move node s i .checking (.returned i .mutGuard) .mutGuard
  | mutDenied (h : ∀ m, s.slot = some m → m.writable = false) :
      Move node s i .checking (.returned i (.failed node.notOpened)) .idle
  | useMut {m : Mapping} (h : s.slot = some m) : Move node s i .mutGuard (.usedMut i m) .mutGuard
  | useMutEmpty (h : s.slot = none) : Move node s i .mutGuard (.panicked i) .crashed
  | dropMut : Move node s i .mutGuard .tau .idle

inductive Step (node : ContextNode) : State → Event → State → Prop
  | move {s : State} {i : ℕ} {x : Event} {p : Phase} (h : Move node s i (s.threads i) x p) :
      Step node s x (s.setPhase i p)
  /-- `new_ro` or `new_rw` succeeds, and the slot is filled. -/
  | map {s : State} {i : ℕ} {p : Phase} {m : Mapping}
      (h : s.threads i = .mappingRo ∧ p = .filled ∧ m = ⟨s.created, false⟩ ∨
        s.threads i = .mappingRw ∧ p = .openDone ∧ m = ⟨s.created, true⟩) :
      Step node s (.mapped i m)
        { s.setPhase i p with slot := some m, created := s.created + 1 }
  /-- A panic anywhere in a call unwinds it; with the write lock held, it poisons the lock. -/
  | panic {s : State} {i : ℕ} (hidle : s.threads i ≠ .idle) (hcrash : s.threads i ≠ .crashed) :
      Step node s (.panicked i)
        { s.setPhase i .idle with poisoned := s.poisoned || (s.threads i).mode == some .write }

/-- A node nobody has used. -/
def Init (s : State) : Prop := s.slot = none ∧ s.poisoned = false ∧ ∀ i, s.threads i = .idle

/-- The runs of the threads on a node. -/
def Run (node : ContextNode) : List Event → State → Prop := Trace.Run Init (Step node)

/-- The mappings made in a run, in order. -/
def mappings (H : List Event) : List Mapping :=
  H.filterMap fun
    | .mapped _ m => some m
    | _ => none

/-! ### The invariant -/

/-- What the slot holds while a thread is in a phase. -/
def PhaseOk (node : ContextNode) (slot : Option Mapping) : Phase → Prop
  | .filled | .wrapping | .guard => slot ≠ none
  | .mappingRo => slot = none
  | .openHeld => node.accessRw = true
  | .mappingRw => slot = none ∧ node.accessRw = true
  | .openDone | .mutGuard => ∃ m, slot = some m ∧ m.writable = true
  | .crashed => False
  | _ => True

/-- What an event says of the slot from then on. -/
def EventOk (slot : Option Mapping) : Event → Prop
  | .used _ m => slot = some m
  | .usedMut _ m => slot = some m ∧ m.writable = true
  | .returned _ .opened => ∃ m, slot = some m ∧ m.writable = true
  | _ => True

structure Inv (node : ContextNode) (H : List Event) (s : State) : Prop where
  exclusive : Exclusive s.holder
  phase : ∀ i, PhaseOk node s.slot (s.threads i)
  events : ∀ x ∈ H, EventOk s.slot x
  mappings_eq : mappings H = s.slot.toList
  access : ∀ m, s.slot = some m → m.writable = true → node.accessRw = true

variable {node : ContextNode} {H : List Event} {s s' : State} {i : ℕ} {p q : Phase} {x : Event}

theorem holder_setPhase (s : State) (i : ℕ) (p : Phase) :
    (s.setPhase i p).holder = Function.update s.holder i p.mode := by
  funext j
  simp only [State.holder, State.setPhase, Function.update_apply]
  split_ifs <;> rfl

/-- A thread that moves keeps its lock, gives it up, or has been granted it. -/
theorem Move.granted (h : Move node s i p x q) (mode : Mode) (hq : q.mode = some mode) :
    p.mode = some mode ∨ Granted s.holder mode := by
  cases h <;> cases hq <;> first | exact .inl rfl | exact .inr ‹_›

/-- The slot is what the phase a thread moves to relies on. -/
theorem Move.phaseOk (h : Move node s i p x q) (hp : PhaseOk node s.slot p) :
    PhaseOk node s.slot q := by
  cases h with
  | fillNew hs => exact hs
  | openNew hs => exact ⟨hs, hp⟩
  | openLock ha => exact ha
  | mutOk hs hw => exact ⟨_, hs, hw⟩
  | wrapEmpty hs => exact hp hs
  | useEmpty hs => exact hp hs
  | useMutEmpty hs =>
    obtain ⟨m, hm, -⟩ := hp
    rw [hs] at hm
    cases hm
  | _ => simp_all [PhaseOk]

theorem Move.eventOk (h : Move node s i p x q) (hp : PhaseOk node s.slot p) :
    EventOk s.slot x ∧ mappings [x] = [] := by
  cases h with
  | useMut hs =>
    obtain ⟨m, hm, hw⟩ := hp
    obtain rfl := Option.some.inj (hs.symm.trans hm)
    exact ⟨⟨hs, hw⟩, rfl⟩
  | use hs => exact ⟨hs, rfl⟩
  | openAlready hs hw => exact ⟨⟨_, hs, hw⟩, rfl⟩
  | openReturns => exact ⟨hp, rfl⟩
  | _ => exact ⟨trivial, rfl⟩

/-- A slot that is filled suits every thread without the lock. -/
theorem PhaseOk.fill (h : PhaseOk node none p) (hp : p.mode = none) (m : Mapping) :
    PhaseOk node (some m) p := by
  cases p <;> trivial

/-- Nothing has been handed out of an empty slot. -/
theorem EventOk.fill (h : EventOk none x) (m : Mapping) : EventOk (some m) x := by
  cases x with
  | used j m' => cases h
  | usedMut j m' => cases h.1
  | returned j o =>
    cases o with
    | opened =>
      obtain ⟨m', hm, -⟩ := h
      cases hm
    | _ => trivial
  | _ => trivial

theorem mappings_append (H H' : List Event) : mappings (H ++ H') = mappings H ++ mappings H' :=
  List.filterMap_append

theorem Inv.setPhase (h : Inv node H s) (hmode : ∀ mode, p.mode = some mode →
      (s.threads i).mode = some mode ∨ Granted s.holder mode)
    (hp : PhaseOk node s.slot p) (hx : EventOk s.slot x ∧ mappings [x] = []) :
    Inv node (H ++ [x]) (s.setPhase i p) where
  exclusive := by
    rw [holder_setPhase]
    refine h.exclusive.update fun mode hm => (hmode mode hm).imp_left fun hi => ?_
    rw [hm]
    exact hi
  phase j := by
    simp only [State.setPhase, Function.update_apply]
    split_ifs with hj
    · exact hp
    · exact h.phase j
  events y hy := by
    rcases List.mem_append.mp hy with hy | hy
    · exact h.events y hy
    · rw [List.mem_singleton.mp hy]
      exact hx.1
  mappings_eq := by
    rw [mappings_append, hx.2, List.append_nil]
    exact h.mappings_eq
  access := h.access

/-- **The slot is filled**: only the thread that holds the write lock for it can be mapping the file. -/
theorem Inv.map (h : Inv node H s) {m : Mapping} (hw : (s.threads i).mode = some .write)
    (hnone : s.slot = none) (hmode : p.mode = none ∨ p.mode = some .write)
    (hp : PhaseOk node (some m) p) (ha : m.writable = true → node.accessRw = true) {n : ℕ} :
    Inv node (H ++ [.mapped i m]) { s.setPhase i p with slot := some m, created := n } where
  exclusive := by
    change Exclusive (s.setPhase i p).holder
    rw [holder_setPhase]
    refine h.exclusive.update fun mode hm => .inl ?_
    rcases hmode with hm' | hm'
    · rw [hm'] at hm
      cases hm
    · exact hw.trans hm'.symm
  phase j := by
    simp only [State.setPhase, Function.update_apply]
    split_ifs with hj
    · exact hp
    · exact (hnone ▸ h.phase j).fill (h.exclusive i hw j hj) m
  events y hy := by
    rcases List.mem_append.mp hy with hy | hy
    · exact (hnone ▸ h.events y hy).fill m
    · rw [List.mem_singleton.mp hy]
      trivial
  mappings_eq := by
    rw [mappings_append, h.mappings_eq, hnone]
    rfl
  access m' hm' hw' := by
    obtain rfl := Option.some.inj hm'
    exact ha hw'

theorem Inv.step (h : Inv node H s) (hs : Step node s x s') : Inv node (H ++ [x]) s' := by
  cases hs with
  | @move i _ p hm => exact h.setPhase hm.granted (hm.phaseOk (h.phase i)) (hm.eventOk (h.phase i))
  | @map i p m hm =>
    have hi := h.phase i
    rcases hm with ⟨hph, rfl, rfl⟩ | ⟨hph, rfl, rfl⟩
    · rw [hph] at hi
      exact h.map (by rw [hph]; rfl) hi (.inl rfl) (by simp [PhaseOk]) (by simp)
    · rw [hph] at hi
      have hdone : PhaseOk node (some ⟨s.created, true⟩) .openDone := ⟨_, rfl, rfl⟩
      exact h.map (by rw [hph]; rfl) hi.1 (.inr rfl) hdone fun _ => hi.2
  | @panic i _ _ =>
    have hmode : ∀ mode, Phase.idle.mode = some mode →
        (s.threads i).mode = some mode ∨ Granted s.holder mode := by
      intro mode hm
      cases hm
    obtain ⟨h1, h2, h3, h4, h5⟩ := h.setPhase (x := .panicked i) hmode trivial ⟨trivial, rfl⟩
    exact ⟨h1, h2, h3, h4, h5⟩

theorem Run.inv (h : Run node H s) : Inv node H s := by
  refine Trace.Run.invariant (fun s hs => ?_) (fun H s x s' hi hst => hi.step hst) h
  obtain ⟨hslot, -, hidle⟩ := hs
  refine ⟨exclusive_of_free fun i => ?_, fun i => ?_, by simp, by rw [hslot]; rfl, ?_⟩
  · rw [State.holder, hidle i]
    rfl
  · rw [hidle i]
    trivial
  · rw [hslot]
    simp

/-! ### Every call can return -/

/-- What ends the calls and the guards there are: no new call, no panic and no further use of a guard. -/
def Event.Progress : Event → Prop
  | .mapped _ _ | .returned _ _ | .tau => True
  | _ => False

/-- The thread is in a call. -/
def Phase.InCall : Phase → Prop
  | .idle | .guard | .mutGuard | .crashed => False
  | _ => True

/-- The steps a thread has left at most, before it is idle again. -/
def Phase.left : Phase → ℕ
  | .idle | .crashed => 0
  | .guard | .openDone | .mutGuard => 1
  | .wrapping | .mappingRw | .checking => 2
  | .filled | .openHeld | .mutating => 3
  | .mappingRo | .opening => 4
  | .filling => 5
  | .missed => 6
  | .probing => 7
  | .reading => 8

/-- A step of the thread on its way to the end of its call and of its guard. -/
structure Goes (node : ContextNode) (s : State) (i : ℕ) (x : Event) (s' : State) : Prop where
  step : Step node s x s'
  progress : x.Progress
  others : ∀ j, j ≠ i → s'.threads j = s.threads j
  left : (s'.threads i).left < (s.threads i).left
  call : (s.threads i).InCall → (∃ o, x = .returned i o) ∨ (s'.threads i).InCall

theorem Goes.holder (h : Goes node s i x s') {j : ℕ} (hj : j ≠ i) : s'.holder j = s.holder j :=
  congrArg Phase.mode (h.others j hj)

theorem Goes.of_move (hp : s.threads i = p) (hm : Move node s i p x q) (hx : x.Progress)
    (hl : q.left < p.left) (hc : p.InCall → (∃ o, x = .returned i o) ∨ q.InCall) :
    Goes node s i x (s.setPhase i q) := by
  subst hp
  refine ⟨.move hm, hx, fun j hj => Function.update_of_ne hj _ _, ?_, ?_⟩
  · simpa [State.setPhase] using hl
  · simpa [State.setPhase] using hc

/-- The file is mapped. -/
theorem Goes.of_map {m : Mapping} (h : s.threads i = .mappingRo ∧ p = .filled ∧ m = ⟨s.created, false⟩ ∨
      s.threads i = .mappingRw ∧ p = .openDone ∧ m = ⟨s.created, true⟩) :
    ∃ x s', Goes node s i x s' := by
  refine ⟨_, _, .map h, trivial, fun j hj => Function.update_of_ne hj _ _, ?_, fun _ => .inr ?_⟩
  · rcases h with ⟨hp, rfl, -⟩ | ⟨hp, rfl, -⟩ <;> simp [State.setPhase, hp, Phase.left]
  · rcases h with ⟨-, rfl, -⟩ | ⟨-, rfl, -⟩ <;> simp [State.setPhase, Phase.InCall]

/-- **A thread with the lock goes on**, and one without it where nobody holds it. -/
theorem Inv.goes (h : Inv node H s) (hi : s.threads i ≠ .idle)
    (hlock : s.holder i ≠ none ∨ ∀ j, s.holder j = none) : ∃ x s', Goes node s i x s' := by
  have hok := h.phase i
  -- a thread at the lock does not hold it
  have free : (s.threads i).mode = none → ∀ j, s.holder j = none := fun hm =>
    hlock.resolve_left fun hne => hne hm
  have read : (∀ j, s.holder j = none) → Granted s.holder .read := fun hf j => by simp [hf j]
  have moves : ∀ {p q}, s.threads i = p → Move node s i p .tau q → q.left < p.left →
      (p.InCall → q.InCall) → ∃ x s', Goes node s i x s' := fun hp hm hl hc =>
    ⟨_, _, .of_move hp hm trivial hl fun h => .inr (hc h)⟩
  have returns : ∀ {p q o}, s.threads i = p → Move node s i p (.returned i o) q → q.left < p.left →
      ∃ x s', Goes node s i x s' := fun hp hm hl =>
    ⟨_, _, .of_move hp hm trivial hl fun _ => .inl ⟨_, rfl⟩⟩
  cases hp : s.threads i with
  | idle => exact absurd hp hi
  | reading =>
    exact moves hp (.probe (read (free (by rw [hp]; rfl)))) (by decide) fun _ => trivial
  | probing =>
    cases hs : s.slot with
    | none => exact moves hp (.miss hs) (by decide) fun _ => trivial
    | some m => exact returns hp (.hit hs) (by decide)
  | missed =>
    exact moves hp (.fill (free (by rw [hp]; rfl))) (by decide) fun _ => trivial
  | filling =>
    cases hs : s.slot with
    | none => exact moves hp (.fillNew hs) (by decide) fun _ => trivial
    | some m => exact moves hp (.fillAlready hs) (by decide) fun _ => trivial
  | mappingRo => exact Goes.of_map (.inl ⟨hp, rfl, rfl⟩)
  | filled =>
    exact moves hp (.reread (read (free (by rw [hp]; rfl)))) (by decide) fun _ => trivial
  | wrapping =>
    rw [hp] at hok
    obtain ⟨m, hs⟩ := Option.ne_none_iff_exists'.mp hok
    exact returns hp (.wrap hs) (by decide)
  | guard => exact moves hp .drop (by decide) id
  | opening =>
    cases ha : node.accessRw with
    | false => exact returns hp (.openDenied ha) (by decide)
    | true =>
      have hf := free (by rw [hp]; rfl)
      cases hpo : s.poisoned with
      | false => exact moves hp (.openLock ha hf hpo) (by decide) fun _ => trivial
      | true => exact returns hp (.openPoisoned ha hf hpo) (by decide)
  | openHeld =>
    cases hs : s.slot with
    | none => exact moves hp (.openNew hs) (by decide) fun _ => trivial
    | some m =>
      cases hw : m.writable with
      | false => exact returns hp (.openReadOnly hs hw) (by decide)
      | true => exact returns hp (.openAlready hs hw) (by decide)
  | mappingRw => exact Goes.of_map (.inr ⟨hp, rfl, rfl⟩)
  | openDone => exact returns hp .openReturns (by decide)
  | mutating =>
    have hf := free (by rw [hp]; rfl)
    cases hpo : s.poisoned with
    | false => exact moves hp (.mutLock hf hpo) (by decide) fun _ => trivial
    | true => exact returns hp (.mutPoisoned hf hpo) (by decide)
  | checking =>
    by_cases hw : ∃ m, s.slot = some m ∧ m.writable = true
    · obtain ⟨m, hs, hw⟩ := hw
      exact returns hp (.mutOk hs hw) (by decide)
    · refine returns hp (.mutDenied fun m hs => ?_) (by decide)
      by_contra hne
      exact hw ⟨m, hs, by simpa using hne⟩
  | mutGuard => exact moves hp .dropMut (by decide) id
  | crashed =>
    rw [hp] at hok
    exact hok.elim

/-- The runs that go on from a state without new calls, panics and further uses of guards. -/
def Settles (node : ContextNode) (s : State) (L : List Event) (s' : State) : Prop :=
  Trace.Run (· = s) (Step node) L s' ∧ ∀ x ∈ L, x.Progress

theorem Settles.refl (s : State) : Settles node s [] s := ⟨.start rfl, by simp⟩

theorem Settles.trans {L L' : List Event} {t : State} (h : Settles node s L t)
    (h' : Settles node t L' s') : Settles node s (L ++ L') s' :=
  ⟨h.1.append h'.1, fun x hx => (List.mem_append.mp hx).elim (h.2 x) (h'.2 x)⟩

theorem Goes.settles (h : Goes node s i x s') : Settles node s [x] s' := by
  have hstart : Trace.Run (· = s) (Step node) [] s := .start rfl
  exact ⟨hstart.snoc h.step, fun y hy => List.mem_singleton.mp hy ▸ h.progress⟩

theorem Settles.run {L : List Event} (h : Settles node s L s') (hr : Run node H s) :
    Run node (H ++ L) s' := Trace.Run.append hr h.1

/-- A thread gives its lock back. -/
theorem Run.exists_released (h : Run node H s) (j : ℕ) : ∃ L s', Settles node s L s' ∧
    s'.holder j = none ∧ ∀ k, k ≠ j → s'.threads k = s.threads k := by
  induction hn : (s.threads j).left using Nat.strong_induction_on generalizing H s with
  | _ n ih =>
    by_cases hj : s.holder j = none
    · exact ⟨[], s, .refl s, hj, fun _ _ => rfl⟩
    · have hidle : s.threads j ≠ .idle := fun hi => hj (by rw [State.holder, hi]; rfl)
      obtain ⟨x, t, hgo⟩ := h.inv.goes hidle (.inl hj)
      obtain ⟨L, s', hL, hfree, hother⟩ :=
        ih _ (hn ▸ hgo.left) (hgo.settles.run h) rfl
      exact ⟨_, s', hgo.settles.trans hL, hfree, fun k hk => (hother k hk).trans (hgo.others k hk)⟩

/-- All threads but one give their locks back. -/
theorem Run.exists_alone (h : Run node H s) (i n : ℕ)
    (hn : ∀ j, n ≤ j → j ≠ i → s.holder j = none) : ∃ L s', Settles node s L s' ∧
      s'.threads i = s.threads i ∧ ∀ j, j ≠ i → s'.holder j = none := by
  induction n generalizing H s with
  | zero => exact ⟨[], s, .refl s, rfl, fun j => hn j (Nat.zero_le j)⟩
  | succ n ih =>
    by_cases hni : n = i
    · refine ih h fun j hj hji => hn j ?_ hji
      omega
    · obtain ⟨L, t, hL, hfree, hother⟩ := h.exists_released n
      obtain ⟨L', s', hL', hi, halone⟩ := ih (hL.run h) fun j hj hji => by
        by_cases hjn : j = n
        · rwa [hjn]
        · rw [State.holder, hother j hjn]
          exact hn j (by omega) hji
      exact ⟨_, s', hL.trans hL', hi.trans (hother i (Ne.symm hni)), halone⟩

/-- Only finitely many threads have used the node. -/
theorem Run.exists_idle (h : Run node H s) : ∃ n, ∀ j, n ≤ j → s.threads j = .idle := by
  refine Trace.Run.invariant (I := fun _ s => ∃ n, ∀ j, n ≤ j → s.threads j = .idle)
    (fun s h0 => ⟨0, fun j _ => h0.2.2 j⟩) (fun H s x s' ⟨n, hn⟩ hs => ?_) h
  have update : ∀ i p, ∃ n, ∀ j, n ≤ j → (s.setPhase i p).threads j = .idle := by
    intro i p
    refine ⟨max n (i + 1), fun j hj => ?_⟩
    have hji : j ≠ i := by omega
    exact (Function.update_of_ne hji _ _).trans (hn j (by omega))
  cases hs with
  | move => exact update _ _
  | map => exact update _ _
  | panic => exact update _ _

/-- Alone at the lock, a call returns. -/
theorem Run.exists_return (h : Run node H s) (hc : (s.threads i).InCall)
    (halone : ∀ j, j ≠ i → s.holder j = none) :
    ∃ L s' o, Settles node s L s' ∧ .returned i o ∈ L := by
  induction hn : (s.threads i).left using Nat.strong_induction_on generalizing H s with
  | _ n ih =>
    have hlock : s.holder i ≠ none ∨ ∀ j, s.holder j = none := by
      refine or_iff_not_imp_left.mpr fun hi j => ?_
      by_cases hj : j = i
      · exact hj ▸ not_not.mp hi
      · exact halone j hj
    have hidle : s.threads i ≠ .idle := fun hi => by rw [hi] at hc; exact hc
    obtain ⟨x, t, hgo⟩ := h.inv.goes hidle hlock
    rcases hgo.call hc with ⟨o, rfl⟩ | hc'
    · exact ⟨_, t, o, hgo.settles, List.mem_singleton.mpr rfl⟩
    · obtain ⟨L, s', o, hL, hm⟩ := ih _ (hn ▸ hgo.left) (hgo.settles.run h) hc'
        (fun j hj => (hgo.holder hj).trans (halone j hj)) rfl
      exact ⟨_, s', o, hgo.settles.trans hL, List.mem_append_right _ hm⟩

/-- **Every call can return**: the others end their calls and drop their guards, as far as they hold the lock,
and then it goes on by itself. -/
theorem Run.call_returns (h : Run node H s) (hc : (s.threads i).InCall) :
    ∃ L s' o, Settles node s L s' ∧ .returned i o ∈ L := by
  obtain ⟨n, hn⟩ := h.exists_idle
  obtain ⟨L, t, hL, hi, halone⟩ := h.exists_alone i n fun j hj _ => by
    rw [State.holder, hn j hj]
    rfl
  obtain ⟨L', s', o, hL', hm⟩ := (hL.run h).exists_return (hi ▸ hc) halone
  exact ⟨_, s', o, hL.trans hL', List.mem_append_right _ hm⟩

/-- **A context node is opened once.** However its threads interleave, fail and panic: no guard is ever one
of an empty slot; the file is mapped at most once, and every guard, whenever it was handed out, is one of
that mapping; a mut guard, or an `open` that returned `Ok`, is one of a writable mapping, which only a node
with write access has; a thread that maps the file or has a mut guard is alone with the lock; and from
every state every call can return, without new calls and panics, once the guards in its way are dropped. -/
theorem opened_once (h : Run node H s) :
    (∀ i, s.threads i ≠ .crashed) ∧
    mappings H = s.slot.toList ∧
    (∀ i m, .used i m ∈ H → s.slot = some m) ∧
    (∀ i m, .usedMut i m ∈ H → s.slot = some m ∧ m.writable = true) ∧
    (∀ i, .returned i .opened ∈ H → ∃ m, s.slot = some m ∧ m.writable = true) ∧
    (∀ m, s.slot = some m → m.writable = true → node.accessRw = true) ∧
    (∀ i, s.threads i = .mappingRo ∨ s.threads i = .mappingRw ∨ s.threads i = .mutGuard →
      ∀ j, j ≠ i → s.holder j = none) ∧
    ∀ i, (s.threads i).InCall → ∃ L s' o, Settles node s L s' ∧ .returned i o ∈ L := by
  have hinv := h.inv
  refine ⟨fun i hc => ?_, hinv.mappings_eq, fun i m hm => hinv.events _ hm,
    fun i m hm => hinv.events _ hm, fun i hm => hinv.events _ hm, hinv.access, fun i hi => ?_,
    fun i hc => h.call_returns hc⟩
  · have hok := hinv.phase i
    rw [hc] at hok
    exact hok
  · refine hinv.exclusive i ?_
    rcases hi with hi | hi | hi <;> rw [State.holder, hi] <;> rfl

/-- Two threads on a node. -/
private def pair (slot : Option Mapping) (created : ℕ) (p q : Phase) : State where
  slot := slot
  poisoned := false
  created := created
  threads
    | 0 => p
    | 1 => q
    | _ => .idle

private theorem pair_setPhase_zero (slot : Option Mapping) (n : ℕ) (p q p' : Phase) :
    (pair slot n p q).setPhase 0 p' = pair slot n p' q := by
  have hthreads : Function.update (pair slot n p q).threads 0 p' = (pair slot n p' q).threads := by
    funext i
    match i with
    | 0 => rfl
    | 1 => rfl
    | _ + 2 => rfl
  rw [State.setPhase, hthreads]
  rfl

private theorem pair_setPhase_one (slot : Option Mapping) (n : ℕ) (p q q' : Phase) :
    (pair slot n p q).setPhase 1 q' = pair slot n p q' := by
  have hthreads : Function.update (pair slot n p q).threads 1 q' = (pair slot n p q').threads := by
    funext i
    match i with
    | 0 => rfl
    | 1 => rfl
    | _ + 2 => rfl
  rw [State.setPhase, hthreads]
  rfl

private theorem granted_pair (slot : Option Mapping) (n : ℕ) (hp : p.mode = none)
    (hq : q.mode = none) (mode : Mode) : Granted (pair slot n p q).holder mode := by
  have hfree : ∀ i, (pair slot n p q).holder i = none
    | 0 => hp
    | 1 => hq
    | _ + 2 => rfl
  cases mode with
  | read => exact fun i => by simp [hfree i]
  | write => exact hfree

/-- A reader and a writer that meet at an empty slot: the reader finds it empty, the writer maps the file, and
the reader's guard is one of the writer's mapping. -/
theorem opened_once_race : ∃ H s, Run ⟨true, []⟩ H s ∧ .used 0 ⟨0, true⟩ ∈ H ∧
    s.slot = some ⟨0, true⟩ := by
  have move₀ : ∀ {H slot n p q x p'}, Run ⟨true, []⟩ H (pair slot n p q) →
      Move ⟨true, []⟩ (pair slot n p q) 0 p x p' → Run ⟨true, []⟩ (H ++ [x]) (pair slot n p' q) :=
    fun h hm => pair_setPhase_zero _ _ _ _ _ ▸ h.snoc (.move (i := 0) hm)
  have move₁ : ∀ {H slot n p q x q'}, Run ⟨true, []⟩ H (pair slot n p q) →
      Move ⟨true, []⟩ (pair slot n p q) 1 q x q' → Run ⟨true, []⟩ (H ++ [x]) (pair slot n p q') :=
    fun h hm => pair_setPhase_one _ _ _ _ _ ▸ h.snoc (.move (i := 1) hm)
  have h0 : Run ⟨true, []⟩ [] (pair none 0 .idle .idle) := .start ⟨rfl, rfl, fun i => by
    match i with
    | 0 => rfl
    | 1 => rfl
    | _ + 2 => rfl⟩
  have h1 := move₀ (move₀ (move₀ h0 .callArea) (.probe (granted_pair _ _ rfl rfl _))) (.miss rfl)
  have h2 := move₁ (move₁ (move₁ h1 .callOpen) (.openLock rfl (granted_pair _ _ rfl rfl _) rfl))
    (.openNew rfl)
  have h3 : Run ⟨true, []⟩ _ (pair (some ⟨0, true⟩) 1 .missed .openDone) :=
    pair_setPhase_one _ _ _ _ _ ▸ h2.snoc (.map (i := 1) (.inr ⟨rfl, rfl, rfl⟩))
  have h4 := move₀ (move₀ (move₁ h3 .openReturns) (.fill (granted_pair _ _ rfl rfl _)))
    (.fillAlready rfl)
  have h5 := move₀ (move₀ (move₀ h4 (.reread (granted_pair _ _ rfl rfl _))) (.wrap rfl)) (.use rfl)
  have h6 := (opened_once h5).2.2.1 0 _ (List.mem_append_right _ (List.mem_singleton.mpr rfl))
  exact ⟨_, _, h5, List.mem_append_right _ (List.mem_singleton.mpr rfl), h6⟩

end RsProperties.Opening
