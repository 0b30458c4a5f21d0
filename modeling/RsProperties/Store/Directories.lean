import RsProperties.Errors
import RsProperties.Library.Trace

/-!
# The directory cells

The properties directory and the socket directory live in two first-write-wins cells. `try_init` sets the
ones its configuration names, `properties_dir` and `socket_dir` latch a default on first use; all three commit
under one lock, and the two readers have a lock-free fast path.

Any number of threads run any number of these calls, one step at a time: taking the lock, each look at a
cell, each store into a cell and the release are steps of their own. The lock makes the checks of `try_init`
hold until its stores, so its stores always succeed and a refused call has stored nothing.
-/

namespace RsProperties.Directories

open ByteMem

/-! ### The system -/

inductive Cell
  | properties
  | socket
  deriving DecidableEq, Repr

/-- The directories of a configuration that are present. -/
structure PropertyConfig where
  propertiesDir : Option Bytes
  socketDir : Option Bytes
  deriving DecidableEq

def propDirname : Bytes := ascii "/dev/__properties__"

def defaultSocketDir : Bytes := ascii "/dev/socket"

/-- What `get_or_init` puts into an empty cell. Only the socket directory reads its environment variable. -/
def latch (env : Option Bytes) : Cell → Bytes
  | .properties => propDirname
  | .socket => env.getD defaultSocketDir

/-- The two refusals of the checks. -/
def propertiesRefusal : Error := .alreadyInitialized
  "system properties directory (explicitly via init() or implicitly by a prior property read)"

def socketRefusal : Error := .alreadyInitialized "socket directory"

/-- The two errors of a store that finds its cell taken after the checks. -/
def propertiesRace : Error := .alreadyInitialized "system properties directory"

def socketRace : Error := .alreadyInitialized "socket directory (race after pre-check)"

/-- Where a thread is: between calls, in `try_init`, or in `properties_dir` or `socket_dir`. -/
inductive Phase
  | idle
  | initLock (config : PropertyConfig)
  | checkProperties (config : PropertyConfig)
  | checkSocket (config : PropertyConfig)
  | setProperties (config : PropertyConfig)
  | setSocket (config : PropertyConfig)
  /-- The guard is about to be dropped. -/
  | initReturn (config : PropertyConfig) (result : Except Error Unit)
  /-- The lock-free `get` of the fast path. -/
  | dirGet (cell : Cell)
  | dirLock (cell : Cell)
  | getOrInit (cell : Cell)
  | dirReturn (cell : Cell) (dir : Bytes)

/-- The phases behind the lock. -/
def Phase.holds : Phase → Bool
  | .checkProperties _ | .checkSocket _ | .setProperties _ | .setSocket _ | .initReturn _ _ => true
  | .getOrInit _ | .dirReturn _ _ => true
  | .idle | .initLock _ | .dirGet _ | .dirLock _ => false

/-- The cells, the lock and the threads. -/
structure World where
  cells : Cell → Option Bytes
  lock : Option ℕ
  phase : ℕ → Phase

def World.start : World where
  cells := fun _ => none
  lock := none
  phase := fun _ => .idle

inductive Event
  | begin (t : ℕ)
  | assign (t : ℕ) (cell : Cell) (dir : Bytes)
  /-- `properties_dir` or `socket_dir` returns. -/
  | sees (t : ℕ) (cell : Cell) (dir : Bytes)
  /-- `try_init` returns. -/
  | returned (t : ℕ) (config : PropertyConfig) (result : Except Error Unit)
  | internal (t : ℕ)

def World.goto (w : World) (t : ℕ) (p : Phase) : World :=
  { w with phase := Function.update w.phase t p }

/-- `OnceLock::set` and the store of `get_or_init` into an empty cell. -/
def World.assign (w : World) (cell : Cell) (dir : Bytes) : World :=
  { w with cells := Function.update w.cells cell (some dir) }

inductive Step : World → Event → World → Prop
  | beginInit {w : World} {t : ℕ} (config : PropertyConfig) (h : w.phase t = .idle) :
      Step w (.begin t) (w.goto t (.initLock config))
  | beginDir {w : World} {t : ℕ} (cell : Cell) (h : w.phase t = .idle) :
      Step w (.begin t) (w.goto t (.dirGet cell))
  | initLock {w : World} {t : ℕ} {config : PropertyConfig} (h : w.phase t = .initLock config)
      (hfree : w.lock = none) :
      Step w (.internal t) { w.goto t (.checkProperties config) with lock := some t }
  | checkProperties {w : World} {t : ℕ} {config : PropertyConfig}
      (h : w.phase t = .checkProperties config) :
      Step w (.internal t) (w.goto t
        (if config.propertiesDir.isSome && (w.cells .properties).isSome then
          .initReturn config (.error propertiesRefusal)
        else .checkSocket config))
  | checkSocket {w : World} {t : ℕ} {config : PropertyConfig} (h : w.phase t = .checkSocket config) :
      Step w (.internal t) (w.goto t
        (if config.socketDir.isSome && (w.cells .socket).isSome then
          .initReturn config (.error socketRefusal)
        else .setProperties config))
  | skipProperties {w : World} {t : ℕ} {config : PropertyConfig}
      (h : w.phase t = .setProperties config) (hc : config.propertiesDir = none) :
      Step w (.internal t) (w.goto t (.setSocket config))
  | setProperties {w : World} {t : ℕ} {config : PropertyConfig} {dir : Bytes}
      (h : w.phase t = .setProperties config) (hc : config.propertiesDir = some dir)
      (hfree : w.cells .properties = none) :
      Step w (.assign t .properties dir) ((w.assign .properties dir).goto t (.setSocket config))
  | raceProperties {w : World} {t : ℕ} {config : PropertyConfig} {dir old : Bytes}
      (h : w.phase t = .setProperties config) (hc : config.propertiesDir = some dir)
      (hset : w.cells .properties = some old) :
      Step w (.internal t) (w.goto t (.initReturn config (.error propertiesRace)))
  | skipSocket {w : World} {t : ℕ} {config : PropertyConfig}
      (h : w.phase t = .setSocket config) (hc : config.socketDir = none) :
      Step w (.internal t) (w.goto t (.initReturn config (.ok ())))
  | setSocket {w : World} {t : ℕ} {config : PropertyConfig} {dir : Bytes}
      (h : w.phase t = .setSocket config) (hc : config.socketDir = some dir)
      (hfree : w.cells .socket = none) :
      Step w (.assign t .socket dir) ((w.assign .socket dir).goto t (.initReturn config (.ok ())))
  | raceSocket {w : World} {t : ℕ} {config : PropertyConfig} {dir old : Bytes}
      (h : w.phase t = .setSocket config) (hc : config.socketDir = some dir)
      (hset : w.cells .socket = some old) :
      Step w (.internal t) (w.goto t (.initReturn config (.error socketRace)))
  | initReturn {w : World} {t : ℕ} {config : PropertyConfig} {result : Except Error Unit}
      (h : w.phase t = .initReturn config result) :
      Step w (.returned t config result) { w.goto t .idle with lock := none }
  | dirFast {w : World} {t : ℕ} {cell : Cell} {dir : Bytes} (h : w.phase t = .dirGet cell)
      (hset : w.cells cell = some dir) : Step w (.sees t cell dir) (w.goto t .idle)
  | dirSlow {w : World} {t : ℕ} {cell : Cell} (h : w.phase t = .dirGet cell)
      (hfree : w.cells cell = none) : Step w (.internal t) (w.goto t (.dirLock cell))
  | dirLock {w : World} {t : ℕ} {cell : Cell} (h : w.phase t = .dirLock cell) (hfree : w.lock = none) :
      Step w (.internal t) { w.goto t (.getOrInit cell) with lock := some t }
  | dirFound {w : World} {t : ℕ} {cell : Cell} {dir : Bytes} (h : w.phase t = .getOrInit cell)
      (hset : w.cells cell = some dir) : Step w (.internal t) (w.goto t (.dirReturn cell dir))
  | dirInit {w : World} {t : ℕ} {cell : Cell} (env : Option Bytes) (h : w.phase t = .getOrInit cell)
      (hfree : w.cells cell = none) :
      Step w (.assign t cell (latch env cell))
        ((w.assign cell (latch env cell)).goto t (.dirReturn cell (latch env cell)))
  | dirReturn {w : World} {t : ℕ} {cell : Cell} {dir : Bytes} (h : w.phase t = .dirReturn cell dir) :
      Step w (.sees t cell dir) { w.goto t .idle with lock := none }

/-- The runs of any number of threads from the start of the process. -/
def Run : List Event → World → Prop := Trace.Run (· = World.start) Step

/-! ### What a history says -/

/-- The stores of a thread since its current call began. -/
def storesOf (t : ℕ) (H : List Event) : List (Cell × Bytes) :=
  H.foldl (fun stores x => match x with
    | .begin u => if u = t then [] else stores
    | .assign u cell dir => if u = t then stores ++ [(cell, dir)] else stores
    | _ => stores) []

/-- The stores into a cell. -/
def storesInto (cell : Cell) (H : List Event) : List Bytes :=
  H.filterMap fun x => match x with
    | .assign _ c dir => if c = cell then some dir else none
    | _ => none

/-- The directories of a configuration, in the order they are set. -/
def PropertyConfig.dirs (config : PropertyConfig) : List (Cell × Bytes) :=
  (config.propertiesDir.map fun dir => (Cell.properties, dir)).toList ++
    (config.socketDir.map fun dir => (Cell.socket, dir)).toList

section History

variable {H : List Event} {t u : ℕ} {cell : Cell} {dir : Bytes}

theorem storesOf_begin : storesOf t (H ++ [.begin u]) = if u = t then [] else storesOf t H := by
  simp [storesOf, List.foldl_append]

theorem storesOf_assign : storesOf t (H ++ [.assign u cell dir]) =
    if u = t then storesOf t H ++ [(cell, dir)] else storesOf t H := by
  simp [storesOf, List.foldl_append]

theorem storesOf_sees : storesOf t (H ++ [.sees u cell dir]) = storesOf t H := by
  simp [storesOf, List.foldl_append]

theorem storesOf_returned {config : PropertyConfig} {result : Except Error Unit} :
    storesOf t (H ++ [.returned u config result]) = storesOf t H := by
  simp [storesOf, List.foldl_append]

theorem storesOf_internal : storesOf t (H ++ [.internal u]) = storesOf t H := by
  simp [storesOf, List.foldl_append]

/-- The stores of a call are in the history. -/
theorem mem_of_mem_storesOf (h : (cell, dir) ∈ storesOf t H) : .assign t cell dir ∈ H := by
  induction H using List.reverseRecOn with
  | nil => simp [storesOf] at h
  | append_singleton H x ih =>
    cases x with
    | begin u =>
      rw [storesOf_begin] at h
      split_ifs at h
      · simp at h
      · exact List.mem_append_left _ (ih h)
    | assign u c d =>
      rw [storesOf_assign] at h
      split_ifs at h with hu
      · rcases List.mem_append.mp h with h | h
        · exact List.mem_append_left _ (ih h)
        · obtain ⟨rfl, rfl⟩ : cell = c ∧ dir = d := by simpa using h
          simp [hu]
      · exact List.mem_append_left _ (ih h)
    | sees u c d => exact List.mem_append_left _ (ih (storesOf_sees ▸ h))
    | returned u c r => exact List.mem_append_left _ (ih (storesOf_returned ▸ h))
    | internal u => exact List.mem_append_left _ (ih (storesOf_internal ▸ h))

end History

/-- The thread of an event. -/
def Event.thread : Event → ℕ
  | .begin t => t
  | .assign t _ _ => t
  | .sees t _ _ => t
  | .returned t _ _ => t
  | .internal t => t

theorem storesOf_other {H : List Event} {t : ℕ} {x : Event} (h : x.thread ≠ t) :
    storesOf t (H ++ [x]) = storesOf t H := by
  cases x with
  | begin u => rw [storesOf_begin, if_neg (show u ≠ t from h)]
  | assign u c d => rw [storesOf_assign, if_neg (show u ≠ t from h)]
  | sees u c d => exact storesOf_sees
  | returned u c r => exact storesOf_returned
  | internal u => exact storesOf_internal

/-! ### The invariant -/

/-- What a thread knows in its phase, with the stores of its call so far. -/
def PhaseOk (cells : Cell → Option Bytes) (stores : List (Cell × Bytes)) : Phase → Prop
  | .idle | .dirGet _ | .dirLock _ | .getOrInit _ => True
  | .initLock _ | .checkProperties _ => stores = []
  | .checkSocket config =>
    stores = [] ∧ (config.propertiesDir.isSome = true → cells .properties = none)
  | .setProperties config =>
    stores = [] ∧ (config.propertiesDir.isSome = true → cells .properties = none) ∧
      (config.socketDir.isSome = true → cells .socket = none)
  | .setSocket config =>
    stores = (config.propertiesDir.map fun dir => (Cell.properties, dir)).toList ∧
      (config.socketDir.isSome = true → cells .socket = none)
  | .initReturn config result =>
    (result = .ok () → stores = config.dirs) ∧
      ∀ e, result = .error e → stores = [] ∧ (e = propertiesRefusal ∨ e = socketRefusal)
  | .dirReturn cell dir => cells cell = some dir

/-- Outside the lock a thread relies on no cell. -/
theorem PhaseOk.of_not_holds {cells cells' : Cell → Option Bytes} {stores : List (Cell × Bytes)}
    {p : Phase} (h : PhaseOk cells stores p) (hp : p.holds = false) : PhaseOk cells' stores p := by
  cases p <;> first | exact h | cases hp

/-- What an event says about the cells. -/
def Event.Recorded (cells : Cell → Option Bytes) : Event → Prop
  | .assign _ cell dir => cells cell = some dir
  | .sees _ cell dir => cells cell = some dir
  | _ => True

/-- The invariant: the lock is held by the thread whose phase says so, every thread's checks still hold, the
history is in the cells, and a cell has been stored into exactly when it is set, once. -/
structure Inv (H : List Event) (w : World) : Prop where
  lock : ∀ t, (w.phase t).holds = true ↔ w.lock = some t
  phase : ∀ t, PhaseOk w.cells (storesOf t H) (w.phase t)
  recorded : ∀ x ∈ H, x.Recorded w.cells
  once : ∀ cell, storesInto cell H = (w.cells cell).toList

theorem inv_start : Inv [] World.start :=
  ⟨by simp [World.start, Phase.holds], fun _ => trivial, by simp, fun _ => rfl⟩

/-- A cell that is set stays as it is. -/
def Kept (cells cells' : Cell → Option Bytes) : Prop :=
  ∀ cell dir, cells cell = some dir → cells' cell = some dir

theorem Event.Recorded.kept {cells cells' : Cell → Option Bytes} {x : Event} (h : x.Recorded cells)
    (hk : Kept cells cells') : x.Recorded cells' := by
  cases x with
  | assign _ cell dir => exact hk _ _ h
  | sees _ cell dir => exact hk _ _ h
  | _ => trivial

theorem kept_update {cells : Cell → Option Bytes} {cell : Cell} (dir : Bytes) (h : cells cell = none) :
    Kept cells (Function.update cells cell (some dir)) := by
  intro c d hd
  by_cases hc : c = cell
  · rw [hc, h] at hd
    cases hd
  · rwa [Function.update_of_ne hc]

/-- A step of thread `t` that stores nothing. -/
theorem Inv.quiet {H : List Event} {w : World} (h : Inv H w) {t : ℕ} {p : Phase} {lock : Option ℕ} {x : Event}
    (hx : x.thread = t) (hn : ∀ cell dir, x ≠ .assign t cell dir) (hrec : x.Recorded w.cells)
    (hlock : p.holds = true ↔ lock = some t) (hother : ∀ u, u ≠ t → (lock = some u ↔ w.lock = some u))
    (hp : PhaseOk w.cells (storesOf t (H ++ [x])) p) :
    Inv (H ++ [x]) { w.goto t p with lock := lock } := by
  refine ⟨fun u => ?_, fun u => ?_, fun y hy => ?_, fun cell => ?_⟩
  · by_cases hu : u = t
    · subst hu
      simpa [World.goto] using hlock
    · rw [show (({ w.goto t p with lock := lock } : World).phase u) = w.phase u from
        Function.update_of_ne hu _ _, h.lock u]
      exact (hother u hu).symm
  · by_cases hu : u = t
    · subst hu
      simpa [World.goto] using hp
    · rw [show (({ w.goto t p with lock := lock } : World).phase u) = w.phase u from
        Function.update_of_ne hu _ _, storesOf_other (hx ▸ fun e => hu e.symm)]
      exact h.phase u
  · rcases List.mem_append.mp hy with hy | hy
    · exact h.recorded y hy
    · rw [List.mem_singleton.mp hy]
      exact hrec
  · have hnone : storesInto cell [x] = [] := by
      cases x with
      | assign u c d =>
        obtain rfl : u = t := hx
        exact absurd rfl (hn c d)
      | _ => rfl
    have hsplit : storesInto cell (H ++ [x]) = storesInto cell H ++ storesInto cell [x] :=
      List.filterMap_append
    rw [hsplit, hnone, List.append_nil]
    exact h.once cell

/-- A store of thread `t`, which holds the lock, into an empty cell. -/
theorem Inv.store {H : List Event} {w : World} (h : Inv H w) {t : ℕ} {p : Phase} {cell : Cell} {dir : Bytes}
    (hold : (w.phase t).holds = true) (hfree : w.cells cell = none) (hlock : p.holds = true)
    (hp : PhaseOk (Function.update w.cells cell (some dir)) (storesOf t H ++ [(cell, dir)]) p) :
    Inv (H ++ [.assign t cell dir]) ((w.assign cell dir).goto t p) := by
  have hkept := kept_update dir hfree
  refine ⟨fun u => ?_, fun u => ?_, fun y hy => ?_, fun c => ?_⟩
  · by_cases hu : u = t
    · subst hu
      have hl : w.lock = some u := (h.lock u).mp hold
      simp [World.goto, World.assign, hlock, hl]
    · rw [show (((w.assign cell dir).goto t p).phase u) = w.phase u from Function.update_of_ne hu _ _]
      exact h.lock u
  · by_cases hu : u = t
    · subst hu
      rw [storesOf_assign, if_pos rfl]
      simpa [World.goto, World.assign] using hp
    · -- another thread is outside the lock and relies on no cell
      have hout : (w.phase u).holds = false := by
        rw [Bool.eq_false_iff]
        intro hu'
        have h1 := (h.lock u).mp hu'
        rw [(h.lock t).mp hold] at h1
        exact hu (Option.some.inj h1).symm
      rw [show (((w.assign cell dir).goto t p).phase u) = w.phase u from Function.update_of_ne hu _ _,
        storesOf_assign, if_neg fun e => hu e.symm]
      exact (h.phase u).of_not_holds hout
  · rcases List.mem_append.mp hy with hy | hy
    · exact (h.recorded y hy).kept hkept
    · rw [List.mem_singleton.mp hy]
      exact Function.update_self _ _ _
  · have hsplit : storesInto c (H ++ [.assign t cell dir]) =
        storesInto c H ++ storesInto c [.assign t cell dir] := List.filterMap_append
    rw [hsplit, h.once c]
    by_cases hc : c = cell
    · subst hc
      simp [World.goto, World.assign, storesInto, hfree]
    · simp [World.goto, World.assign, storesInto, Function.update_of_ne hc, Ne.symm hc]

/-- A step that leaves the lock and the cells alone. -/
theorem Inv.quietMove {H : List Event} {w : World} (h : Inv H w) {t : ℕ} {p : Phase} {x : Event}
    (hx : x.thread = t) (hn : ∀ cell dir, x ≠ .assign t cell dir) (hrec : x.Recorded w.cells)
    (hlock : p.holds = (w.phase t).holds) (hp : PhaseOk w.cells (storesOf t (H ++ [x])) p) :
    Inv (H ++ [x]) (w.goto t p) :=
  @Inv.quiet H w h t p w.lock x hx hn hrec (by rw [hlock]; exact h.lock t) (fun _ _ => Iff.rfl) hp

/-- A step that takes the free lock. -/
theorem Inv.acquire {H : List Event} {w : World} (h : Inv H w) {t : ℕ} {p : Phase}
    (hfree : w.lock = none) (hlock : p.holds = true) (hp : PhaseOk w.cells (storesOf t H) p) :
    Inv (H ++ [.internal t]) { w.goto t p with lock := some t } := by
  refine h.quiet rfl nofun trivial (by simp [hlock]) (fun u hu => ?_) ?_
  · simp [hfree, Ne.symm hu]
  · rw [storesOf_internal]
    exact hp

/-- A step that releases the lock and ends the call. -/
theorem Inv.release {H : List Event} {w : World} (h : Inv H w) {t : ℕ} {x : Event}
    (hold : (w.phase t).holds = true) (hx : x.thread = t) (hn : ∀ cell dir, x ≠ .assign t cell dir)
    (hrec : x.Recorded w.cells) : Inv (H ++ [x]) { w.goto t .idle with lock := none } := by
  refine h.quiet hx hn hrec (by simp [Phase.holds]) (fun u hu => ?_) trivial
  simp [(h.lock t).mp hold, Ne.symm hu]

/-- **Every step keeps the invariant.** -/
theorem Inv.step {H : List Event} {w w' : World} {x : Event} (h : Inv H w) (hs : Step w x w') :
    Inv (H ++ [x]) w' := by
  cases hs with
  | @beginInit t config ht =>
    exact h.quietMove rfl nofun trivial (by rw [ht]; rfl) (by rw [storesOf_begin, if_pos rfl]; rfl)
  | @beginDir t cell ht => exact h.quietMove rfl nofun trivial (by rw [ht]; rfl) trivial
  | @initLock t config ht hfree =>
    have hok := h.phase t
    rw [ht] at hok
    exact h.acquire hfree rfl hok
  | @checkProperties t config ht =>
    have hok := h.phase t
    rw [ht] at hok
    split_ifs with hc
    · refine h.quietMove rfl nofun trivial (by rw [ht]; rfl) ⟨nofun, fun e he => ?_⟩
      rw [storesOf_internal]
      exact ⟨hok, .inl (Except.error.inj he).symm⟩
    · refine h.quietMove rfl nofun trivial (by rw [ht]; rfl) ⟨storesOf_internal.trans hok, fun hp => ?_⟩
      rw [hp, Bool.true_and, Bool.not_eq_true, Option.isSome_eq_false_iff, Option.isNone_iff_eq_none] at hc
      exact hc
  | @checkSocket t config ht =>
    have hok := h.phase t
    rw [ht] at hok
    split_ifs with hc
    · refine h.quietMove rfl nofun trivial (by rw [ht]; rfl) ⟨nofun, fun e he => ?_⟩
      rw [storesOf_internal]
      exact ⟨hok.1, .inr (Except.error.inj he).symm⟩
    · refine h.quietMove rfl nofun trivial (by rw [ht]; rfl)
        ⟨storesOf_internal.trans hok.1, hok.2, fun hp => ?_⟩
      rw [hp, Bool.true_and, Bool.not_eq_true, Option.isSome_eq_false_iff, Option.isNone_iff_eq_none] at hc
      exact hc
  | @skipProperties t config ht hc =>
    have hok := h.phase t
    rw [ht] at hok
    refine h.quietMove rfl nofun trivial (by rw [ht]; rfl) ⟨?_, hok.2.2⟩
    rw [storesOf_internal, hok.1, hc]
    rfl
  | @setProperties t config dir ht hc hfree =>
    have hok := h.phase t
    rw [ht] at hok
    refine h.store (by rw [ht]; rfl) hfree rfl ⟨?_, fun hp => ?_⟩
    · rw [hok.1, hc]
      rfl
    · rw [Function.update_of_ne (by decide)]
      exact hok.2.2 hp
  | @raceProperties t config dir old ht hc hset =>
    -- the check of this call still holds
    have hok := h.phase t
    rw [ht] at hok
    have hnone := hok.2.1 (by rw [hc]; rfl)
    rw [hnone] at hset
    cases hset
  | @skipSocket t config ht hc =>
    have hok := h.phase t
    rw [ht] at hok
    refine h.quietMove rfl nofun trivial (by rw [ht]; rfl) ⟨fun _ => ?_, nofun⟩
    rw [storesOf_internal, hok.1, PropertyConfig.dirs, hc]
    simp
  | @setSocket t config dir ht hc hfree =>
    have hok := h.phase t
    rw [ht] at hok
    refine h.store (by rw [ht]; rfl) hfree rfl ⟨fun _ => ?_, nofun⟩
    rw [hok.1, PropertyConfig.dirs, hc]
    rfl
  | @raceSocket t config dir old ht hc hset =>
    have hok := h.phase t
    rw [ht] at hok
    have hnone := hok.2 (by rw [hc]; rfl)
    rw [hnone] at hset
    cases hset
  | @initReturn t config result ht => exact h.release (by rw [ht]; rfl) rfl nofun trivial
  | @dirFast t cell dir ht hset => exact h.quietMove rfl nofun hset (by rw [ht]; rfl) trivial
  | @dirSlow t cell ht hfree => exact h.quietMove rfl nofun trivial (by rw [ht]; rfl) trivial
  | @dirLock t cell ht hfree => exact h.acquire hfree rfl trivial
  | @dirFound t cell dir ht hset => exact h.quietMove rfl nofun trivial (by rw [ht]; rfl) hset
  | @dirInit t cell env ht hfree =>
    exact h.store (by rw [ht]; rfl) hfree rfl (Function.update_self _ _ _)
  | @dirReturn t cell dir ht =>
    have hok := h.phase t
    rw [ht] at hok
    exact h.release (by rw [ht]; rfl) rfl nofun hok

theorem Run.inv {H : List Event} {w : World} (h : Run H w) : Inv H w := by
  refine Trace.Run.invariant (fun w hw => ?_) (fun _ _ _ _ hi hs => hi.step hs) h
  subst hw
  exact inv_start

/-! ### All or nothing -/

/-- No step changes a cell that is set. -/
theorem Step.kept {w w' : World} {x : Event} (h : Step w x w') : Kept w.cells w'.cells := by
  cases h with
  | setProperties ht hc hfree => exact kept_update _ hfree
  | setSocket ht hc hfree => exact kept_update _ hfree
  | dirInit env ht hfree => exact kept_update _ hfree
  | _ => exact fun _ _ hd => hd

theorem Run.kept {H' : List Event} {w w' : World} (h : Trace.Run (· = w) Step H' w') :
    Kept w.cells w'.cells := by
  induction h with
  | start hw =>
    subst hw
    exact fun _ _ hd => hd
  | snoc _ hs ih => exact fun cell dir hd => hs.kept cell dir (ih cell dir hd)

/-- **`try_init` is all or nothing.** In every state of every run of any number of threads: each cell has
been stored into at most once, and no later step changes it, so all readers have seen one value; a `try_init`
that returned an error had stored nothing and was refused by its checks; one that returned `Ok` had stored
exactly the directories of its configuration, which are still in the cells; and a thread about to store finds
its cell empty, so the branches behind a lost race are never taken. -/
theorem tryInit_all_or_nothing {H : List Event} {w : World} (h : Run H w) :
    (∀ cell, (storesInto cell H).length ≤ 1) ∧
    (∀ H' w', Trace.Run (· = w) Step H' w' →
      ∀ cell dir, w.cells cell = some dir → w'.cells cell = some dir) ∧
    (∀ cell t dir t' dir', .sees t cell dir ∈ H → .sees t' cell dir' ∈ H → dir = dir') ∧
    (∀ H₁ H₂ t config result, H = H₁ ++ .returned t config result :: H₂ →
      (∀ e, result = .error e → storesOf t H₁ = [] ∧ (e = propertiesRefusal ∨ e = socketRefusal)) ∧
      (result = .ok () → storesOf t H₁ = config.dirs ∧
        ∀ cell dir, (cell, dir) ∈ config.dirs → w.cells cell = some dir)) ∧
    (∀ t config, w.phase t = .setProperties config → config.propertiesDir ≠ none →
      w.cells .properties = none) ∧
    (∀ t config, w.phase t = .setSocket config → config.socketDir ≠ none → w.cells .socket = none) := by
  have hinv := h.inv
  refine ⟨fun cell => ?_, fun H' w' hrun => Run.kept hrun, fun cell t dir t' dir' h1 h2 => ?_,
    fun H₁ H₂ t config result hH => ?_, fun t config ht hc => ?_, fun t config ht hc => ?_⟩
  · rw [hinv.once cell]
    cases w.cells cell <;> simp
  · have hd : w.cells cell = some dir := hinv.recorded _ h1
    have hd' : w.cells cell = some dir' := hinv.recorded _ h2
    exact Option.some.inj (hd.symm.trans hd')
  · subst hH
    obtain ⟨w₁, w₂, hrun, hstep⟩ := Trace.Run.exists_step h
    cases hstep with
    | initReturn ht =>
      have hok := (Run.inv hrun).phase t
      rw [ht] at hok
      refine ⟨hok.2, fun hres => ⟨hok.1 hres, fun cell dir hd => ?_⟩⟩
      rw [← hok.1 hres] at hd
      exact hinv.recorded _ (List.mem_append_left _ (mem_of_mem_storesOf hd))
  · have hok := hinv.phase t
    rw [ht] at hok
    exact hok.2.1 (Option.isSome_iff_ne_none.mpr hc)
  · have hok := hinv.phase t
    rw [ht] at hok
    exact hok.2 (Option.isSome_iff_ne_none.mpr hc)

/-- One thread sets both directories, with a reader of the socket directory between its two checks. -/
theorem tryInit_all_or_nothing_both :
    ∃ H w, Run H w ∧ .returned 0 ⟨some [1], some [2]⟩ (.ok ()) ∈ H ∧ w.cells .socket = some [2] := by
  have h0 : Run [] World.start := .start rfl
  have h1 := h0.snoc (.beginInit (t := 0) ⟨some [1], some [2]⟩ rfl)
  have h2 := h1.snoc (.initLock (t := 0) rfl rfl)
  have h3 := h2.snoc (.checkProperties (t := 0) rfl)
  have h4 := h3.snoc (.beginDir (t := 1) .socket rfl)
  have h5 := h4.snoc (.dirSlow (t := 1) rfl rfl)
  have h6 := h5.snoc (.checkSocket (t := 0) rfl)
  have h7 := h6.snoc (.setProperties (t := 0) rfl rfl rfl)
  have h8 := h7.snoc (.setSocket (t := 0) rfl rfl rfl)
  have h9 := h8.snoc (.initReturn (t := 0) rfl)
  refine ⟨_, _, h9, by simp, ?_⟩
  exact (((tryInit_all_or_nothing h9).2.2.2.1 _ [] 0 _ _ rfl).2 rfl).2 .socket [2] (by decide)

end RsProperties.Directories
